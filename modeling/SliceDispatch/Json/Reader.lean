import SliceDispatch.Hexadecimal
import SliceDispatch.Json.Builder
import SliceDispatch.Json.Numeral

namespace SliceDispatch.Json

/-- A string whose end has not been read. -/
structure Quotation where
  text : String := ""
  /-- The first half of a surrogate pair, if it was read last. -/
  leading : Option Nat := none
  /-- Whether all halves of surrogate pairs have met their partners. -/
  sound : Bool := true

namespace Quotation

def push (q : Quotation) (c : Char) : Quotation :=
  { text := q.text.push c, sound := q.sound && q.leading.isNone }

def pushUnit (q : Quotation) (unit : Nat) : Quotation :=
  if 0xd800 ≤ unit ∧ unit < 0xdc00 then
    { q with leading := some unit, sound := q.sound && q.leading.isNone }
  else if 0xdc00 ≤ unit ∧ unit < 0xe000 then
    match q.leading with
    | some first =>
      { q with
        text := q.text.push (Char.ofNat (0x10000 + (first - 0xd800) * 0x400 + (unit - 0xdc00)))
        leading := none }
    | none => { q with sound := false }
  else q.push (Char.ofNat unit)

def value (q : Quotation) : Draft := if q.sound && q.leading.isNone then .text q.text else .flawed

end Quotation

inductive Mode where
  | blank
  /-- A word that stands for a value, with the letters that are to come. -/
  | word (letters : List Char) (value : Draft)
  | number (numeral : Numeral)
  | quoted (quotation : Quotation)
  | escaped (quotation : Quotation)
  /-- A code unit in hexadecimal, `missing` digits of which are to come. -/
  | unit (quotation : Quotation) (missing : Nat) (value : Nat)

structure Reader where
  mode : Mode := .blank
  builder : Builder := .start
  /-- Whether nothing but blanks follows the draft. -/
  alone : Bool := true

namespace Reader

def emit (r : Reader) (token : Token) : Reader :=
  { r with mode := .blank, builder := r.builder.step token }

def isBlank (c : Char) : Bool := c = ' ' || c = '\n' || c = '\t' || c = '\r'

def stepToken (r : Reader) (c : Char) : Reader :=
  match c with
  | '[' => r.emit .openArray
  | ']' => r.emit .closeArray
  | '\x7b' => r.emit .openObject
  | '\x7d' => r.emit .closeObject
  | ',' => r.emit .comma
  | ':' => r.emit .colon
  | '"' => { r with mode := .quoted {} }
  | 'n' => { r with mode := .word ['u', 'l', 'l'] .null }
  | 't' => { r with mode := .word ['r', 'u', 'e'] (.bool true) }
  | 'f' => { r with mode := .word ['a', 'l', 's', 'e'] (.bool false) }
  | c =>
    match Numeral.ofChar? c with
    | some numeral => { r with mode := .number numeral }
    | none => r.emit .fault

def stepBlank (r : Reader) (c : Char) : Reader :=
  if isBlank c then r
  else match r.builder with
    | .building _ _ => r.stepToken c
    | .built _ => { r with alone := false }

def unescape? (c : Char) : Option Char :=
  match c with
  | '"' => some '"'
  | '\\' => some '\\'
  | '/' => some '/'
  | 'b' => some '\x08'
  | 'f' => some '\x0c'
  | 'n' => some '\n'
  | 'r' => some '\r'
  | 't' => some '\t'
  | _ => none

def step (r : Reader) (c : Char) : Reader :=
  match r.mode with
  | .blank => r.stepBlank c
  | .word letters value =>
    match letters with
    | [letter] => if c = letter then r.emit (.scalar value) else r.emit .fault
    | letter :: letters =>
      if c = letter then { r with mode := .word letters value } else r.emit .fault
    | [] => r.emit .fault
  | .number numeral =>
    match numeral.push? c with
    | some numeral => { r with mode := .number numeral }
    | none =>
      if numeral.endsBefore (some c) then (r.emit (.scalar numeral.value)).stepBlank c
      else r.emit .fault
  | .quoted quotation =>
    if c = '"' then r.emit (.string quotation.value)
    else if c = '\\' then { r with mode := .escaped quotation }
    else if c.toNat < 0x20 then r.emit .fault
    else { r with mode := .quoted (quotation.push c) }
  | .escaped quotation =>
    if c = 'u' then { r with mode := .unit quotation 4 0 }
    else match unescape? c with
      | some c => { r with mode := .quoted (quotation.push c) }
      | none => r.emit .fault
  | .unit quotation missing value =>
    match Hexadecimal.value? c with
    | some digit =>
      if missing ≤ 1 then { r with mode := .quoted (quotation.pushUnit (16 * value + digit)) }
      else { r with mode := .unit quotation (missing - 1) (16 * value + digit) }
    | none => r.emit .fault

def finish (r : Reader) : Reader :=
  match r.mode with
  | .number numeral =>
    r.emit (if numeral.endsBefore none then .scalar numeral.value else .fault)
  | _ => r

end Reader

def Reader.ofText (text : String) : Reader := (text.foldl Reader.step {}).finish

def Draft.ofText (text : String) : Draft := (Reader.ofText text).builder.draft

/-- The value that a text spells. -/
def read? (text : String) : Option Json :=
  let r := Reader.ofText text
  if r.alone then r.builder.draft.toJson? Draft.maxLevels else none

end SliceDispatch.Json
