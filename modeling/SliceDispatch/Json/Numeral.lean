import SliceDispatch.Json.Draft

namespace SliceDispatch.Json

inductive Numeral.Part where
  | sign | zero | whole | point | fraction | mark | markSign | exponent
deriving DecidableEq

structure Numeral where
  part : Numeral.Part
  negative : Bool := false
  /-- The digits of the fraction follow those before the point. -/
  digits : Nat := 0
  /-- The length of the fraction. -/
  places : Nat := 0
  negativeExponent : Bool := false
  exponent : Nat := 0

namespace Numeral

def digit (c : Char) : Nat := c.toNat - '0'.toNat

def ofChar? (c : Char) : Option Numeral :=
  if c = '-' then some { part := .sign, negative := true }
  else if c = '0' then some { part := .zero }
  else if c.isDigit then some { part := .whole, digits := digit c }
  else none

/-- The numeral with one character more, if that belongs to it. -/
def push? (n : Numeral) (c : Char) : Option Numeral :=
  match n.part with
  | .sign => if c = '0' then some { n with part := .zero } else wholeDigit
  | .zero => if c = '.' then some { n with part := .point } else markChar
  | .whole =>
    if c = '.' then some { n with part := .point }
    else if c.isDigit then wholeDigit
    else markChar
  | .point => fractionDigit
  | .fraction => if c.isDigit then fractionDigit else markChar
  | .mark =>
    if c = '-' then some { n with part := .markSign, negativeExponent := true }
    else if c = '+' then some { n with part := .markSign }
    else exponentDigit
  | .markSign | .exponent => exponentDigit
where
  wholeDigit : Option Numeral :=
    if c.isDigit then some { n with part := .whole, digits := 10 * n.digits + digit c } else none
  fractionDigit : Option Numeral :=
    if c.isDigit then
      some { n with part := .fraction, digits := 10 * n.digits + digit c, places := n.places + 1 }
    else none
  markChar : Option Numeral :=
    if c = 'e' ∨ c = 'E' then some { n with part := .mark } else none
  exponentDigit : Option Numeral :=
    if c.isDigit then some { n with part := .exponent, exponent := 10 * n.exponent + digit c }
    else none

def endsBefore (n : Numeral) (next : Option Char) : Bool :=
  match n.part with
  | .zero => !next.any Char.isDigit
  | .whole | .fraction | .exponent => true
  | .sign | .point | .mark | .markSign => false

/-- Whole numbers of up to 64 bits are integers, save minus zero; others are the nearest double, if
there is one. -/
def value (n : Numeral) : Draft :=
  let whole : Int := if n.negative then -n.digits else n.digits
  if (n.part = .zero ∨ n.part = .whole) ∧ ¬(n.negative ∧ n.digits = 0) ∧
      -0x8000000000000000 ≤ whole ∧ whole < 0x10000000000000000 then
    .int whole
  else
    let exponent : Int := if n.negativeExponent then -n.exponent else n.exponent
    match Binary64.ofDecimal? n.negative n.digits (exponent - n.places) with
    | some x => .real x
    | none => .flawed

end Numeral
end SliceDispatch.Json
