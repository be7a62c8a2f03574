import SliceDispatch.Decimal
import SliceDispatch.Hexadecimal
import SliceDispatch.Json.Basic

namespace SliceDispatch.Json

def appendChar (text : String) (c : Char) : String :=
  if c = '"' then text ++ "\\\""
  else if c = '\\' then text ++ "\\\\"
  else if c.toNat < 0x20 then text ++ "\\u00" ++ String.ofList (Hexadecimal.digits 2 c.toNat)
  else text.push c

def appendQuoted (text s : String) : String := (s.foldl appendChar (text.push '"')).push '"'

mutual

/-- A number that is not finite has no JSON form and is written as null. -/
def append (text : String) : Json → String
  | .null => text ++ "null"
  | .bool value => text ++ if value then "true" else "false"
  | .int value => text ++ toString value
  | .real value => text ++ if value.isNaN || value.isInfinite then "null" else value.render
  | .text value => appendQuoted text value
  | .array [] => text ++ "[]"
  | .array (j :: js) => (appendItems (append (text.push '[') j) js).push ']'
  | .object [] => text ++ "\x7b\x7d"
  | .object ((name, j) :: fields) =>
    (appendFields (append ((appendQuoted (text.push '\x7b') name).push ':') j) fields).push '\x7d'

def appendItems (text : String) : List Json → String
  | [] => text
  | j :: js => appendItems (append (text.push ',') j) js

def appendFields (text : String) : List (String × Json) → String
  | [] => text
  | (name, j) :: fields =>
    appendFields (append ((appendQuoted (text.push ',') name).push ':') j) fields

end

def write (j : Json) : String := append "" j

end SliceDispatch.Json
