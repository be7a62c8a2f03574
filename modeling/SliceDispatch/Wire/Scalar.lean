import SliceDispatch.Expr
import SliceDispatch.Hexadecimal
import SliceDispatch.Json.Basic

namespace SliceDispatch

/-- A double is written as the sixteen hexadecimal digits of its bits. -/
def Binary64.toJson (x : Binary64) : Json := .text (Hexadecimal.ofWord x.bits)

def Binary64.ofJson? (bits : Bool) : Json → Option Binary64
  | .int value => some (.ofInt value)
  | .real value => some value
  | .text digits => if bits then (Hexadecimal.word? digits).map .mk else none
  | _ => none

def Scalar.toJson : Scalar → Json
  | .null => .text "Null"
  | .bool value => .object [("Bool", .bool value)]
  | .int value => .object [("Int64", .int value.toInt)]
  | .double value => .object [("Float64", value.toJson)]
  | .text value => .object [("Utf8", .text value)]
  | .date days => .object [("Date", .int days.toInt)]

def Scalar.ofJson? (bits : Bool) : Json → Option Scalar
  | .text "Null" | .object [("Null", .null)] => some .null
  | .object [("Bool", j)] => j.bool?.map .bool
  | .object [("Int64", j)] => j.int64?.map .int
  | .object [("Float64", j)] => (Binary64.ofJson? bits j).map .double
  | .object [("Utf8", j)] => j.text?.map .text
  | .object [("Date", j)] => j.int32?.map .date
  | _ => none

def Table.toJson (t : Table) : Json := .object [("schema", .text t.schema), ("name", .text t.name)]

def Table.ofJson? (j : Json) : Option Table := do
  let fields ← j.record? ["schema", "name"] 2
  return { schema := ← Json.required "schema" Json.text? fields
           name := ← Json.required "name" Json.text? fields }

def Column.toJson (c : Column) : Json :=
  .object [("table", .ofOption .text c.qualifier), ("name", .text c.name),
    ("index", .ofUInt32 c.ordinal)]

def Column.ofJson? (j : Json) : Option Column := do
  let fields ← j.record? ["table", "name", "index"] 3
  return { qualifier := ← Json.optional "table" Json.text? fields
           name := ← Json.required "name" Json.text? fields
           ordinal := ← Json.required "index" Json.uint32? fields }

def NodeId.toJson (id : NodeId) : Json := .ofUInt32 id.index

def NodeId.ofJson? (j : Json) : Option NodeId := j.uint32?.map .mk

end SliceDispatch
