import SliceDispatch.Catalog
import SliceDispatch.Wire.Scalar

namespace SliceDispatch

def HashFamily.name : HashFamily → String
  | .integer => "integer"
  | .float => "float"
  | .text => "text"
  | .bool => "bool"
  | .date => "date"

def HashFamily.ofName? : String → Option HashFamily
  | "integer" => some .integer
  | "float" => some .float
  | "text" => some .text
  | "bool" => some .bool
  | "date" => some .date
  | _ => none

def HashFamily.ofJson? (j : Json) : Option HashFamily := j.name?.bind ofName?

def KeyColumn.toJson (k : KeyColumn) : Json :=
  .object [("column", k.column.toJson), ("opfamily", .text k.family.name)]

def KeyColumn.ofJson? (j : Json) : Option KeyColumn := do
  let fields ← j.record? ["column", "opfamily"] 2
  return { column := ← Json.required "column" Column.ofJson? fields
           family := ← Json.required "opfamily" HashFamily.ofJson? fields }

def Distribution.toJson : Distribution → Json
  | .random segments => .object [("type", .text "random"), ("num_segments", .ofUInt64 segments)]
  | .hashed keys segments =>
    .object [("type", .text "hashed"), ("keys", .ofList KeyColumn.toJson keys),
      ("num_segments", .ofUInt64 segments)]
  | .replicated segments =>
    .object [("type", .text "replicated"), ("num_segments", .ofUInt64 segments)]

def Distribution.fieldNames : String → List String
  | "hashed" => ["keys", "num_segments"]
  | _ => ["num_segments"]

def Distribution.ofJson? (j : Json) : Option Distribution := do
  let fields ← j.typed? fieldNames
  match ← Json.required "type" Json.text? fields with
  | "random" => return .random (← Json.required "num_segments" Json.uint64? fields)
  | "hashed" =>
    let keys ← Json.required "keys" (Json.listOf KeyColumn.ofJson?) fields
    return .hashed keys (← Json.required "num_segments" Json.uint64? fields)
  | "replicated" => return .replicated (← Json.required "num_segments" Json.uint64? fields)
  | _ => none

/-- A catalog from pairs of qualified names and distributions; the last of a name holds. -/
def StoredCatalog.ofFields? (segments : UInt64) : List (String × Json) → Option StoredCatalog :=
  List.foldlM (fun c (name, j) => (Distribution.ofJson? j).map (c.insert name)) (empty segments)

def StoredCatalog.ofJson? (j : Json) : Option StoredCatalog := do
  let fields ← j.record? ["policies", "numSegments"] 2
  let entries ← Json.defaulted "policies" [] Json.fields? fields
  let segments ← Json.required "numSegments" Json.uint64? fields
  StoredCatalog.ofFields? segments entries

end SliceDispatch
