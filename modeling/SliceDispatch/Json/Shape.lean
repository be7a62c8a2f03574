import SliceDispatch.Json.Draft

namespace SliceDispatch.Json

/-- A field of a record: the shape of its value, whether that may be null, and whether the field may
be missing. -/
structure Field (α : Type) where
  name : String
  shape : α
  nullable : Bool := false
  optional : Bool := false

inductive Shape where
  | text
  | flag
  | integer (least most : Int)
  | double
  /-- One of some names; a numbered one may also be given by its place among them. -/
  | oneOf (names : List String) (numbered : Bool)
  | list (item : Shape)
  /-- An object whose fields may have any names. -/
  | dictionary (value : Shape)
  /-- An object with some fields, or the array of their values. -/
  | record (fields : List (Field Shape))
  /-- An object whose one field is a variant and holds what belongs to that. A variant to which
  nothing belongs may also be its name alone. A value of another kind, or more than the one field,
  counts as a fault of reading. -/
  | choice (variants : List (String × Option Shape))
  /-- A record of the fields that belong to its type. -/
  | union (kinds : List (String × List (Field Shape)))
  /-- An object of fields that all types have and those that belong to its type. The type counts as
  read after all other fields, and may be a number. -/
  | extended (common : List (Field Shape)) (kinds : List (String × List (Field Shape)))
  /-- The shape that all others are part of. -/
  | self

namespace Shape

def uint32 : Shape := .integer 0 0xffffffff

def uint64 : Shape := .integer 0 0xffffffffffffffff

def int32 : Shape := .integer (-0x80000000) 0x7fffffff

def int64 : Shape := .integer (-0x8000000000000000) 0x7fffffffffffffff

def named (names : List String) : Shape := .choice (names.map fun name => (name, none))

def resolve (shape root : Shape) : Shape :=
  match shape with
  | .self => root
  | shape => shape

def typeField (kinds : List (String × List (Field Shape))) (numbered : Bool) : Field Shape :=
  { name := "type", shape := .oneOf (kinds.map (·.1)) numbered }

def nameOf? (names : List String) (numbered : Bool) : Draft → Option String
  | .text name => if names.contains name then some name else none
  | .int place => if numbered && 0 ≤ place then names[place.toNat]? else none
  | _ => none

def conformScalar (shape : Shape) (d : Draft) : Except Refusal Json :=
  match shape, d with
  | .text, .text value => .ok (.text value)
  | .flag, .bool value => .ok (.bool value)
  | .integer least most, .int value =>
    if least ≤ value ∧ value ≤ most then .ok (.int value) else .error .undecodable
  | .double, .int value => .ok (.int value)
  | .double, .real value => .ok (.real value)
  | .oneOf names numbered, d =>
    match nameOf? names numbered d with
    | some name => .ok (.text name)
    | none => .error d.refusal
  | .choice variants, .text name =>
    match variants.lookup name with
    | some none => .ok (.text name)
    | _ => .error .undecodable
  | .choice _, _ => .error .unreadable
  | _, d => .error d.refusal

def readOn (possible : Bool) : Except Refusal Unit :=
  if possible then .ok () else .error .unreadable

def requireAll (fields : List (Field Shape)) (found : List (String × Json)) :
    Except Refusal Unit :=
  if fields.all fun field => field.optional || found.any (·.1 == field.name) then .ok ()
  else .error .undecodable

def kindOf (kinds : List (String × List (Field Shape))) (found : List (String × Json)) :
    Except Refusal (String × List (Field Shape)) :=
  match found.lookup "type" with
  | some (.text type) =>
    match kinds.lookup type with
    | some fields => .ok (type, fields)
    | none => .error .undecodable
  | _ => .error .undecodable

/-- Conformance of values that were kept until the type of their record was known. They have been
read before, so that no fault of theirs is one of reading. -/
def afterwards (result : Except Refusal α) : Except Refusal α :=
  result.mapError fun _ => .undecodable

mutual

/-- Whether a draft has a shape, at most `levels` of its arrays and objects nested. A value that is
`kept` may have an empty object for null in a choice. -/
def conformAt (root : Shape) (kept : Bool) (levels : Nat) (shape : Shape) :
    Draft → Except Refusal Json
  | .array items ended =>
    match shape.resolve root with
    | .list item => do
      readOn (levels != 0)
      let js ← conformItems root kept (levels - 1) item items
      readOn ended
      return .array js
    | .record fields => do
      readOn (levels != 0)
      return .object (← conformValues root kept (levels - 1) ended fields items)
    | .union kinds => do
      readOn (levels != 0)
      return .object (← conformUnion root (levels - 1) ended kinds items)
    | .choice _ => .error .unreadable
    | _ => .error .undecodable
  | .object fields ended =>
    match shape.resolve root with
    | .dictionary value => do
      readOn (levels != 0)
      let found ← conformEntries root kept (levels - 1) value fields
      readOn ended
      return .object found
    | .record known => do
      readOn (levels != 0)
      let found ← conformFields root kept (levels - 1) Draft.hasEnd known [] fields
      readOn ended
      requireAll known found
      return .object found
    | .choice variants => do
      readOn (levels != 0)
      let j ← conformVariant root kept (levels - 1) variants fields
      readOn ended
      return j
    | .union kinds => do
      readOn (levels != 0)
      let sound := Draft.isSound (levels - 1)
      let type ← conformFields root kept (levels - 1) sound [typeField kinds false] [] fields
      readOn ended
      let (type, known) ← kindOf kinds type
      let found ← afterwards (conformFields root true (levels - 1) Draft.hasEnd known [] fields)
      requireAll known found
      return .object (("type", .text type) :: found)
    | .extended common kinds => do
      readOn (levels != 0)
      let sound := Draft.isSound (levels - 1)
      let own ← conformFields root kept (levels - 1) sound common [] fields
      readOn ended
      requireAll common own
      let type ← afterwards
        (conformFields root true (levels - 1) Draft.hasEnd [typeField kinds true] [] fields)
      let (type, known) ← kindOf kinds type
      let found ← afterwards (conformFields root true (levels - 1) Draft.hasEnd known [] fields)
      requireAll known found
      return .object (("type", .text type) :: found ++ own)
    | _ => .error .undecodable
  | d => conformScalar (shape.resolve root) d

def conformItems (root : Shape) (kept : Bool) (levels : Nat) (item : Shape) :
    List Draft → Except Refusal (List Json)
  | [] => .ok []
  | d :: ds => do
    let j ← conformAt root kept levels item d
    let js ← conformItems root kept levels item ds
    return j :: js

/-- The fields of a record from the array of their values, which ends after them or not. -/
def conformValues (root : Shape) (kept : Bool) (levels : Nat) (ended : Bool)
    (fields : List (Field Shape)) : List Draft → Except Refusal (List (String × Json))
  | [] => do
    readOn ended
    requireAll fields []
    return []
  | d :: ds =>
    match fields with
    | [] => .error .unreadable
    | field :: fields => do
      let j ← if field.nullable && d.isNull then .ok .null
        else conformAt root kept levels field.shape d
      let found ← conformValues root kept levels ended fields ds
      return (field.name, j) :: found

/-- The fields of a union from the array of its type and their values. The type is read first, and
the values when all have been read. -/
def conformUnion (root : Shape) (levels : Nat) (ended : Bool)
    (kinds : List (String × List (Field Shape))) : List Draft → Except Refusal (List (String × Json))
  | [] => do
    readOn ended
    .error .undecodable
  | d :: ds => do
    let type ← conformAt root false levels (typeField kinds false).shape d
    readOn (ended && ds.all (Draft.isSound levels))
    let (type, known) ← kindOf kinds [("type", type)]
    let found ← afterwards (conformValues root true levels true known ds)
    return ("type", .text type) :: found

def conformEntries (root : Shape) (kept : Bool) (levels : Nat) (value : Shape) :
    List (Draft × Draft) → Except Refusal (List (String × Json))
  | [] => .ok []
  | (.text name, d) :: fields => do
    let j ← conformAt root kept levels value d
    let found ← conformEntries root kept levels value fields
    return (name, j) :: found
  | _ :: _ => .error .unreadable

/-- The known fields of an object after others named `seen`. A known field may occur once; the value
of another may be anything that passes. -/
def conformFields (root : Shape) (kept : Bool) (levels : Nat) (passes : Draft → Bool)
    (known : List (Field Shape)) (seen : List String) :
    List (Draft × Draft) → Except Refusal (List (String × Json))
  | [] => .ok []
  | (.text name, d) :: fields =>
    match known.find? (·.name == name) with
    | some field =>
      if seen.contains name then .error .undecodable
      else do
        let j ← if field.nullable && d.isNull then .ok .null
          else conformAt root kept levels field.shape d
        let found ← conformFields root kept levels passes known (name :: seen) fields
        return (name, j) :: found
    | none => do
      readOn (passes d)
      conformFields root kept levels passes known seen fields
  | _ :: _ => .error .unreadable

def conformVariant (root : Shape) (kept : Bool) (levels : Nat)
    (variants : List (String × Option Shape)) : List (Draft × Draft) → Except Refusal Json
  | [] => .error .unreadable
  | (.text name, d) :: fields =>
    match variants.lookup name with
    | some (some shape) => do
      let j ← conformAt root kept levels shape d
      readOn fields.isEmpty
      return .object [(name, j)]
    | some none => do
      unless d.isNull || (kept && d.isEmpty) do .error d.refusal
      readOn fields.isEmpty
      return .text name
    | none => .error .undecodable
  | (name, _) :: _ => .error name.refusal

end

/-- Whether a draft has a shape, all of whose parts belong to `root`. -/
def conform (shape root : Shape) (d : Draft) : Except Refusal Json :=
  conformAt root false Draft.maxLevels shape d

end Shape
end SliceDispatch.Json
