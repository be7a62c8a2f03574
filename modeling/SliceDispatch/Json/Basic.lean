import SliceDispatch.Binary64

namespace SliceDispatch

inductive Json where
  | null
  | bool (value : Bool)
  /-- A number without fraction and exponent, of at most 64 bits. -/
  | int (value : Int)
  | real (value : Binary64)
  | text (value : String)
  | array (items : List Json)
  | object (fields : List (String × Json))
deriving Inhabited

namespace Json

mutual

/-- Drops all but the last of the fields of an object that share a name, at every depth. -/
def keepLast : Json → Json
  | .array items => .array (keepLastItems items)
  | .object fields => .object (keepLastFields fields)
  | j => j

def keepLastItems : List Json → List Json
  | [] => []
  | j :: js => keepLast j :: keepLastItems js

def keepLastFields : List (String × Json) → List (String × Json)
  | [] => []
  | (name, j) :: fields =>
    if fields.any (·.1 == name) then keepLastFields fields
    else (name, keepLast j) :: keepLastFields fields

end

/-- The value under a name in the fields of an object, if there is one; a repeated name does not
decode. -/
def lookup? (name : String) : List (String × Json) → Option (Option Json)
  | [] => some none
  | (n, j) :: fields =>
    if n = name then if fields.any (·.1 == name) then none else some (some j)
    else lookup? name fields

def fields? : Json → Option (List (String × Json))
  | .object fields => some fields
  | _ => none

/-- The fields of a record, which may also be the array of the values of its fields, all or at least
so many of the first. -/
def record? (names : List String) (least : Nat) : Json → Option (List (String × Json))
  | .object fields => some fields
  | .array items =>
    if least ≤ items.length ∧ items.length ≤ names.length then some (names.zip items) else none
  | _ => none

/-- The fields of a record that has those which `names` gives for its type, and before them the
type. -/
def typed? (names : String → List String) : Json → Option (List (String × Json))
  | .array (.text type :: items) => do
    let fields ← record? (names type) (names type).length (.array items)
    return ("type", .text type) :: fields
  | j => j.fields?

def required (name : String) (decode : Json → Option α) (fields : List (String × Json)) :
    Option α :=
  match lookup? name fields with
  | some (some j) => decode j
  | _ => none

/-- The value of a field that has a default when it is missing, but not when it is null. -/
def defaulted (name : String) (default : α) (decode : Json → Option α)
    (fields : List (String × Json)) : Option α :=
  match lookup? name fields with
  | some (some j) => decode j
  | some none => some default
  | none => none

/-- The value of a field that may be missing or null. -/
def optional (name : String) (decode : Json → Option α) (fields : List (String × Json)) :
    Option (Option α) :=
  match lookup? name fields with
  | some (some .null) | some none => some none
  | some (some j) => (decode j).map some
  | none => none

def bool? : Json → Option Bool
  | .bool value => some value
  | _ => none

def text? : Json → Option String
  | .text value => some value
  | _ => none

/-- One of some names, which may also be the name of a field that holds null. -/
def name? : Json → Option String
  | .text name | .object [(name, .null)] => some name
  | _ => none

def uint32? : Json → Option UInt32
  | .int value => if 0 ≤ value ∧ value < 0x100000000 then some (.ofNat value.toNat) else none
  | _ => none

def uint64? : Json → Option UInt64
  | .int value => if 0 ≤ value ∧ value < 0x10000000000000000 then some (.ofNat value.toNat) else none
  | _ => none

def int32? : Json → Option Int32
  | .int value => if -0x80000000 ≤ value ∧ value < 0x80000000 then some (.ofInt value) else none
  | _ => none

def int64? : Json → Option Int64
  | .int value =>
    if -0x8000000000000000 ≤ value ∧ value < 0x8000000000000000 then some (.ofInt value) else none
  | _ => none

def listOf (decode : Json → Option α) : Json → Option (List α)
  | .array items => items.mapM decode
  | _ => none

def ofUInt32 (value : UInt32) : Json := .int value.toNat

def ofUInt64 (value : UInt64) : Json := .int value.toNat

def ofOption (encode : α → Json) : Option α → Json
  | some a => encode a
  | none => .null

def ofList (encode : α → Json) (as : List α) : Json := .array (as.map encode)

theorem uint32?_ofUInt32 (n : UInt32) : (ofUInt32 n).uint32? = some n := by
  have := n.toNat_lt
  simp only [ofUInt32, uint32?]
  rw [if_pos (by omega)]
  simp

theorem uint64?_ofUInt64 (n : UInt64) : (ofUInt64 n).uint64? = some n := by
  have := n.toNat_lt
  simp only [ofUInt64, uint64?]
  rw [if_pos (by omega)]
  simp

theorem listOf_ofList {encode : α → Json} {decode : Json → Option α}
    (h : ∀ a, decode (encode a) = some a) (as : List α) :
    listOf decode (ofList encode as) = some as := by
  induction as with
  | nil => rfl
  | cons a as ih =>
    simp only [listOf, ofList, List.map_cons, List.mapM_cons, h] at ih ⊢
    simp [ih]

end Json
end SliceDispatch
