import SliceDispatch.Json.Basic

namespace SliceDispatch.Json

inductive Draft where
  | null
  | bool (value : Bool)
  | int (value : Int)
  | real (value : Binary64)
  | text (value : String)
  /-- A number that no double is near to, or a string that holds half a surrogate pair. It has an
  end, so that it can be passed over, but no value. -/
  | flawed
  /-- The items of an array, and whether it ends after them. -/
  | array (items : List Draft) (ended : Bool)
  /-- The names and values of an object, and whether it ends after them. A name that is no string is
  the last, and its value is broken. -/
  | object (fields : List (Draft × Draft)) (ended : Bool)
  /-- No value starts here. -/
  | broken
deriving Inhabited

/-- Why a text does not hold what it should: the first fault in it is of its JSON, or its JSON is of
another shape. -/
inductive Refusal where
  | unreadable
  | undecodable
deriving DecidableEq, Inhabited

namespace Draft

def maxLevels : Nat := 127

mutual

def ofJson : Json → Draft
  | .null => .null
  | .bool value => .bool value
  | .int value => .int value
  | .real value => .real value
  | .text value => .text value
  | .array items => .array (ofItems items) true
  | .object fields => .object (ofFields fields) true

def ofItems : List Json → List Draft
  | [] => []
  | j :: js => ofJson j :: ofItems js

def ofFields : List (String × Json) → List (Draft × Draft)
  | [] => []
  | (name, j) :: fields => (.text name, ofJson j) :: ofFields fields

end

mutual

/-- The value that a draft without faults stands for, if at most `levels` of its arrays and objects
are nested. -/
def toJson? (levels : Nat) : Draft → Option Json
  | .null => some .null
  | .bool value => some (.bool value)
  | .int value => some (.int value)
  | .real value => some (.real value)
  | .text value => some (.text value)
  | .array items ended =>
    if ended && levels != 0 then (itemsToJson? (levels - 1) items).map .array else none
  | .object fields ended =>
    if ended && levels != 0 then (fieldsToJson? (levels - 1) fields).map .object else none
  | .flawed | .broken => none

def itemsToJson? (levels : Nat) : List Draft → Option (List Json)
  | [] => some []
  | d :: ds => do
    let j ← toJson? levels d
    let js ← itemsToJson? levels ds
    return j :: js

def fieldsToJson? (levels : Nat) : List (Draft × Draft) → Option (List (String × Json))
  | [] => some []
  | (.text name, d) :: fields => do
    let j ← toJson? levels d
    let js ← fieldsToJson? levels fields
    return (name, j) :: js
  | _ :: _ => none

end

def isSound (levels : Nat) (d : Draft) : Bool := (d.toJson? levels).isSome

/-- Whether reading came to the end of the value. An array or object that ends holds only values that
do. -/
def hasEnd : Draft → Bool
  | .array _ ended | .object _ ended => ended
  | .broken => false
  | _ => true

def isNull : Draft → Bool
  | .null => true
  | _ => false

def isEmpty : Draft → Bool
  | .object [] ended => ended
  | _ => false

/-- How a value of an unexpected kind is refused. A number or string is looked at whole, an array or
object only at its start. -/
def refusal : Draft → Refusal
  | .flawed | .broken => .unreadable
  | _ => .undecodable

mutual

theorem ofJson_of_toJson? {levels : Nat} : ∀ {d : Draft} {j : Json},
    d.toJson? levels = some j → ofJson j = d
  | .null, j, h | .bool _, j, h | .int _, j, h | .real _, j, h | .text _, j, h => by
    simp only [toJson?, Option.some.injEq] at h
    subst h
    rfl
  | .flawed, j, h | .broken, j, h => by simp [toJson?] at h
  | .array items ended, j, h => by
    simp only [toJson?] at h
    split at h
    · rename_i he
      obtain ⟨js, hjs, rfl⟩ := Option.map_eq_some_iff.1 h
      simp only [Bool.and_eq_true] at he
      simp [ofJson, ofItems_of_toJson? hjs, he.1]
    · simp at h
  | .object fields ended, j, h => by
    simp only [toJson?] at h
    split at h
    · rename_i he
      obtain ⟨js, hjs, rfl⟩ := Option.map_eq_some_iff.1 h
      simp only [Bool.and_eq_true] at he
      simp [ofJson, ofFields_of_toJson? hjs, he.1]
    · simp at h

theorem ofItems_of_toJson? {levels : Nat} : ∀ {ds : List Draft} {js : List Json},
    itemsToJson? levels ds = some js → ofItems js = ds
  | [], js, h => by
    simp only [itemsToJson?, Option.some.injEq] at h
    subst h
    rfl
  | d :: ds, js, h => by
    simp only [itemsToJson?, Option.bind_eq_bind, Option.bind_eq_some_iff, Option.pure_def,
      Option.some.injEq] at h
    obtain ⟨j, hj, js, hjs, rfl⟩ := h
    simp [ofItems, ofJson_of_toJson? hj, ofItems_of_toJson? hjs]

theorem ofFields_of_toJson? {levels : Nat} :
    ∀ {fields : List (Draft × Draft)} {js : List (String × Json)},
      fieldsToJson? levels fields = some js → ofFields js = fields
  | [], js, h => by
    simp only [fieldsToJson?, Option.some.injEq] at h
    subst h
    rfl
  | (.text name, d) :: fields, js, h => by
    simp only [fieldsToJson?, Option.bind_eq_bind, Option.bind_eq_some_iff, Option.pure_def,
      Option.some.injEq] at h
    obtain ⟨j, hj, js, hjs, rfl⟩ := h
    simp [ofFields, ofJson_of_toJson? hj, ofFields_of_toJson? hjs]
  | (.null, _) :: _, _, h | (.bool _, _) :: _, _, h | (.int _, _) :: _, _, h
  | (.real _, _) :: _, _, h | (.flawed, _) :: _, _, h | (.array _ _, _) :: _, _, h
  | (.object _ _, _) :: _, _, h | (.broken, _) :: _, _, h => by simp [fieldsToJson?] at h

end

end Draft
end SliceDispatch.Json
