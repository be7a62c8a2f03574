import SliceDispatch.Decimal

namespace SliceDispatch

inductive Scalar where
  | null
  | bool (value : Bool)
  | int (value : Int64)
  | double (value : Binary64)
  | text (value : String)
  /-- Days since 1 January 1970. -/
  | date (days : Int32)
deriving DecidableEq, Inhabited

namespace Scalar

/-- Equality of values of one kind; NULL equals NULL here. -/
def same : Scalar → Scalar → Bool
  | .null, .null => true
  | .bool a, .bool b => a == b
  | .int a, .int b => a == b
  | .double a, .double b => a == b
  | .text a, .text b => a == b
  | .date a, .date b => a == b
  | _, _ => false

instance : BEq Scalar := ⟨same⟩

def canonical : Scalar → Scalar
  | .double value => .double value.canonical
  | value => value

theorem same_iff_canonical_eq {a b : Scalar} : a.same b ↔ a.canonical = b.canonical := by
  cases a <;> cases b <;>
    first
    | (simp only [same, canonical, Scalar.double.injEq]; exact Binary64.same_iff_canonical_eq)
    | simp [same, canonical]

theorem same_symm {a b : Scalar} (h : a.same b = true) : b.same a = true :=
  same_iff_canonical_eq.2 (same_iff_canonical_eq.1 h).symm

theorem same_trans {a b c : Scalar} (h : a.same b = true) (k : b.same c = true) :
    a.same c = true :=
  same_iff_canonical_eq.2 ((same_iff_canonical_eq.1 h).trans (same_iff_canonical_eq.1 k))

theorem eq_null_of_same {a : Scalar} (h : a.same .null = true) : a = .null := by
  cases a with
  | null => rfl
  | _ => cases h

def render : Scalar → String
  | .null => "NULL"
  | .bool value => if value then "true" else "false"
  | .int value => toString value.toInt
  | .double value => value.render
  | .text value => "'" ++ value ++ "'"
  | .date days => "date(" ++ toString days.toInt ++ ")"

end Scalar
end SliceDispatch
