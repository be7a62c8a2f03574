import SliceDispatch.Expr.Canonical
import Std.Data.HashSet

namespace SliceDispatch

inductive HashItem where
  | tag (number : Nat)
  | word (value : UInt64)
  | text (value : String)
deriving DecidableEq, Hashable

def Scalar.hashItems : Scalar → List HashItem
  | .null => [.tag 0]
  | .bool value => [.tag 1, .tag value.toNat]
  | .int value => [.tag 2, .word value.toUInt64]
  | .double value => [.tag 3, .word value.canonical.bits]
  | .text value => [.tag 4, .text value]
  | .date days => [.tag 5, .word days.toUInt32.toUInt64]

theorem Scalar.hashItems_canonical (a : Scalar) : a.canonical.hashItems = a.hashItems := by
  cases a <;> simp [canonical, hashItems, Binary64.canonical_canonical]

def Column.hashItems (c : Column) : List HashItem :=
  (match c.qualifier with
    | some q => [.tag 1, .text q]
    | none => [.tag 0]) ++ [.text c.name, .word c.ordinal.toUInt64]

namespace Expr

mutual

def hashItems : Expr → List HashItem
  | .column c => .tag 0 :: c.hashItems
  | .literal value => .tag 1 :: value.hashItems
  | .param number => [.tag 2, .word number.toUInt64]
  | .binary op left right => .tag 3 :: .tag op.ctorIdx :: (left.hashItems ++ right.hashItems)
  | .unary op operand => .tag 4 :: .tag op.ctorIdx :: operand.hashItems
  | .call function args => .tag 5 :: .text function :: .tag args.length :: hashItemsAll args
  | .inList expr items negated =>
    .tag 6 :: (expr.hashItems ++ .tag items.length :: (hashItemsAll items ++ [.tag negated.toNat]))
  | .and members => .tag 7 :: .tag members.length :: hashItemsAll members
  | .or members => .tag 8 :: .tag members.length :: hashItemsAll members
  | .subPlan node => [.tag 9, .word node.index.toUInt64]

def hashItemsAll : List Expr → List HashItem
  | [] => []
  | e :: es => e.hashItems ++ hashItemsAll es

end

theorem length_canonicalAll : ∀ es : List Expr, (canonicalAll es).length = es.length
  | [] => rfl
  | _ :: es => by simp [canonicalAll, length_canonicalAll es]

mutual

theorem hashItems_canonical : ∀ e : Expr, e.canonical.hashItems = e.hashItems
  | .column _ | .param _ | .subPlan _ => rfl
  | .literal a => by simp [canonical, hashItems, Scalar.hashItems_canonical]
  | .binary _ a b => by
    simp [canonical, hashItems, hashItems_canonical a, hashItems_canonical b]
  | .unary _ a => by simp [canonical, hashItems, hashItems_canonical a]
  | .inList a bs _ => by
    simp [canonical, hashItems, hashItems_canonical a, hashItemsAll_canonicalAll bs,
      length_canonicalAll]
  | .call _ as | .and as | .or as => by
    simp [canonical, hashItems, hashItemsAll_canonicalAll as, length_canonicalAll]

theorem hashItemsAll_canonicalAll : ∀ es : List Expr,
    hashItemsAll (canonicalAll es) = hashItemsAll es
  | [] => rfl
  | e :: es => by
    simp [canonicalAll, hashItemsAll, hashItems_canonical e, hashItemsAll_canonicalAll es]

end

instance : Hashable Expr := ⟨fun e => hash e.hashItems⟩

theorem hashItems_eq_of_beq {a b : Expr} (h : (a == b) = true) : a.hashItems = b.hashItems := by
  have hcanonical : a.canonical = b.canonical := same_iff_canonical_eq.1 h
  rw [← hashItems_canonical a, ← hashItems_canonical b, hcanonical]

instance : LawfulHashable Expr where
  hash_eq a b h := by
    change hash a.hashItems = hash b.hashItems
    rw [hashItems_eq_of_beq h]

/-- Which expressions are new when all are put into a set in order. -/
def freshFrom (seen : Std.HashSet Expr) : List Expr → List Bool
  | [] => []
  | e :: es =>
    let (known, seen) := seen.containsThenInsert e
    (!known) :: freshFrom seen es

def fresh (es : List Expr) : List Bool := freshFrom ∅ es

def firstOccurrences (es : List Expr) : List Nat := es.map es.idxOf

end Expr
end SliceDispatch
