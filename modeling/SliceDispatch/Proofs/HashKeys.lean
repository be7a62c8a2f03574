import SliceDispatch.Expr.Hash

namespace SliceDispatch.Expr

variable {seen : Std.HashSet Expr} {before : List Expr}

theorem freshFrom_cons (seen : Std.HashSet Expr) (e : Expr) (es : List Expr) :
    freshFrom seen (e :: es) = (!seen.contains e) :: freshFrom (seen.insert e) es := by
  have hstep : seen.containsThenInsert e = (seen.contains e, seen.insert e) :=
    Prod.ext Std.HashSet.containsThenInsert_fst Std.HashSet.containsThenInsert_snd
  rw [freshFrom, hstep]

/-- The set holds what equals one of the listed expressions, and nothing else. -/
def HoldsJust (seen : Std.HashSet Expr) (before : List Expr) : Prop :=
  ∀ a, seen.contains a = before.any (· == a)

theorem HoldsJust.insert (h : HoldsJust seen before) (e : Expr) :
    HoldsJust (seen.insert e) (before ++ [e]) := by
  intro a
  rw [Std.HashSet.contains_insert, h a, List.any_append, List.any_cons, List.any_nil, Bool.or_false,
    Bool.or_comm]

/-- An expression is new unless it equals one before it, in the list or among those that the set
held already. -/
theorem freshFrom_eq_mapIdx (h : HoldsJust seen before) (es : List Expr) :
    freshFrom seen es = es.mapIdx fun i e => !(before ++ es.take i).any (· == e) := by
  induction es generalizing seen before with
  | nil => rfl
  | cons e es ih =>
    rw [freshFrom_cons, h e, ih (h.insert e), List.mapIdx_cons]
    simp

theorem fresh_eq_mapIdx (es : List Expr) :
    fresh es = es.mapIdx fun i e => !(es.take i).any (· == e) := by
  have hempty : HoldsJust ∅ [] := fun _ => Std.HashSet.contains_empty
  exact freshFrom_eq_mapIdx hempty es

/-- Equality of expressions is an equivalence, equal expressions are hashed from the same items, and
a hash set finds an expression of a list to be new exactly if none before it is equal. -/
theorem hashKeys_lawful :
    (∀ a : Expr, (a == a) = true) ∧
    (∀ a b : Expr, (a == b) = true → (b == a) = true) ∧
    (∀ a b c : Expr, (a == b) = true → (b == c) = true → (a == c) = true) ∧
    (∀ a b : Expr, (a == b) = true → a.hashItems = b.hashItems) ∧
    ∀ es : List Expr, fresh es = es.mapIdx fun i e => !(es.take i).any (· == e) :=
  ⟨fun _ => BEq.rfl, fun _ _ => BEq.symm, fun _ _ _ => BEq.trans,
    fun _ _ => hashItems_eq_of_beq, fresh_eq_mapIdx⟩

theorem negatedZeros_hashed :
    let zero := unary .neg (.literal (.double .zero))
    let negZero := unary .neg (.literal (.double .negZero))
    (zero == negZero) = true ∧ zero.hashItems = negZero.hashItems ∧
      fresh [zero, negZero, .literal (.double .quietNaN), .literal (.double ⟨0xfff0000000000001⟩)] =
        [true, false, true, false] := by
  refine ⟨by decide +kernel, hashKeys_lawful.2.2.2.1 _ _ (by decide +kernel), ?_⟩
  rw [hashKeys_lawful.2.2.2.2]
  decide +kernel

end SliceDispatch.Expr
