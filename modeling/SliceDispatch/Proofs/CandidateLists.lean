import SliceDispatch.Candidates
import Mathlib.Data.Set.Card

namespace SliceDispatch.Candidates

variable {column : Column} {family : HashFamily} {as bs : List Expr}

/-- The predicate asks whether the column is NULL, under nothing but AND and OR. -/
inductive TestsNull (column : Column) : Expr → Prop
  | isNull {operand : Expr} : refersTo column operand = true →
      TestsNull column (.unary .isNull operand)
  | and {members : List Expr} {e : Expr} : e ∈ members → TestsNull column e →
      TestsNull column (.and members)
  | or {members : List Expr} {e : Expr} : e ∈ members → TestsNull column e →
      TestsNull column (.or members)

/-- A property of answers that single comparisons have, and that meets and joins keep. -/
structure Invariant (family : HashFamily) (Q : Candidates → Prop) : Prop where
  unconstrained : Q .unconstrained
  nothing : Q (.among [])
  ofEquality (e : Expr) : Q (ofEquality family e)
  meet {a b : Candidates} : Q a → Q b → Q (a.meet b)
  join {a b : Candidates} : Q a → Q b → Q (a.join b)

namespace Invariant

variable {Q : Candidates → Prop}

mutual

/-- The answer about a predicate has the property if NULL alone has it, as far as the predicate asks
for NULL. -/
theorem ofPredicate (hQ : Invariant family Q) : ∀ p : Expr,
    (TestsNull column p → Q (.among [.literal .null])) → Q (ofPredicate column family p)
  | .and members, hnull => by
    rw [Candidates.ofPredicate]
    apply hQ.meetAll members hQ.unconstrained
    intro e he htests
    exact hnull (.and he htests)
  | .or members, hnull => by
    rw [Candidates.ofPredicate]
    apply hQ.joinAll members hQ.nothing
    intro e he htests
    exact hnull (.or he htests)
  | .binary .eq left right, _ => by
    rw [Candidates.ofPredicate]
    split
    · exact hQ.ofEquality right
    split
    · exact hQ.ofEquality left
    · exact hQ.unconstrained
  | .inList expr items false, _ => by
    rw [Candidates.ofPredicate]
    split
    · exact List.foldlRecOn items _ hQ.nothing fun _ hacc item _ =>
        hQ.join hacc (hQ.ofEquality item)
    · exact hQ.unconstrained
  | .unary .isNull operand, hnull => by
    rw [Candidates.ofPredicate]
    split
    · rename_i hrefers
      exact hnull (.isNull hrefers)
    · exact hQ.unconstrained
  | .literal .null, _ | .literal (.bool false), _ => hQ.nothing
  | .literal (.bool true), _ | .literal (.int _), _ | .literal (.double _), _
  | .literal (.text _), _ | .literal (.date _), _
  | .binary .notEq _ _, _ | .binary .lt _ _, _ | .binary .ltEq _ _, _ | .binary .gt _ _, _
  | .binary .gtEq _ _, _ | .binary .add _ _, _ | .binary .sub _ _, _ | .binary .mul _ _, _
  | .binary .div _ _, _ | .unary .not _, _ | .unary .neg _, _ | .unary .isNotNull _, _
  | .inList _ _ true, _ | .column _, _ | .param _, _ | .subPlan _, _ | .call _ _, _ =>
    hQ.unconstrained

theorem meetAll (hQ : Invariant family Q) : ∀ (es : List Expr) {acc : Candidates}, Q acc →
    (∀ e ∈ es, TestsNull column e → Q (.among [.literal .null])) →
    Q (meetAll column family acc es)
  | [], _, hacc, _ => hacc
  | e :: es, acc, hacc, hnull => by
    obtain ⟨he, hes⟩ := List.forall_mem_cons.1 hnull
    cases e with
    | and inner =>
      -- the members of an inner conjunction are taken one by one
      rw [Candidates.meetAll]
      apply hQ.meetAll es _ hes
      apply hQ.meetAll inner hacc
      intro e hmem htests
      exact he (.and hmem htests)
    | _ =>
      simp only [Candidates.meetAll]
      exact hQ.meetAll es (hQ.meet hacc (hQ.ofPredicate _ he)) hes

theorem joinAll (hQ : Invariant family Q) : ∀ (es : List Expr) {acc : Candidates}, Q acc →
    (∀ e ∈ es, TestsNull column e → Q (.among [.literal .null])) →
    Q (joinAll column family acc es)
  | [], _, hacc, _ => hacc
  | e :: es, acc, hacc, hnull => by
    obtain ⟨he, hes⟩ := List.forall_mem_cons.1 hnull
    rw [Candidates.joinAll]
    exact hQ.joinAll es (hQ.join hacc (hQ.ofPredicate e he)) hes

end

end Invariant

def Distinct : Candidates → Prop
  | .unconstrained => True
  | .among es => es.Pairwise fun a b => (a == b) = false

theorem distinct_addNew (h : (among as).Distinct) (e : Expr) : (among (addNew as e)).Distinct := by
  unfold addNew
  split
  · exact h
  · rename_i he
    refine List.pairwise_append.2 ⟨h, List.pairwise_singleton _ _, fun a ha b hb => ?_⟩
    obtain rfl := List.mem_singleton.1 hb
    rw [Bool.eq_false_iff]
    exact fun hab => he (List.contains_iff_exists_mem_beq.2 ⟨a, ha, BEq.symm hab⟩)

theorem distinct_join {a : Candidates} (h : a.Distinct) (b : Candidates) : (a.join b).Distinct := by
  cases a with
  | unconstrained => trivial
  | among as =>
    cases b with
    | unconstrained => trivial
    | among bs =>
      change (among (bs.foldl addNew as)).Distinct
      exact List.foldlRecOn (motive := fun es => (among es).Distinct) bs addNew h
        fun _ hacc b _ => distinct_addNew hacc b

theorem distinct_meet {a b : Candidates} (ha : a.Distinct) (hb : b.Distinct) :
    (a.meet b).Distinct := by
  cases a with
  | unconstrained => exact hb
  | among as =>
    cases b with
    | unconstrained => exact ha
    | among bs =>
      simp only [meet]
      split
      · exact ha
      split
      · exact hb
      · exact List.Pairwise.filter _ ha

theorem distinct_ofEquality (e : Expr) : (ofEquality family e).Distinct := by
  unfold ofEquality
  split
  · exact .nil
  · split
    · exact List.pairwise_singleton _ _
    · trivial
  · exact List.pairwise_singleton _ _
  · trivial

theorem invariant_distinct (family : HashFamily) : Invariant family Distinct where
  unconstrained := trivial
  nothing := .nil
  ofEquality := distinct_ofEquality
  meet := distinct_meet
  join := fun ha _ => distinct_join ha _

theorem distinct_ofPredicate (p : Expr) : (ofPredicate column family p).Distinct :=
  (invariant_distinct family).ofPredicate p fun _ => List.pairwise_singleton _ _

def Each (P : Expr → Prop) : Candidates → Prop
  | .unconstrained => True
  | .among es => ∀ e ∈ es, P e

variable {P : Expr → Prop}

theorem each_addNew (h : (among as).Each P) {e : Expr} (he : P e) :
    (among (addNew as e)).Each P := by
  unfold addNew
  split
  · exact h
  · exact List.forall_mem_append.2 ⟨h, List.forall_mem_singleton.2 he⟩

theorem each_join {a b : Candidates} (ha : a.Each P) (hb : b.Each P) : (a.join b).Each P := by
  cases a with
  | unconstrained => trivial
  | among as =>
    cases b with
    | unconstrained => trivial
    | among bs =>
      change (among (bs.foldl addNew as)).Each P
      exact List.foldlRecOn (motive := fun es => (among es).Each P) bs addNew ha
        fun _ hacc b hmem => each_addNew hacc (hb b hmem)

theorem each_meet {a b : Candidates} (ha : a.Each P) (hb : b.Each P) : (a.meet b).Each P := by
  cases a with
  | unconstrained => exact hb
  | among as =>
    cases b with
    | unconstrained => exact ha
    | among bs =>
      simp only [meet]
      split
      · exact ha
      split
      · exact hb
      · intro e he
        exact ha e (List.mem_filter.1 he).1

/-- What can be listed as a candidate: a parameter, or a value that the family can hash, which may
be NULL under a condition. -/
inductive IsCandidate (family : HashFamily) (null : Prop) : Expr → Prop
  | param (number : UInt32) : IsCandidate family null (.param number)
  | literal {v : Scalar} : family.accepts v = true → (v = .null → null) →
      IsCandidate family null (.literal v)

theorem each_ofEquality (null : Prop) (e : Expr) :
    (ofEquality family e).Each (IsCandidate family null) := by
  unfold ofEquality
  split
  · exact List.forall_mem_nil _
  · rename_i v hnull
    split
    · rename_i haccepts
      exact List.forall_mem_singleton.2 (.literal haccepts fun hv => absurd hv hnull)
    · trivial
  · exact List.forall_mem_singleton.2 (.param _)
  · trivial

theorem invariant_each (family : HashFamily) (null : Prop) :
    Invariant family (Each (IsCandidate family null)) where
  unconstrained := trivial
  nothing := List.forall_mem_nil _
  ofEquality := each_ofEquality null
  meet := each_meet
  join := each_join

theorem each_ofPredicate (p : Expr) :
    (ofPredicate column family p).Each (IsCandidate family (TestsNull column p)) := by
  apply (invariant_each family (TestsNull column p)).ofPredicate p
  intro htests
  exact List.forall_mem_singleton.2 (.literal rfl fun _ => htests)

theorem nodup_map_canonical {es : List Expr} (h : (among es).Distinct) :
    (es.map Expr.canonical).Nodup := by
  apply List.pairwise_map.2
  apply List.Pairwise.imp _ h
  intro a b hab heq
  exact Bool.false_ne_true (hab.symm.trans (Expr.same_iff_canonical_eq.2 heq))

theorem encard_of_nodup {α : Type} {l : List α} (h : l.Nodup) : {a | a ∈ l}.encard = l.length := by
  classical
  rw [← List.coe_toFinset, Set.encard_coe_eq_coe_finsetCard, List.toFinset_card_of_nodup h]

/-- As many expressions are listed as there are, equal ones counted once. -/
theorem encard_canonical_image {es : List Expr} (h : (among es).Distinct) :
    (Expr.canonical '' {e | e ∈ es}).encard = es.length := by
  have himage : Expr.canonical '' {e | e ∈ es} = {e | e ∈ es.map Expr.canonical} := by
    ext e
    simp
  rw [himage, encard_of_nodup (nodup_map_canonical h), List.length_map]

/-- A list that is the answer about a column under a predicate. -/
structure WellFormed (column : Column) (family : HashFamily) (p : Expr) (es : List Expr) :
    Prop where
  distinct : es.Pairwise fun a b => (a == b) = false
  /-- The length counts the candidates, equal ones once. -/
  count : (Expr.canonical '' {e | e ∈ es}).encard = es.length
  hashable : ∀ e ∈ es, (∃ number, e = .param number) ∨
    ∃ v, e = .literal v ∧ family.accepts v = true
  null : .literal .null ∈ es → TestsNull column p

theorem wellFormed_of_ofPredicate {p : Expr} {es : List Expr}
    (h : ofPredicate column family p = .among es) : WellFormed column family p es := by
  have hdistinct : (among es).Distinct := by
    rw [← h]
    exact distinct_ofPredicate p
  have heach : (among es).Each (IsCandidate family (TestsNull column p)) := by
    rw [← h]
    exact each_ofPredicate p
  refine ⟨hdistinct, encard_canonical_image hdistinct, ?_, ?_⟩
  · intro e he
    cases heach e he with
    | param number => exact .inl ⟨number, rfl⟩
    | literal haccepts _ => exact .inr ⟨_, rfl, haccepts⟩
  · intro he
    cases heach _ he with
    | literal _ hnull => exact hnull rfl

end SliceDispatch.Candidates
