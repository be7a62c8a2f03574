import SliceDispatch.Proofs.AlikeCandidates

namespace SliceDispatch

inductive Connective where
  | and | or

namespace Connective

def apply : Connective → List Expr → Expr
  | .and => .and
  | .or => .or

def combine : Connective → Knowledge → Knowledge → Knowledge
  | .and => .meet
  | .or => .join

/-- What a connective without members says. -/
def unit : Connective → Knowledge
  | .and => .anything
  | .or => .constants ∅

variable (c : Connective)

instance : Std.Commutative c.combine :=
  match c with
  | .and => inferInstanceAs (Std.Commutative Knowledge.meet)
  | .or => inferInstanceAs (Std.Commutative Knowledge.join)

instance : Std.Associative c.combine :=
  match c with
  | .and => inferInstanceAs (Std.Associative Knowledge.meet)
  | .or => inferInstanceAs (Std.Associative Knowledge.join)

instance : Std.IdempotentOp c.combine :=
  match c with
  | .and => inferInstanceAs (Std.IdempotentOp Knowledge.meet)
  | .or => inferInstanceAs (Std.IdempotentOp Knowledge.join)

theorem unit_combine (k : Knowledge) : c.combine c.unit k = k := by
  cases c with
  | and => exact Knowledge.anything_meet k
  | or => exact Knowledge.nothing_join k

theorem foldl_combine (k : Knowledge) (ks : List Knowledge) :
    ks.foldl c.combine k = c.combine k (ks.foldl c.combine c.unit) := by
  have hassoc := @List.foldl_assoc _ c.combine _ ks k c.unit
  have hcomm := (inferInstance : Std.Commutative c.combine).comm k c.unit
  rw [← hassoc, hcomm, unit_combine]

theorem told_apply (column : Column) (family : HashFamily) (members : List Expr) :
    Candidates.told column family (c.apply members) =
      (members.map (Candidates.told column family)).foldl c.combine c.unit := by
  cases c with
  | and => exact Candidates.told_and members
  | or => exact Candidates.told_or members

end Connective

namespace Expr

/-- Ways to write a predicate differently, anywhere below its connectives. -/
inductive Reshapes : Expr → Expr → Prop
  | refl (p : Expr) : Reshapes p p
  | symm {p q : Expr} : Reshapes p q → Reshapes q p
  | trans {p q r : Expr} : Reshapes p q → Reshapes q r → Reshapes p r
  | member (c : Connective) (before after : List Expr) {p q : Expr} : Reshapes p q →
      Reshapes (c.apply (before ++ p :: after)) (c.apply (before ++ q :: after))
  /-- Members change their order or are repeated. -/
  | members (c : Connective) {ps qs : List Expr} : (∀ p, p ∈ ps ↔ p ∈ qs) →
      Reshapes (c.apply ps) (c.apply qs)
  | regroup (c : Connective) (before inner after : List Expr) :
      Reshapes (c.apply (before ++ c.apply inner :: after)) (c.apply (before ++ inner ++ after))
  | single (c : Connective) (p : Expr) : Reshapes (c.apply [p]) p
  | sides (left right : Expr) : Reshapes (equals left right) (equals right left)
  | items (expr : Expr) {as bs : List Expr} (negated : Bool) : (∀ a, a ∈ as ↔ a ∈ bs) →
      Reshapes (.inList expr as negated) (.inList expr bs negated)
  | spellOut (column : Column) {items : List Expr} : items ≠ [] →
      Reshapes (oneOf (.column column) items) (.or (items.map (equals (.column column))))

end Expr

namespace Candidates

variable {column : Column} {family : HashFamily}

theorem ofEquality_of_refersTo {e : Expr} (h : refersTo column e = true) :
    ofEquality family e = .unconstrained := by
  cases e with
  | column c => rfl
  | _ => cases h

theorem told_equals_comm (left right : Expr) :
    told column family (.equals left right) = told column family (.equals right left) := by
  simp only [told, Expr.equals, ofPredicate]
  cases hl : refersTo column left with
  | false => cases hr : refersTo column right <;> rfl
  | true =>
    cases hr : refersTo column right with
    | false => rfl
    | true => simp only [ofEquality_of_refersTo hl, ofEquality_of_refersTo hr]

theorem told_inList_of_mem_iff (expr : Expr) {as bs : List Expr} (negated : Bool)
    (h : ∀ a, a ∈ as ↔ a ∈ bs) :
    told column family (.inList expr as negated) =
      told column family (.inList expr bs negated) := by
  cases negated with
  | true => rfl
  | false =>
    cases he : refersTo column expr with
    | false => simp only [told, ofPredicate, he]; rfl
    | true =>
      change told column family (.oneOf expr as) = told column family (.oneOf expr bs)
      rw [told_oneOf as he, told_oneOf bs he]
      apply Knowledge.foldl_eq_of_mem_iff
      intro k
      simp only [List.mem_map, h]

theorem told_columnEquals {c : Column} (h : refersTo column (.column c) = true) (e : Expr) :
    told column family (.equals (.column c) e) = (ofEquality family e).knowledge := by
  rw [told, Expr.equals, ofPredicate, if_pos h]

theorem told_oneOf_column (c : Column) {items : List Expr} (h : items ≠ []) :
    told column family (.oneOf (.column c) items) =
      told column family (.or (items.map (Expr.equals (.column c)))) := by
  cases hc : refersTo column (.column c) with
  | true =>
    rw [told_oneOf items hc, told_or, List.map_map]
    simp only [Function.comp_def, told_columnEquals hc]
  | false =>
    have hlist : told column family (.oneOf (.column c) items) = .anything := by
      simp only [told, Expr.oneOf, ofPredicate, hc]
      rfl
    have hitem : ∀ item, told column family (.equals (.column c) item) = .anything := by
      intro item
      simp only [told, Expr.equals, ofPredicate, hc]
      cases refersTo column item <;> rfl
    -- one disjunct that says nothing makes the disjunction say nothing
    obtain ⟨item, rest, rfl⟩ := List.exists_cons_of_ne_nil h
    rw [hlist, told_or, List.map_cons, List.map_cons, List.foldl_cons, hitem,
      Knowledge.join_anything]
    exact (Connective.foldl_combine .or .anything _).symm

/-- However a predicate is reshaped, it says the same about every column. -/
theorem told_eq_of_reshapes {p q : Expr} (h : p.Reshapes q) :
    told column family p = told column family q := by
  induction h with
  | refl => rfl
  | symm _ ih => exact ih.symm
  | trans _ _ ih ih' => exact ih.trans ih'
  | member c before after _ ih =>
    simp only [Connective.told_apply, List.map_append, List.map_cons, ih]
  | members c hmem =>
    rw [Connective.told_apply, Connective.told_apply]
    apply Knowledge.foldl_eq_of_mem_iff
    intro k
    simp only [List.mem_map, hmem]
  | regroup c before inner after =>
    simp only [Connective.told_apply, List.map_append, List.map_cons, List.foldl_append,
      List.foldl_cons]
    rw [← Connective.foldl_combine]
  | single c p => rw [Connective.told_apply]; exact c.unit_combine _
  | sides left right => exact told_equals_comm left right
  | items expr negated hmem => exact told_inList_of_mem_iff expr negated hmem
  | spellOut c hne => exact told_oneOf_column c hne

end Candidates

namespace ScanDecision

/-- The decision of a scan is the same however its predicate is reshaped. -/
theorem ofEntry_eq_of_reshapes {p q : Expr} (h : p.Reshapes q) (catalog : Catalog)
    (factor : UInt64) (entry : RangeEntry) :
    ofEntry catalog factor entry (some p) = ofEntry catalog factor entry (some q) :=
  ofEntry_eq_of_told_eq (fun _ _ => Candidates.told_eq_of_reshapes h) catalog factor entry

def readings : Catalog :=
  (StoredCatalog.empty 4).add ⟨"public", "readings"⟩ (.hashed [⟨⟨none, "value", 0⟩, .float⟩] 4)

def value : Expr := .column ⟨none, "value", 0⟩

/-- `(value IN (0.0, -0.0) AND value = $1) AND $2` -/
def zeroReadings : Expr :=
  .and [.and [.oneOf value [.literal (.double .zero), .literal (.double .negZero)],
    .equals value (.param 1)], .param 2]

/-- `$2 AND $1 = value AND (value = -0.0 OR value = 0.0 OR value = -0.0)` -/
def zeroReadingsReshaped : Expr :=
  .and [.param 2, .equals (.param 1) value,
    .or [.equals value (.literal (.double .negZero)), .equals value (.literal (.double .zero)),
      .equals value (.literal (.double .negZero))]]

theorem zeroReadings_reshapes : zeroReadings.Reshapes zeroReadingsReshaped := by
  let zeros : List Expr := [.literal (.double .zero), .literal (.double .negZero)]
  let isZero := Expr.equals value (.literal (.double .zero))
  let isNegZero := Expr.equals value (.literal (.double .negZero))
  have hlist : (Expr.oneOf value zeros).Reshapes (.or [isNegZero, isZero, isNegZero]) :=
    (Expr.Reshapes.spellOut _ (by simp [zeros])).trans
      (.members .or (by simp [zeros, isZero, isNegZero, value]))
  have hgroup :=
    Expr.Reshapes.regroup .and [] [.oneOf value zeros, .equals value (.param 1)] [.param 2]
  have hspelt := Expr.Reshapes.member .and [] [.equals value (.param 1), .param 2] hlist
  have hsides := Expr.Reshapes.member .and [.or [isNegZero, isZero, isNegZero]] [.param 2]
    (.sides value (.param 1))
  refine hgroup.trans (hspelt.trans (hsides.trans (.members .and fun e => ?_)))
  simp only [List.cons_append, List.nil_append, List.mem_cons, List.not_mem_nil, or_false]
  tauto

theorem ofEntry_zeroReadingsReshaped :
    let entry : RangeEntry := .relation ⟨"public", "readings"⟩ "r"
    zeroReadings.Reshapes zeroReadingsReshaped ∧
      ofEntry readings 3 entry (some zeroReadings) =
        ofEntry readings 3 entry (some zeroReadingsReshaped) ∧
      ofEntry readings 3 entry (some zeroReadings) = .exactly [1] :=
  ⟨zeroReadings_reshapes, ofEntry_eq_of_reshapes zeroReadings_reshapes _ _ _, by decide +kernel⟩

end ScanDecision
end SliceDispatch
