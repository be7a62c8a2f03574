import SliceDispatch.Candidates
import SliceDispatch.Proofs.Evaluation

namespace SliceDispatch

/-- A candidate stands for a value: a literal for itself, a parameter for what it is bound to. -/
inductive Evaluation.Stands (ev : Evaluation) (v : Scalar) : Expr → Prop
  | literal {w} : w.same v = true → Stands ev v (.literal w)
  | param {number} : (ev.value (.param number)).same v = true → Stands ev v (.param number)

namespace Evaluation.Stands

variable {ev : Evaluation} {v : Scalar} {a b : Expr}

theorem congr (h : ev.Stands v a) (hab : (a == b) = true) : ev.Stands v b := by
  change a.same b = true at hab
  cases h with
  | @literal w h =>
    cases b with
    | literal u => exact .literal (Scalar.same_trans (Scalar.same_symm hab) h)
    | _ => cases hab
  | @param number h =>
    cases b with
    | param m =>
      obtain rfl : number = m := by simpa [Expr.same] using hab
      exact .param h
    | _ => cases hab

theorem beq (ha : ev.Stands v a) (hb : ev.Stands v b) (hca : a.isConstant = true)
    (hcb : b.isConstant = true) : (a == b) = true := by
  cases ha with
  | literal ha =>
    cases hb with
    | literal hb => exact Scalar.same_trans ha (Scalar.same_symm hb)
    | param => cases hcb
  | param => cases hca

end Evaluation.Stands

namespace Candidates

def Admits (ev : Evaluation) (v : Scalar) : Candidates → Prop
  | .unconstrained => True
  | .among values => ∃ e ∈ values, ev.Stands v e

variable {ev : Evaluation} {v : Scalar} {column : Column} {family : HashFamily}

theorem admits_meet {a b : Candidates} (ha : a.Admits ev v) (hb : b.Admits ev v) :
    (a.meet b).Admits ev v := by
  cases a with
  | unconstrained => exact hb
  | among as =>
    cases b with
    | unconstrained => exact ha
    | among bs =>
      simp only [meet]
      split
      · exact ha
      split
      · exact hb
      -- of two constant sides the candidates that stand for `v` are equal
      rename_i hbs has
      obtain ⟨a, hmem, hav⟩ := ha
      obtain ⟨b, hb, hbv⟩ := hb
      have hab : (a == b) = true := by
        apply hav.beq hbv
        · simpa using List.all_eq_true.1 (by simpa using has) a hmem
        · simpa using List.all_eq_true.1 (by simpa using hbs) b hb
      exact ⟨a, List.mem_filter.2 ⟨hmem, List.contains_iff_exists_mem_beq.2 ⟨b, hb, hab⟩⟩, hav⟩

theorem admits_addNew {values : List Expr} {e : Expr}
    (h : (∃ c ∈ values, ev.Stands v c) ∨ ev.Stands v e) : ∃ c ∈ addNew values e, ev.Stands v c := by
  unfold addNew
  split
  · rename_i hmem
    rcases h with h | h
    · exact h
    · obtain ⟨c, hc, hec⟩ := List.contains_iff_exists_mem_beq.1 hmem
      exact ⟨c, hc, h.congr hec⟩
  · rcases h with ⟨c, hc, h⟩ | h
    · exact ⟨c, List.mem_append_left _ hc, h⟩
    · exact ⟨e, by simp, h⟩

/-- What a fold has at the start, or takes up from some element, it keeps to the end. -/
theorem holds_foldl {α β : Type} {P : β → Prop} {Q : α → Prop} {f : β → α → β}
    (step : ∀ {b a}, P b ∨ Q a → P (f b a)) {as : List α} {b : β} (h : P b ∨ ∃ a ∈ as, Q a) :
    P (as.foldl f b) := by
  induction as generalizing b with
  | nil => simpa using h
  | cons a as ih =>
    apply ih
    simp only [List.mem_cons, exists_eq_or_imp] at h
    rcases h with h | h | h
    · exact .inl (step (.inl h))
    · exact .inl (step (.inr h))
    · exact .inr h

theorem admits_join {a b : Candidates} (h : a.Admits ev v ∨ b.Admits ev v) :
    (a.join b).Admits ev v := by
  cases a with
  | unconstrained => trivial
  | among as =>
    cases b with
    | unconstrained => trivial
    | among bs => exact holds_foldl (P := fun es => ∃ e ∈ es, ev.Stands v e) admits_addNew h

theorem admits_ofEquality {e : Expr} (hv : v ≠ .null) (h : (ev.value e).same v = true) :
    (ofEquality family e).Admits ev v := by
  unfold ofEquality
  split
  · rw [ev.literal] at h
    exact absurd (Scalar.eq_null_of_same (Scalar.same_symm h)) hv
  · split
    · rw [ev.literal] at h
      exact ⟨_, List.mem_singleton_self _, .literal h⟩
    · trivial
  · exact ⟨_, List.mem_singleton_self _, .param h⟩
  · trivial

theorem value_of_refersTo {e : Expr} (hd : ev.Denotes column v) (h : refersTo column e = true) :
    ev.value e = v := by
  cases e with
  | column c => exact hd c h
  | _ => cases h

mutual

/-- What a predicate leaves as candidates of a column admits its value wherever the predicate is
true. -/
theorem admits_ofPredicate (hd : ev.Denotes column v) :
    ∀ {p : Expr}, ev.Holds p → (ofPredicate column family p).Admits ev v
  | .and members, h => by
    rw [ofPredicate]
    exact admits_meetAll hd trivial (ev.of_and h)
  | .or members, h => by
    rw [ofPredicate]
    exact admits_joinAll hd (.inr (ev.of_or h))
  | .binary .eq left right, h => by
    obtain ⟨hnull, hsame⟩ := ev.of_equals h
    rw [ofPredicate]
    split
    · rename_i hl
      rw [value_of_refersTo hd hl] at hnull hsame
      exact admits_ofEquality hnull (Scalar.same_symm hsame)
    split
    · rename_i hr
      rw [value_of_refersTo hd hr] at hsame
      have hv : v ≠ .null := by
        rintro rfl
        exact hnull (Scalar.eq_null_of_same hsame)
      exact admits_ofEquality hv hsame
    · trivial
  | .inList expr items false, h => by
    obtain ⟨hnull, item, hitem, hsame⟩ := ev.of_oneOf h
    rw [ofPredicate]
    split
    · rename_i he
      rw [value_of_refersTo hd he] at hnull hsame
      have hitem' := @admits_ofEquality ev v family item hnull (Scalar.same_symm hsame)
      exact holds_foldl admits_join (.inr ⟨item, hitem, hitem'⟩)
    · trivial
  | .unary .isNull operand, h => by
    rw [ofPredicate]
    split
    · rename_i ho
      rw [← value_of_refersTo hd ho, ev.of_isNull h]
      exact ⟨_, List.mem_singleton_self _, .literal rfl⟩
    · trivial
  | .literal w, h => by
    -- of the literals only TRUE is true
    rw [Evaluation.Holds, ev.literal] at h
    subst h
    trivial
  | .binary .notEq _ _, _ | .binary .lt _ _, _ | .binary .ltEq _ _, _ | .binary .gt _ _, _
  | .binary .gtEq _ _, _ | .binary .add _ _, _ | .binary .sub _ _, _ | .binary .mul _ _, _
  | .binary .div _ _, _ | .unary .not _, _ | .unary .neg _, _ | .unary .isNotNull _, _
  | .inList _ _ true, _ | .column _, _ | .param _, _ | .subPlan _, _ | .call _ _, _ => trivial

theorem admits_meetAll (hd : ev.Denotes column v) : ∀ {es : List Expr} {acc : Candidates},
    acc.Admits ev v → (∀ e ∈ es, ev.Holds e) → (meetAll column family acc es).Admits ev v
  | [], _, hacc, _ => hacc
  | e :: es, acc, hacc, h => by
    obtain ⟨he, hes⟩ := List.forall_mem_cons.1 h
    cases e with
    | and inner =>
      rw [meetAll]
      exact admits_meetAll hd (admits_meetAll hd hacc (ev.of_and he)) hes
    | _ =>
      simp only [meetAll]
      exact admits_meetAll hd (admits_meet hacc (admits_ofPredicate hd he)) hes

theorem admits_joinAll (hd : ev.Denotes column v) : ∀ {es : List Expr} {acc : Candidates},
    (acc.Admits ev v ∨ ∃ e ∈ es, ev.Holds e) → (joinAll column family acc es).Admits ev v
  | [], _, h => by
    rw [joinAll]
    simpa using h
  | e :: es, acc, h => by
    rw [joinAll]
    apply admits_joinAll hd
    simp only [List.mem_cons, exists_eq_or_imp] at h
    rcases h with h | h | h
    · exact .inl (admits_join (.inl h))
    · exact .inl (admits_join (.inr (admits_ofPredicate hd h)))
    · exact .inr h

end

/-- Whatever makes a predicate true, the value of the column is a candidate: as a literal that
equals it, or as a parameter that is bound to it. -/
theorem ofPredicate_misses_no_value (hd : ev.Denotes column v) {p : Expr} (hp : ev.Holds p)
    (family : HashFamily) : ofPredicate column family p = .unconstrained ∨
      ∃ values, ofPredicate column family p = .among values ∧
        ((∃ w, .literal w ∈ values ∧ w.same v = true) ∨
          ∃ number, .param number ∈ values ∧ (ev.value (.param number)).same v = true) := by
  have hadmits : (ofPredicate column family p).Admits ev v := admits_ofPredicate hd hp
  cases hc : ofPredicate column family p with
  | unconstrained => exact .inl rfl
  | among values =>
    rw [hc] at hadmits
    obtain ⟨e, he, hstands⟩ := hadmits
    refine .inr ⟨values, rfl, ?_⟩
    cases hstands with
    | literal hw => exact .inl ⟨_, he, hw⟩
    | param hbound => exact .inr ⟨_, he, hbound⟩

def signedZeros : Environment := ⟨fun _ => .double .negZero, fun _ => .double .zero, fun _ => .null⟩

/-- `k = $1 AND (t.k = 0.0 OR k IN (NULL, 0.0) OR k IS NULL)` -/
def zeroKey : Expr :=
  .and [.equals (.column ⟨none, "k", 0⟩) (.param 1),
    .or [.equals (.column ⟨some "t", "k", 0⟩) (.literal (.double .zero)),
      .oneOf (.column ⟨none, "k", 0⟩) [.literal .null, .literal (.double .zero)],
      .unary .isNull (.column ⟨none, "k", 0⟩)]]

theorem zeroKey_misses_no_value : signedZeros.evaluation.Holds zeroKey ∧
    ∃ values, ofPredicate ⟨some "t", "k", 0⟩ .float zeroKey = .among values ∧
      ∃ w, .literal w ∈ values ∧ w.same (.double .negZero) = true := by
  have hd : signedZeros.evaluation.Denotes ⟨some "t", "k", 0⟩ (.double .negZero) :=
    fun _ _ => rfl
  have hholds : signedZeros.evaluation.Holds zeroKey := by decide +kernel
  have hvalues : ofPredicate ⟨some "t", "k", 0⟩ .float zeroKey =
      .among [.literal (.double .zero), .literal .null] := rfl
  rcases ofPredicate_misses_no_value hd hholds .float with
    hc | ⟨values, hc, hliteral | ⟨number, hparam, -⟩⟩
  · cases hc
  · exact ⟨hholds, values, hc, hliteral⟩
  · cases hvalues.symm.trans hc
    simp at hparam

end Candidates
end SliceDispatch
