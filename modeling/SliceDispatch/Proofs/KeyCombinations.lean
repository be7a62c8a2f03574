import SliceDispatch.ScanDecision
import Mathlib.Algebra.BigOperators.Group.List.Basic
import Mathlib.Data.List.Forall2

namespace SliceDispatch.ScanDecision

theorem mapM_eq_some_iff {α β : Type} {f : α → Option β} {as : List α} {bs : List β} :
    as.mapM f = some bs ↔ List.Forall₂ (fun a b => f a = some b) as bs := by
  induction as generalizing bs with
  | nil =>
    cases bs <;> simp
  | cons a as ih =>
    rw [List.mapM_cons]
    simp only [Option.bind_eq_bind, Option.bind_eq_some_iff, Option.pure_def, Option.some.injEq]
    constructor
    · rintro ⟨b, hb, bs', hbs, rfl⟩
      exact .cons hb (ih.1 hbs)
    · rintro (_ | ⟨hb, hbs⟩)
      exact ⟨_, hb, _, ih.2 hbs, rfl⟩

theorem exists_mem_of_mapM_eq_some {α β : Type} {f : α → Option β} {as : List α} {bs : List β}
    (h : as.mapM f = some bs) {a : α} (ha : a ∈ as) : ∃ b ∈ bs, f a = some b := by
  rw [mapM_eq_some_iff] at h
  induction h with
  | nil => cases ha
  | @cons a' b as bs hb _ ih =>
    rcases List.mem_cons.1 ha with rfl | ha
    · exact ⟨b, List.mem_cons_self, hb⟩
    · obtain ⟨b, hmem, hb⟩ := ih ha
      exact ⟨b, List.mem_cons_of_mem _ hmem, hb⟩

theorem forall_mem_of_mapM_eq_some {α β : Type} {f : α → Option β} {as : List α} {bs : List β}
    {P : β → Prop} (h : as.mapM f = some bs) (hf : ∀ a b, f a = some b → P b) : ∀ b ∈ bs, P b := by
  rw [mapM_eq_some_iff] at h
  induction h with
  | nil => exact List.forall_mem_nil P
  | cons hb _ ih => exact List.forall_mem_cons.2 ⟨hf _ _ hb, ih⟩

theorem literal?_eq_some_iff {e : Expr} {v : Scalar} : literal? e = some v ↔ e = .literal v := by
  cases e <;> simp [literal?]

theorem mapM_literal?_eq_some_iff {es : List Expr} {vs : List Scalar} :
    es.mapM literal? = some vs ↔ es = vs.map .literal := by
  rw [mapM_eq_some_iff]
  simp only [literal?_eq_some_iff]
  rw [← List.forall₂_eq_eq_eq, List.forall₂_map_right_iff]

theorem mapM_mapM_literal?_eq_some_iff {lists : List (List Expr)} {values : List (List Scalar)} :
    lists.mapM (·.mapM literal?) = some values ↔ lists = values.map (·.map .literal) := by
  rw [mapM_eq_some_iff]
  simp only [mapM_literal?_eq_some_iff]
  exact List.forall₂_map_right_iff.symm.trans (by rw [List.forall₂_eq_eq_eq])

theorem keyCandidates?_eq_some_iff {qualifier : String} {p : Expr} {keys : List KeyColumn}
    {lists : List (List Expr)} : keyCandidates? qualifier p keys = some lists ↔
      List.Forall₂ (fun key list =>
        Candidates.ofPredicate (keyColumn qualifier key) key.family p = .among list)
        keys lists := by
  induction keys generalizing lists with
  | nil => simp [keyCandidates?, eq_comm]
  | cons key keys ih =>
    rw [keyCandidates?]
    cases hc : Candidates.ofPredicate (keyColumn qualifier key) key.family p with
    | unconstrained =>
      simp only [reduceCtorEq, false_iff]
      rintro (_ | ⟨h, -⟩)
      cases hc.symm.trans h
    | among list =>
      simp only [Option.map_eq_some_iff, ih]
      constructor
      · rintro ⟨lists, h, rfl⟩
        exact .cons hc h
      · rintro (_ | ⟨h, hs⟩)
        cases hc.symm.trans h
        exact ⟨_, hs, rfl⟩

theorem boundedProduct_min (a b : Nat) :
    boundedProduct (min a maxCount) b = min (a * b) maxCount := by
  unfold boundedProduct
  by_cases ha : a ≤ maxCount
  · rw [Nat.min_eq_left ha]
  · -- a product that was cut off stays so, unless the next factor is zero
    rcases Nat.eq_zero_or_pos b with rfl | hb
    · simp
    · have hle : maxCount ≤ a * b :=
        Nat.le_trans (Nat.le_of_not_le ha) (Nat.le_mul_of_pos_right a hb)
      have hmax : maxCount ≤ maxCount * b := Nat.le_mul_of_pos_right maxCount hb
      rw [Nat.min_eq_right (Nat.le_of_not_le ha), Nat.min_eq_right hle, Nat.min_eq_right hmax]

/-- The number of combinations is the product of the lengths as far as it can be counted. -/
theorem combinations_eq_min {α : Type} (lists : List (List α)) :
    combinations lists = min (lists.map List.length).prod maxCount := by
  have hfold : ∀ a, lists.foldl (fun n list => boundedProduct n list.length) (min a maxCount) =
      min (a * (lists.map List.length).prod) maxCount := by
    induction lists with
    | nil => simp
    | cons list lists ih =>
      intro a
      rw [List.foldl_cons, boundedProduct_min, ih, List.map_cons, List.prod_cons, Nat.mul_assoc]
  have h := hfold 1
  rwa [Nat.one_mul, Nat.min_eq_left (by decide)] at h

theorem combinations_eq_zero_iff {α : Type} {lists : List (List α)} :
    combinations lists = 0 ↔ [] ∈ lists := by
  have hmax : 0 < maxCount := by decide
  have hprod : combinations lists = 0 ↔ (lists.map List.length).prod = 0 := by
    rw [combinations_eq_min]
    omega
  rw [hprod, List.prod_eq_zero_iff_exists_zero_nat]
  simp

theorem combinations_ne_zero {α : Type} {lists : List (List α)} (h : [] ∉ lists) :
    combinations lists ≠ 0 :=
  mt combinations_eq_zero_iff.1 h

-- sixty-four lists of two reach the largest count, and an empty list still leaves no combination
example : combinations (List.replicate 64 [1, 2]) = maxCount ∧
    combinations (List.replicate 64 [1, 2] ++ [[]]) = 0 := by decide +kernel

theorem combinations_map_map {α β : Type} (f : α → β) (lists : List (List α)) :
    combinations (lists.map (·.map f)) = combinations lists := by
  simp [combinations_eq_min, Function.comp_def]

/-- The number of a choice of one value of each list. -/
theorem exists_tuple_eq {vs : List Scalar} {lists : List (List Scalar)}
    (h : List.Forall₂ (· ∈ ·) vs lists) :
    ∃ number < (lists.map List.length).prod, tuple number lists = vs := by
  induction h with
  | nil => exact ⟨0, by simp, rfl⟩
  | @cons v list vs lists hv _ ih =>
    obtain ⟨number, hlt, rfl⟩ := ih
    obtain ⟨i, hi, rfl⟩ := List.mem_iff_getElem.1 hv
    -- the place in the first list is the lowest digit
    refine ⟨i + list.length * number, ?_, ?_⟩
    · calc i + list.length * number < list.length + list.length * number := by omega
        _ = list.length * (number + 1) := by rw [Nat.mul_succ, Nat.add_comm]
        _ ≤ list.length * (lists.map List.length).prod := Nat.mul_le_mul_left _ hlt
        _ = _ := by rw [List.map_cons, List.prod_cons]
    · have hmod : (i + list.length * number) % list.length = i := by
        rw [Nat.add_mul_mod_self_left, Nat.mod_eq_of_lt hi]
      have hdiv : (i + list.length * number) / list.length = number := by
        rw [Nat.add_mul_div_left _ _ (by omega), Nat.div_eq_of_lt hi, Nat.zero_add]
      rw [tuple, hmod, hdiv]
      simp [hi]

theorem forall₂_mem_tuple {number : Nat} {lists : List (List Scalar)}
    (h : number < (lists.map List.length).prod) :
    List.Forall₂ (· ∈ ·) (tuple number lists) lists := by
  induction lists generalizing number with
  | nil => exact .nil
  | cons list lists ih =>
    rw [List.map_cons, List.prod_cons] at h
    have hpos : 0 < list.length := by
      by_contra hz
      simp [Nat.eq_zero_of_not_pos hz] at h
    have hlt : number % list.length < list.length := Nat.mod_lt _ hpos
    rw [tuple]
    refine .cons ?_ (ih ((Nat.div_lt_iff_lt_mul hpos).2 (by rwa [Nat.mul_comm])))
    simp [List.getD_eq_getElem?_getD, hlt]

/-- Fewer combinations than any cap are fewer than can be counted. -/
theorem combinations_lt_maxCount {α : Type} {lists : List (List α)} {a b : Nat}
    (h : ¬boundedProduct a b ≤ combinations lists) : combinations lists < maxCount :=
  Nat.lt_of_lt_of_le (Nat.lt_of_not_le h) (Nat.min_le_right _ _)

theorem combinations_eq_prod {α : Type} {lists : List (List α)}
    (h : combinations lists < maxCount) : combinations lists = (lists.map List.length).prod := by
  rw [combinations_eq_min] at h ⊢
  omega

/-- The tuples are the choices of one value of each list, as long as they can be counted. -/
theorem mem_tuples_iff {vs : List Scalar} {lists : List (List Scalar)}
    (h : combinations lists < maxCount) : vs ∈ tuples lists ↔ List.Forall₂ (· ∈ ·) vs lists := by
  simp only [tuples, List.mem_map, List.mem_range, combinations_eq_prod h]
  constructor
  · rintro ⟨number, hlt, rfl⟩
    exact forall₂_mem_tuple hlt
  · exact exists_tuple_eq

end SliceDispatch.ScanDecision
