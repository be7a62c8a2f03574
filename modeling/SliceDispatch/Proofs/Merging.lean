import SliceDispatch.Annotations
import Mathlib.Data.List.Induction
import Mathlib.Data.Set.Defs

namespace SliceDispatch

def Decision.namedSegments (ds : List Decision) : SegmentSet :=
  ds.foldl (fun known d => known ∪ d.segments.getD ∅) ∅

theorem Decision.namedSegments_concat (ds : List Decision) (d : Decision) :
    namedSegments (ds ++ [d]) = namedSegments ds ∪ d.segments.getD ∅ := by
  simp [namedSegments, List.foldl_append]

theorem Decision.mem_namedSegments {ds : List Decision} {i : SegmentId} :
    i ∈ namedSegments ds ↔ ∃ d ∈ ds, ∃ known, d.segments = some known ∧ i ∈ known := by
  induction ds using List.reverseRecOn with
  | nil => simp [namedSegments, Std.ExtTreeSet.not_mem_empty]
  | append_singleton ds d ih =>
    rw [namedSegments_concat, Std.ExtTreeSet.mem_union_iff, ih]
    cases hs : d.segments with
    | none => simp [or_and_right, exists_or, hs, Std.ExtTreeSet.not_mem_empty]
    | some known => simp [or_and_right, exists_or, hs]

theorem Decision.namedSegments_concat_none (ds : List Decision) (direct : Bool) :
    namedSegments (ds ++ [⟨direct, none⟩]) = namedSegments ds := by
  apply Std.ExtTreeSet.ext_mem
  intro i
  rw [namedSegments_concat, Std.ExtTreeSet.mem_union_iff]
  simp [Std.ExtTreeSet.not_mem_empty]

theorem Decision.namedSegments_concat_some {ds : List Decision}
    (h : ds.all (·.segments.isNone) = true) (direct : Bool) (known : SegmentSet) :
    namedSegments (ds ++ [⟨direct, some known⟩]) = known := by
  apply Std.ExtTreeSet.ext_mem
  intro i
  rw [namedSegments_concat, Std.ExtTreeSet.mem_union_iff, mem_namedSegments]
  constructor
  · rintro (⟨d, hd, s, hs, -⟩ | hi)
    · simpa [hs] using List.all_eq_true.1 h d hd
    · exact hi
  · exact .inr

namespace OpenSlice

/-- A slice to which the decisions of a list have contributed. -/
def ofContributions (ds : List Decision) : OpenSlice :=
  if ds.isEmpty then .empty
  else if ds.any Decision.isFull then ⟨.full, true⟩
  else if ds.all (·.segments.isNone) then ⟨.noRows, true⟩
  else ⟨⟨true, some (Decision.namedSegments ds)⟩, true⟩

theorem merge_ofContributions (ds : List Decision) (d : Decision) :
    (ofContributions ds).merge d = ofContributions (ds ++ [d]) := by
  by_cases hd : d.isFull = true
  · simp [merge, ofContributions, hd]
  by_cases hf : ds.any Decision.isFull = true
  · have hne : ds ≠ [] := by
      rintro rfl
      cases hf
    simp [merge, ofContributions, hf, hne, join, Decision.isFull, Decision.full]
  -- from here on neither the slice nor the contribution is full
  obtain ⟨direct, segments⟩ := d
  obtain rfl : direct = true := by simpa [Decision.isFull] using hd
  by_cases hne : ds = []
  · subst hne
    cases segments with
    | none => rfl
    | some known =>
      have := @Decision.namedSegments_concat_some [] rfl true known
      simp_all [merge, ofContributions, Decision.isFull, empty]
  by_cases hn : ds.all (·.segments.isNone) = true
  · cases segments with
    | none => simp [merge, ofContributions, hf, hne, hn, join, Decision.isFull, Decision.noRows]
    | some known =>
      simp [merge, ofContributions, hf, hne, hn, join, Decision.isFull, Decision.noRows,
        Decision.namedSegments_concat_some hn]
  · cases segments with
    | none =>
      simp [merge, ofContributions, hf, hne, hn, join, Decision.isFull,
        Decision.namedSegments_concat_none]
    | some known =>
      simp [merge, ofContributions, hf, hne, hn, join, Decision.isFull,
        Decision.namedSegments_concat]

theorem foldl_merge_empty (ds : List Decision) : ds.foldl merge .empty = ofContributions ds := by
  induction ds using List.reverseRecOn with
  | nil => rfl
  | append_singleton ds d ih =>
    rw [List.foldl_append, ih]
    exact merge_ofContributions ds d

/-- What can have become of an empty slice. -/
theorem foldl_merge_cases (ds : List Decision) :
    ds.foldl merge .empty = .empty ∨ ds.foldl merge .empty = ⟨.full, true⟩ ∨
      ds.foldl merge .empty = ⟨.noRows, true⟩ ∨
        ∃ known, ds.foldl merge .empty = ⟨⟨true, some known⟩, true⟩ := by
  rw [foldl_merge_empty, ofContributions]
  split
  · exact .inl rfl
  split
  · exact .inr (.inl rfl)
  split
  · exact .inr (.inr (.inl rfl))
  · exact .inr (.inr (.inr ⟨_, rfl⟩))

/-- Neither the order of contributions nor their repetition matters. -/
theorem foldl_merge_of_mem_iff {ds es : List Decision} (h : ∀ d, d ∈ ds ↔ d ∈ es) :
    ds.foldl merge .empty = es.foldl merge .empty := by
  have hempty : ds.isEmpty = es.isEmpty := by
    rw [Bool.eq_iff_iff, List.isEmpty_iff, List.isEmpty_iff, List.eq_nil_iff_forall_not_mem,
      List.eq_nil_iff_forall_not_mem]
    simp only [h]
  have hany : ds.any Decision.isFull = es.any Decision.isFull := by
    rw [Bool.eq_iff_iff, List.any_eq_true, List.any_eq_true]
    simp only [h]
  have hall : ds.all (·.segments.isNone) = es.all (·.segments.isNone) := by
    rw [Bool.eq_iff_iff, List.all_eq_true, List.all_eq_true]
    simp only [h]
  have hnamed : Decision.namedSegments ds = Decision.namedSegments es := by
    apply Std.ExtTreeSet.ext_mem
    intro i
    rw [Decision.mem_namedSegments, Decision.mem_namedSegments]
    simp only [h]
  rw [foldl_merge_empty, foldl_merge_empty, ofContributions, ofContributions, hempty, hany, hall,
    hnamed]

theorem informed_merge (s : OpenSlice) (d : Decision) : (s.merge d).informed = true := by
  unfold merge
  split
  · rfl
  · split <;> rfl

theorem informed_foldl_merge {ds : List Decision} (h : ds ≠ []) :
    (ds.foldl merge .empty).informed = true := by
  obtain ⟨ds, d, rfl⟩ := List.eq_nil_or_concat ds |>.resolve_left h
  simp [List.concat_eq_append, List.foldl_append, informed_merge]

theorem isFull_join (d e : Decision) : (join d e).isFull = d.isFull := by
  obtain ⟨direct, segments⟩ := d
  obtain ⟨_, more⟩ := e
  cases direct <;> cases segments <;> cases more <;> rfl

theorem join_of_isFull {d : Decision} (h : d.isFull = true) (e : Decision) : join d e = d := by
  simp [join, h]

theorem join_assoc {b : Decision} (h : b.isFull = false) (a c : Decision) :
    join (join a b) c = join a (join b c) := by
  by_cases ha : a.isFull = true
  · rw [join_of_isFull ha, join_of_isFull ha, join_of_isFull ha]
  obtain ⟨direct, s⟩ := a
  obtain ⟨direct', t⟩ := b
  obtain ⟨_, u⟩ := c
  obtain rfl : direct = true := by simpa [Decision.isFull] using ha
  obtain rfl : direct' = true := by simpa [Decision.isFull] using h
  cases s with
  | none => cases t <;> cases u <;> rfl
  | some s =>
    cases t with
    | none => cases u <;> rfl
    | some t =>
      cases u with
      | none => rfl
      | some u =>
        have hunion : s ∪ t ∪ u = s ∪ (t ∪ u) := by
          apply Std.ExtTreeSet.ext_mem
          intro i
          simp only [Std.ExtTreeSet.mem_union_iff, or_assoc]
        exact congrArg (fun known => Decision.mk true (some known)) hunion

theorem merge_assoc (s : OpenSlice) (d e : Decision) :
    (s.merge d).merge e = s.merge ((ofDecision d).merge e).decision := by
  by_cases he : e.isFull = true
  · rw [merge_full _ he, merge_full _ he, merge_full _ rfl]
  have hde : ((ofDecision d).merge e).decision = join d e := by simp [merge, ofDecision, he]
  rw [hde]
  by_cases hd : d.isFull = true
  · rw [merge_full _ hd, join_of_isFull hd, merge_full _ hd]
    simp [merge, join_of_isFull, Decision.full, Decision.isFull]
  · simp only [Bool.not_eq_true] at hd he
    have hjoin : (join d e).isFull = false := by rw [isFull_join, hd]
    cases hs : s.informed <;> simp [merge, hd, he, hjoin, hs, join_assoc hd]

theorem merge_decision_empty (s : OpenSlice) (d : Decision) :
    s.merge (empty.merge d).decision = s.merge d := by
  by_cases hd : d.isFull = true
  · rw [merge_full _ hd, merge_full _ hd, merge_full _ rfl]
  · rw [merge_empty (by simpa [Decision.isFull] using hd), ofDecision]

/-- The contributions of a list that holds some can be merged before they are merged into what the
others make. -/
theorem foldl_merge_append {es : List Decision} (h : es ≠ []) (ds : List Decision) :
    (ds ++ es).foldl merge .empty =
      (ds.foldl merge .empty).merge (es.foldl merge .empty).decision := by
  induction es using List.reverseRecOn with
  | nil => exact absurd rfl h
  | append_singleton es e ih =>
    by_cases hes : es = []
    · subst hes
      rw [List.nil_append, List.foldl_append, List.foldl_cons, List.foldl_nil, List.foldl_cons,
        List.foldl_nil, merge_decision_empty]
    · -- what `es` makes is informed, so that it is what its decision alone makes
      have hself : ofDecision (es.foldl merge .empty).decision = es.foldl merge .empty := by
        rw [ofDecision, ← informed_foldl_merge hes]
      rw [← List.append_assoc, List.foldl_append, ih hes, List.foldl_cons, List.foldl_nil,
        merge_assoc, hself, List.foldl_append]
      rfl

theorem ofContributions_of_direct {ds : List Decision} (hne : ds ≠ [])
    (h : ∀ d ∈ ds, d.direct = true) : ofContributions ds =
      if ds.all (·.segments.isNone) then ⟨.noRows, true⟩
      else ⟨⟨true, some (Decision.namedSegments ds)⟩, true⟩ := by
  have hany : ds.any Decision.isFull = false :=
    List.any_eq_false.2 fun d hd => by simp [Decision.isFull, h d hd]
  simp [ofContributions, hne, hany]

/-- What a list of decisions merges to: by cases, for lists with the same members, and for two lists
one after the other. -/
theorem foldl_merge_join (ds es : List Decision) :
    ([].foldl merge .empty = ⟨.full, false⟩ ∧
      ((∃ d ∈ ds, d.direct = false) → ds.foldl merge .empty = ⟨.full, true⟩) ∧
      (ds ≠ [] → (∀ d ∈ ds, d.direct = true ∧ d.segments = none) →
        ds.foldl merge .empty = ⟨.noRows, true⟩) ∧
      ((∀ d ∈ ds, d.direct = true) → (∃ d ∈ ds, d.segments ≠ none) →
        ∃ known, ds.foldl merge .empty = ⟨⟨true, some known⟩, true⟩ ∧
          ∀ i, i ∈ known ↔ ∃ d ∈ ds, ∃ s, d.segments = some s ∧ i ∈ s)) ∧
      ((∀ d, d ∈ ds ↔ d ∈ es) → ds.foldl merge .empty = es.foldl merge .empty) ∧
      (ds ++ es).foldl merge .empty =
        if (es.foldl merge .empty).informed
          then (ds.foldl merge .empty).merge (es.foldl merge .empty).decision
          else ds.foldl merge .empty := by
  refine ⟨⟨rfl, ?full, ?noRows, ?segments⟩, foldl_merge_of_mem_iff, ?append⟩
  case full =>
    rintro ⟨d, hd, hdirect⟩
    have hany : ds.any Decision.isFull = true :=
      List.any_eq_true.2 ⟨d, hd, by simp [Decision.isFull, hdirect]⟩
    rw [foldl_merge_empty]
    simp [ofContributions, List.ne_nil_of_mem hd, hany]
  case noRows =>
    intro hne hall
    have hnone : ds.all (·.segments.isNone) = true :=
      List.all_eq_true.2 fun d hd => by simp [(hall d hd).2]
    rw [foldl_merge_empty, ofContributions_of_direct hne fun d hd => (hall d hd).1, if_pos hnone]
  case segments =>
    rintro hall ⟨d, hd, hsegments⟩
    have hnone : ¬ds.all (·.segments.isNone) = true := fun h =>
      hsegments (by simpa using List.all_eq_true.1 h d hd)
    refine ⟨Decision.namedSegments ds, ?_, fun i => Decision.mem_namedSegments⟩
    rw [foldl_merge_empty, ofContributions_of_direct (List.ne_nil_of_mem hd) hall, if_neg hnone]
  case append =>
    by_cases hes : es = []
    · subst hes
      simp [empty]
    · rw [informed_foldl_merge hes, if_pos rfl, foldl_merge_append hes]

end OpenSlice

/-- The decision of a slice to which the decisions in `ds` contribute. -/
inductive SettlesOn (fallback : SegmentId) (ds : Set Decision) : Decision → Prop
  | uninformed : (∀ d, d ∉ ds) → SettlesOn fallback ds .full
  | full {d} : d ∈ ds → d.isFull = true → SettlesOn fallback ds .full
  | noRows {d} : d ∈ ds → (∀ d ∈ ds, d = .noRows) → SettlesOn fallback ds (.exactly [fallback])
  | segments {d known} : (∀ d ∈ ds, d.isFull = false) → d ∈ ds → d.segments.isSome = true →
      (∀ i, i ∈ known ↔ ∃ d ∈ ds, ∃ s, d.segments = some s ∧ i ∈ s) →
      SettlesOn fallback ds ⟨true, some known⟩

/-- A slice that closes with a list of contributions settles on their common decision. -/
theorem settlesOn_decision (fallback : SegmentId) (root : NodeId) (counted : Bool)
    (ds : List Decision) :
    SettlesOn fallback {d | d ∈ ds}
      (Closing.decision fallback ⟨root, counted, ds.foldl OpenSlice.merge .empty⟩) := by
  rw [OpenSlice.foldl_merge_empty]
  unfold Closing.decision OpenSlice.ofContributions
  by_cases he : ds = []
  · subst he
    exact .uninformed fun d hd => by cases hd
  by_cases hf : ds.any Decision.isFull = true
  · obtain ⟨d, hd, hfull⟩ := List.any_eq_true.1 hf
    simpa [he, hf, Decision.isFull, Decision.full] using
      @SettlesOn.full fallback {d | d ∈ ds} d hd hfull
  have hdirect : ∀ d ∈ ds, d.isFull = false := by simpa using hf
  by_cases hn : ds.all (·.segments.isNone) = true
  · obtain ⟨d, hd⟩ := List.exists_mem_of_ne_nil ds he
    have hall : ∀ d ∈ ds, d = .noRows := by
      rintro ⟨direct, segments⟩ hd
      have h1 := hdirect _ hd
      have h2 := List.all_eq_true.1 hn _ hd
      simp_all [Decision.isFull, Decision.noRows]
    simpa [he, hf, hn, Decision.isFull, Decision.noRows] using
      @SettlesOn.noRows fallback {d | d ∈ ds} d hd hall
  · obtain ⟨d, hd, hs⟩ : ∃ d ∈ ds, d.segments.isSome = true := by
      simpa [Option.isSome_iff_ne_none] using hn
    simpa [he, hf, hn, Decision.isFull] using
      @SettlesOn.segments fallback {d | d ∈ ds} d _ hdirect hd hs
        fun i => Decision.mem_namedSegments

/-- The contributions determine the decision. -/
theorem SettlesOn.unique {fallback : SegmentId} {ds : Set Decision} {d e : Decision}
    (h : SettlesOn fallback ds d) (k : SettlesOn fallback ds e) : d = e := by
  cases h with
  | uninformed hno =>
    cases k with
    | uninformed => rfl
    | full hd | noRows hd | segments _ hd => exact absurd hd (hno _)
  | full hd hfull =>
    cases k with
    | uninformed | full => rfl
    | noRows _ hall =>
      cases hall _ hd
      cases hfull
    | segments hdirect => simp [hdirect _ hd] at hfull
  | noRows hd hall =>
    cases k with
    | uninformed hno => exact absurd hd (hno _)
    | full hd' hfull =>
      cases hall _ hd'
      cases hfull
    | noRows => rfl
    | segments _ hd' hs =>
      cases hall _ hd'
      cases hs
  | segments hdirect hd hs hmem =>
    cases k with
    | uninformed hno => exact absurd hd (hno _)
    | full hd' hfull => simp [hdirect _ hd'] at hfull
    | noRows _ hall =>
      cases hall _ hd
      cases hs
    | segments _ _ _ hmem' =>
      congr 2
      apply Std.ExtTreeSet.ext_mem
      intro i
      rw [hmem, hmem']

end SliceDispatch
