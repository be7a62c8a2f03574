import SliceDispatch.Proofs.Executability
import SliceDispatch.Proofs.PlanSoundness

namespace SliceDispatch

open Relation

/-- The segments that a slice is dispatched to: all if nothing contributes, those that some
contribution covers, and the fallback if no contribution has rows. -/
theorem SettlesOn.covers_iff {fallback segment : SegmentId} {ds : Set Decision} {d : Decision}
    (h : SettlesOn fallback ds d) : d.Covers segment ↔ (∀ e, e ∉ ds) ∨
      (∃ e ∈ ds, e.Covers segment) ∨ (∀ e ∈ ds, e = .noRows) ∧ segment = fallback := by
  constructor
  · intro hc
    cases h with
    | uninformed hno => exact .inl hno
    | full he hfull => exact .inr (.inl ⟨_, he, .inl hfull⟩)
    | noRows _ hall =>
      rcases hc with hfull | ⟨known, hknown, hin⟩
      · cases hfull
      · cases hknown
        simp only [Decision.mem_ofList, List.mem_singleton] at hin
        exact .inr (.inr ⟨hall, hin⟩)
    | segments _ _ _ hmem =>
      rcases hc with hfull | ⟨known, hknown, hin⟩
      · cases hfull
      · cases hknown
        obtain ⟨e, he, s, hs, hin⟩ := (hmem segment).1 hin
        exact .inr (.inl ⟨e, he, .inr ⟨s, hs, hin⟩⟩)
  · rintro (hno | ⟨e, he, hc⟩ | ⟨hall, rfl⟩)
    · rw [h.unique (.uninformed hno)]
      exact Decision.covers_full segment
    · exact h.covers he hc
    · by_cases hno : ∃ e, e ∈ ds
      · obtain ⟨e, he⟩ := hno
        rw [h.unique (.noRows he hall)]
        exact Decision.covers_exactly List.mem_cons_self
      · rw [h.unique (.uninformed (not_exists.1 hno))]
        exact Decision.covers_full segment

/-- What is contributed by the nodes in reach of those that the root owns, as far as they lie in one
slice with these. -/
def Slicing.Input.ownedContributions (input : Slicing.Input) : Set Decision :=
  {d | ∃ b id n, input.plan.Owns input.plan.root b ∧ ReflTransGen input.plan.Stays b id ∧
    input.plan.node? id = some n ∧ input.contribution? n = some d}

namespace Plan

variable {plan : Plan} {catalog : Catalog} {config : Config} {a : Annotations}

theorem RootRunsOutside.enters_iff {b : NodeId} (h : plan.RootRunsOutside) :
    plan.Enters plan.root b ↔ plan.Owns plan.root b := by
  obtain ⟨n, p, args, hn, hk⟩ := h
  simp [Enters, Owns, hn, Node.enters, hk]

theorem RootRunsOutside.opensSlice (h : plan.RootRunsOutside) : plan.OpensSlice plan.root := by
  obtain ⟨n, p, args, hn, hk⟩ := h
  exact ⟨n, hn, by rw [Node.opensSlice, hk]⟩

theorem RootRunsOutside.sliceContributions_eq (h : plan.RootRunsOutside) :
    Slicing.Input.sliceContributions ⟨catalog, config, plan⟩ plan.root =
      Slicing.Input.ownedContributions ⟨catalog, config, plan⟩ := by
  ext d
  constructor
  · rintro ⟨id, n, ⟨b, hb, hid⟩ | ⟨hnot, -⟩, hn, hd⟩
    · exact ⟨b, id, n, h.enters_iff.1 hb, hid, hn, hd⟩
    · exact absurd h.opensSlice hnot
  · rintro ⟨b, id, n, hb, hid, hn, hd⟩
    exact ⟨id, n, .inl ⟨b, h.enters_iff.2 hb, hid⟩, hn, hd⟩

/-- The decision of a root that runs its plan outside covers a segment exactly if there are too many
slices, if the nodes that the root owns contribute nothing, if one of their contributions covers it,
or if they contribute no rows and it is the fallback. What the plan contributes has no part in it. -/
theorem covers_root_iff (h : plan.annotate catalog config = .ok a)
    (hroot : plan.RootRunsOutside) : ∃ d, a.decision? plan.root = some d ∧
      ∀ segment, d.Covers segment ↔ a.fallback = true ∨
        (∀ e, e ∉ Slicing.Input.ownedContributions ⟨catalog, config, plan⟩) ∨
        (∃ e ∈ Slicing.Input.ownedContributions ⟨catalog, config, plan⟩, e.Covers segment) ∨
        (∀ e ∈ Slicing.Input.ownedContributions ⟨catalog, config, plan⟩, e = .noRows) ∧
          segment = Placement.fallback catalog.segments := by
  obtain ⟨d, hd⟩ := (exists_decision?_iff h).2 (.inl rfl)
  refine ⟨d, hd, fun segment => ?_⟩
  rcases decision?_cases h hd with ⟨hf, rfl⟩ | ⟨hf, hsettles⟩
  · simp [hf, Decision.covers_full]
  · rw [hroot.sliceContributions_eq] at hsettles
    simp only [hf, Bool.false_eq_true, false_or]
    exact hsettles.covers_iff

/-- A sub-plan that runs a scan of all rows and whose argument is a sub-plan that runs a scan for
one key. -/
def argumentPlan : Plan where
  nodes := #[
    { kind := .subPlan ⟨1⟩ false [.subPlan ⟨2⟩] },
    { kind := .seqScan 1 },
    { kind := .subPlan ⟨3⟩ false [] },
    { kind := .seqScan 1, qual := keyIs 8 }]
  root := ⟨0⟩
  ranges := #[.relation ⟨"public", "t"⟩ "t"]

theorem argumentPlan_runsOutside : argumentPlan.RootRunsOutside := ⟨_, _, _, rfl, rfl⟩

theorem argumentPlan_covers_root : ∃ a, argumentPlan.annotate keyedCatalog {} = .ok a ∧
    argumentPlan.RootRunsOutside ∧ ∃ d, a.decision? argumentPlan.root = some d ∧
      ∀ segment, d.Covers segment ↔ a.fallback = true ∨
        (∀ e, e ∉ Slicing.Input.ownedContributions ⟨keyedCatalog, {}, argumentPlan⟩) ∨
        (∃ e ∈ Slicing.Input.ownedContributions ⟨keyedCatalog, {}, argumentPlan⟩,
          e.Covers segment) ∨
        (∀ e ∈ Slicing.Input.ownedContributions ⟨keyedCatalog, {}, argumentPlan⟩, e = .noRows) ∧
          segment = Placement.fallback keyedCatalog.segments := by
  obtain ⟨a, hok⟩ : ∃ a, argumentPlan.annotate keyedCatalog {} = .ok a := ⟨_, rfl⟩
  exact ⟨a, hok, argumentPlan_runsOutside, covers_root_iff hok argumentPlan_runsOutside⟩

/-- The scan that the root runs keeps every row, but the root is dispatched to the segment of the
key that the scan in its argument looks for, where the row with key 7 is not. -/
theorem argumentPlan_misses_row : ∃ a d, argumentPlan.annotate keyedCatalog {} = .ok a ∧
    argumentPlan.RootRunsOutside ∧ argumentPlan.Visits .top ⟨1⟩ ∧
    (∃ n, argumentPlan.node? ⟨1⟩ = some n ∧ n.Scans 1 none) ∧
    (∃ entry, argumentPlan.range? 1 = some entry ∧ entry.Places keyedCatalog keyedRow) ∧
    a.decision? argumentPlan.root = some d ∧ ¬d.Covers keyedRow.segment := by
  obtain ⟨a, hok, hd⟩ : ∃ a, argumentPlan.annotate keyedCatalog {} = .ok a ∧
      a.decision? argumentPlan.root = some (.exactly [2]) :=
    ⟨_, rfl, by decide +kernel⟩
  have hv : argumentPlan.Visits .top ⟨1⟩ := .stay .root ⟨_, rfl, by decide⟩
  refine ⟨a, _, hok, argumentPlan_runsOutside, hv, ⟨_, rfl, .seq rfl⟩, ⟨_, rfl, ?_⟩, hd, ?_⟩
  · rintro table d - - ⟨⟩ hd
    cases hd
    exact fun _ => rfl
  · rintro (hfull | ⟨known, ⟨⟩, hin⟩)
    · cases hfull
    · revert hin
      decide +kernel

end Plan
end SliceDispatch
