import SliceDispatch.Proofs.ScanSoundness
import SliceDispatch.Proofs.Slices

namespace SliceDispatch

/-- What a slice settles on covers what a contribution covers. -/
theorem SettlesOn.covers {fallback segment : SegmentId} {ds : Set Decision} {d e : Decision}
    (h : SettlesOn fallback ds e) (hd : d ∈ ds) (hc : d.Covers segment) : e.Covers segment := by
  cases h with
  | uninformed hno => exact absurd hd (hno d)
  | full => exact Decision.covers_full segment
  | noRows _ hall =>
    rw [hall d hd] at hc
    exact absurd hc (Decision.not_covers_noRows segment)
  | segments hdirect _ _ hmem =>
    rcases hc with hfull | ⟨known, hknown, hin⟩
    · simp [hdirect d hd] at hfull
    · exact .inr ⟨_, rfl, (hmem segment).2 ⟨d, hd, known, hknown, hin⟩⟩

namespace Plan

variable {plan : Plan} {catalog : Catalog} {config : Config} {a : Annotations}
variable {slice : SliceName} {id : NodeId} {n : Node} {range : UInt32} {predicate : Option Expr}

/-- The root is a sub-plan but no initial plan, so that what it runs lies in the slice around it. -/
def RootRunsOutside (p : Plan) : Prop :=
  ∃ n plan args, p.node? p.root = some n ∧ n.kind = .subPlan plan false args

/-- A root that opens a slice leaves nothing but itself to the slice around it. -/
theorem eq_root_of_visits_top (hroot : ¬plan.RootRunsOutside) (ho : plan.OpensSlice plan.root)
    (hv : plan.Visits .top id) : id = plan.root := by
  obtain ⟨n, hn, ho⟩ := ho
  have hstays : n.stays = [] := by
    unfold Node.opensSlice at ho
    unfold Node.stays
    cases hk : n.kind with
    | motion => rfl
    | subPlan plan isInit args =>
      cases isInit with
      | true => rfl
      | false => exact absurd ⟨n, plan, args, hn, hk⟩ hroot
    | _ => simp [hk] at ho
  rcases (visits_top_iff.1 hv).cases_head with h | ⟨b, ⟨m, hm, hb⟩, -⟩
  · exact h.symm
  · cases hn.symm.trans hm
    simp [hstays] at hb

theorem sliceHolds_of_visits (hroot : ¬plan.RootRunsOutside) (hv : plan.Visits slice id)
    (hn : plan.node? id = some n) (hs : n.Scans range predicate) :
    plan.SliceHolds (plan.sliceRoot slice) id := by
  cases slice with
  | of r => exact .inl (visits_of_iff.1 hv).2
  | top =>
    refine .inr ⟨fun ho => ?_, visits_top_iff.1 hv⟩
    obtain rfl := eq_root_of_visits_top hroot ho hv
    have hopens : n.opensSlice = true := (opensSlice_iff_of_node? hn).1 ho
    simp [hs.opensSlice_eq_false] at hopens

theorem exists_decision?_of_visits (h : plan.annotate catalog config = .ok a)
    (hv : plan.Visits slice id) : ∃ d, a.decision? (plan.sliceRoot slice) = some d := by
  obtain ⟨s, hs, -⟩ := Slicing.run_of_annotate h
  obtain ⟨c, hc, hroot⟩ : ∃ c ∈ s.closed, c.root = plan.sliceRoot slice := by
    cases slice with
    | top => exact Slicing.exists_closed_root hs
    | of r =>
      obtain ⟨hr, b, hb, -⟩ := visits_of_iff.1 hv
      exact Slicing.exists_closed_of_opensSlice hs hr hb.opensSlice
  rw [← hroot]
  exact exists_decision?_of_closed h hs hc

/-- The decision of the slice that a scan is visited in covers every row that the scan keeps. -/
theorem annotate_misses_no_row (h : plan.annotate catalog config = .ok a)
    (hroot : ¬plan.RootRunsOutside) (hv : plan.Visits slice id) (hn : plan.node? id = some n)
    (hs : n.Scans range predicate) :
    ∃ entry d, plan.range? range = some entry ∧ a.decision? (plan.sliceRoot slice) = some d ∧
      ∀ (row : Row) (ev : Evaluation), entry.Places catalog row → ev.Reads entry row →
        (∀ p ∈ predicate, ev.Holds p) → d.Covers row.segment := by
  obtain ⟨s, hrun, -⟩ := Slicing.run_of_annotate h
  obtain ⟨entry, hentry⟩ := Slicing.exists_range?_of_run hrun hv.reached hn hs
  obtain ⟨d, hd⟩ := exists_decision?_of_visits h hv
  refine ⟨entry, d, hentry, hd, fun row ev hplaced hreads hholds => ?_⟩
  rcases decision?_cases h hd with ⟨-, rfl⟩ | ⟨-, hsettles⟩
  · exact Decision.covers_full row.segment
  · have hcovers := ScanDecision.covers_ofEntry hplaced hreads hholds config.combinationFactor
    exact hsettles.covers ⟨id, n, sliceHolds_of_visits hroot hv hn hs, hn,
      Slicing.Input.contribution?_of_scans hs hentry⟩ hcovers

def keyedRow : Row where
  segment := Placement.segment [.int 7] [.integer] 4
  value name :=
    if name = "gp_segment_id" then
      .int (Placement.segment [.int 7] [.integer] 4).toUInt64.toInt64
    else .int 7
  value_segmentId := rfl

theorem sharedPlan_misses_no_row : ∃ a,
    sharedPlan.annotate keyedCatalog { maxDirectSlices := 5 } = .ok a ∧
      a.decision? ⟨3⟩ = some (.exactly [0]) ∧ (Decision.exactly [0]).Covers keyedRow.segment := by
  obtain ⟨a, hok, hd⟩ : ∃ a, sharedPlan.annotate keyedCatalog { maxDirectSlices := 5 } = .ok a ∧
      a.decision? ⟨3⟩ = some (.exactly [0]) :=
    ⟨_, rfl, by decide +kernel⟩
  refine ⟨a, hok, hd, ?_⟩
  have hroot : ¬sharedPlan.RootRunsOutside := by
    rintro ⟨n, plan, args, ⟨⟩, ⟨⟩⟩
  have hv : sharedPlan.Visits (.of ⟨3⟩) ⟨4⟩ := by
    have h1 : sharedPlan.Visits .top ⟨1⟩ := .stay .root ⟨_, rfl, by decide⟩
    have h3 : sharedPlan.Visits (.of ⟨1⟩) ⟨3⟩ := .enter h1 ⟨_, rfl, by decide⟩
    exact .enter h3 ⟨_, rfl, by decide⟩
  obtain ⟨entry, d, hentry, hd', hcovers⟩ := annotate_misses_no_row hok hroot hv rfl (.seq rfl)
  cases hentry
  cases hd.symm.trans hd'
  apply hcovers keyedRow (Environment.ofRow keyedRow (fun _ => .null) fun _ => .null).evaluation
  · rintro table d - - ⟨⟩ hd
    cases hd
    exact fun _ => rfl
  · exact Environment.reads_ofRow _ _ _ _
  · rintro p ⟨⟩
    decide +kernel

end Plan
end SliceDispatch
