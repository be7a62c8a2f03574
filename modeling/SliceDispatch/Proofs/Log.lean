import SliceDispatch.Proofs.Lockstep
import SliceDispatch.Proofs.Renderings
import SliceDispatch.Proofs.SliceRoots

namespace SliceDispatch

def logLine (root : NodeId) (verdict : String) : String :=
  "Slice " ++ root.render ++ ": " ++ verdict

theorem Closing.line_eq (c : Closing) : c.line = logLine c.root c.verdict := rfl

theorem logLine_inj {a b : NodeId} {v w : String} (h : logLine a v = logLine b w) :
    a = b ∧ v = w := by
  simp only [logLine, String.append_assoc, String.append_right_inj] at h
  obtain ⟨hroot, hverdict⟩ := NodeId.render_append_inj (by simp) (by simp) h
  exact ⟨hroot, (String.append_right_inj _).1 hverdict⟩

theorem NodeId.ofText?_logLine (root : NodeId) (verdict : String) :
    ofText? (logLine root verdict) = some root := by
  have hshown : (logLine root verdict).toList =
      "Slice #".toList ++ (Nat.toDigits 10 root.index.toNat ++ (": " ++ verdict).toList) := by
    simp [logLine, render]
  rw [ofText?, hshown, numbersIn_append (by decide), numbersIn_toDigits_append (by simp)]
  simp

theorem Closing.filterMap_ofText?_lines (cs : List Closing) :
    (cs.map fun c => logLine c.root c.verdict).filterMap NodeId.ofText? = cs.map (·.root) := by
  rw [List.filterMap_map, ← List.filterMap_eq_map]
  refine List.filterMap_congr fun c _ => ?_
  rw [Function.comp_apply, NodeId.ofText?_logLine]
  rfl

theorem Decision.isFull_of_targets {d : Decision} {known : SegmentSet}
    (h : d.targets = some known) : d.isFull = false := by
  cases hd : d.direct with
  | true => simp [isFull, hd]
  | false => simp [targets, hd] at h

/-- What the verdict on a slice tells about its decision. -/
inductive Tells (fallback : SegmentId) (verdict : String) (d : Decision) : Prop
  | nothing : verdict = "learned no information, default to full dispatch" → d = .full →
      Tells fallback verdict d
  | full : verdict = "learned full dispatch is required" → d = .full → Tells fallback verdict d
  | noRows : verdict = "learned no segment dispatch is required" → d = .exactly [fallback] →
      Tells fallback verdict d
  | segments {known : SegmentSet} : verdict = "learned dispatch to " ++ d.render →
      d.targets = some known → Tells fallback verdict d

namespace Tells

variable {fallback : SegmentId} {verdict : String} {d e : Decision}

theorem ne_of_dispatch {rest other : String} (h : verdict = "learned dispatch to " ++ rest)
    (hother : other.toList[8]? ≠ some 'd') : verdict ≠ other := by
  rintro rfl
  exact hother (by simp [h])

theorem unique (h : Tells fallback verdict d) (k : Tells fallback verdict e) : d = e := by
  cases h with
  | nothing hv hd =>
    cases k with
    | nothing _ he | full _ he => rw [hd, he]
    | noRows hw => simp [hv] at hw
    | segments hw => exact absurd hv (ne_of_dispatch hw (by simp))
  | full hv hd =>
    cases k with
    | nothing _ he | full _ he => rw [hd, he]
    | noRows hw => simp [hv] at hw
    | segments hw => exact absurd hv (ne_of_dispatch hw (by simp))
  | noRows hv hd =>
    cases k with
    | nothing hw | full hw => simp [hv] at hw
    | noRows _ he => rw [hd, he]
    | segments hw => exact absurd hv (ne_of_dispatch hw (by simp))
  | segments hv hd =>
    cases k with
    | nothing hw | full hw | noRows hw => exact absurd hw (ne_of_dispatch hv (by simp))
    | segments hw =>
      rw [hv, String.append_right_inj] at hw
      exact Decision.eq_of_render_eq hw (Decision.isFull_of_targets hd)

end Tells

/-- The verdict on a slice that started empty tells its decision. -/
theorem Closing.tells_decision (fallback : SegmentId) {c : Closing} {ds : List Decision}
    (h : c.slice = ds.foldl OpenSlice.merge .empty) :
    Tells fallback c.verdict (c.decision fallback) := by
  unfold Closing.verdict Closing.decision
  rcases OpenSlice.foldl_merge_cases ds with hs | hs | hs | ⟨known, hs⟩ <;> rw [h, hs]
  · exact .nothing rfl rfl
  · exact .full rfl rfl
  · exact .noRows rfl rfl
  · exact .segments rfl rfl

namespace Slicing

/-- Writing the log has no part in the cutting. -/
theorem run_of_logDecisions (catalog : Catalog) (config : Config) (plan : Plan) (on : Bool) :
    run ⟨catalog, { config with logDecisions := on }, plan⟩ = run ⟨catalog, config, plan⟩ := by
  have hsteps := @lockstep_of_factor ⟨catalog, config, plan⟩ { config with logDecisions := on }
    (fun _ => False) rfl
  exact (hsteps.run (UInt64.le_refl _) (.inr rfl)).eq_of_not_excused fun _ _ => id

end Slicing

namespace Plan

instance (n : Node) : Decidable n.IsMotion :=
  decidable_of_iff ((match n.kind with | .motion _ => true | _ => false) = true) (by
    unfold Node.IsMotion
    cases n.kind <;> simp)

instance (n : Node) : Decidable n.IsSubPlan :=
  decidable_of_iff ((match n.kind with | .subPlan _ _ _ => true | _ => false) = true) (by
    unfold Node.IsSubPlan
    cases n.kind <;> simp)

instance (p : Plan) (id : NodeId) : Decidable (p.IsMotion id) :=
  decidable_of_iff ((p.node? id).any (fun n => decide n.IsMotion) = true) (by
    simp [IsMotion, Option.any_eq_true])

instance (p : Plan) (id : NodeId) : Decidable (p.IsSubPlan id) :=
  decidable_of_iff ((p.node? id).any (fun n => decide n.IsSubPlan) = true) (by
    simp [IsSubPlan, Option.any_eq_true])

instance (p : Plan) : DecidablePred p.IsSliceRoot := fun id =>
  inferInstanceAs (Decidable (p.IsMotion id ∨ id = p.root ∧ ¬p.IsSubPlan id))

variable {plan : Plan} {catalog : Catalog} {config : Config} {a : Annotations} {s : Slicing}

theorem annotate_of_logDecisions (h : plan.annotate catalog config = .ok a)
    (hs : Slicing.run ⟨catalog, config, plan⟩ = .ok s) (on : Bool) :
    plan.annotate catalog { config with logDecisions := on } =
      .ok { a with log := if on then s.closed.reverse.map Closing.line else [] } := by
  obtain ⟨t, ht, rfl⟩ := Slicing.run_of_annotate h
  cases hs.symm.trans ht
  rw [annotate, Slicing.run_of_logDecisions, hs]
  rfl

/-- With the log on there is one line for each slice that closes, in order, and with the log off
there is none; nothing else differs. A node that opens a slice has a line for each path to it, as
has the root. The lines of slice roots list the slice roots, the lines of one node have one verdict,
and unless there are too many slices, a verdict tells the decision that is recorded and no other. -/
theorem annotate_log (h : plan.annotate catalog config = .ok a) : ∃ s lines,
    Slicing.run ⟨catalog, config, plan⟩ = .ok s ∧
    lines = s.closed.reverse.map (fun c => logLine c.root c.verdict) ∧
    plan.annotate catalog { config with logDecisions := true } = .ok { a with log := lines } ∧
    plan.annotate catalog { config with logDecisions := false } = .ok { a with log := [] } ∧
    (∀ id, id = plan.root ∨ plan.OpensSlice id →
      ((lines.filterMap NodeId.ofText?).count id : ℕ∞) =
        {path | plan.Leads plan.root path id}.encard) ∧
    (lines.filterMap NodeId.ofText?).filter (fun id => plan.IsSliceRoot id) = a.sliceRoots ∧
    (∀ id v w, logLine id v ∈ lines → logLine id w ∈ lines → v = w) ∧
    (a.fallback = false → ∀ id v, logLine id v ∈ lines → ∃ d, a.decision? id = some d ∧
      ∀ e, Tells (Placement.fallback catalog.segments) v e ↔ e = d) := by
  obtain ⟨s, hs, -⟩ := Slicing.run_of_annotate h
  have hline : ∀ id v, logLine id v ∈ s.closed.reverse.map Closing.line →
      ∃ c ∈ s.closed, c.root = id ∧ c.verdict = v := by
    intro id v hv
    obtain ⟨c, hc, heq⟩ := List.mem_map.1 hv
    rw [Closing.line_eq] at heq
    exact ⟨c, List.mem_reverse.1 hc, logLine_inj heq⟩
  refine ⟨s, _, hs, rfl, annotate_of_logDecisions h hs true, annotate_of_logDecisions h hs false,
    fun id hid => ?_, ?_, fun id v w hv hw => ?_, fun hf id v hv => ?_⟩
  · rw [Closing.filterMap_ofText?_lines]
    exact Slicing.count_roots_closed hs hid
  · obtain ⟨t, ht, rfl⟩ := Slicing.run_of_annotate h
    cases hs.symm.trans ht
    rw [Closing.filterMap_ofText?_lines]
    exact (Slicing.countedRoots_closed hs).symm
  · obtain ⟨c, hc, rfl, rfl⟩ := hline id v hv
    obtain ⟨d, hd, hroot, rfl⟩ := hline _ w hw
    have hslice := Slicing.slice_eq_of_root_eq hs hd hc hroot
    rw [Closing.verdict, Closing.verdict, hslice]
  · obtain ⟨c, hc, rfl, rfl⟩ := hline id v hv
    obtain ⟨ds, -, hslice⟩ := Slicing.exists_contributions_of_closed hs hc
    have htells := Closing.tells_decision (Placement.fallback catalog.segments) hslice
    refine ⟨_, decision?_of_closed h hf hs hc, fun e => ⟨fun he => he.unique htells, ?_⟩⟩
    rintro rfl
    exact htells

theorem sharedPlan_log : ∃ (a : Annotations) (lines : List String),
    sharedPlan.annotate keyedCatalog { maxDirectSlices := 5, logDecisions := true } =
      .ok { a with log := lines } ∧
    lines = ["Slice #3: learned dispatch to segments [0]",
      "Slice #1: learned full dispatch is required", "Slice #3: learned dispatch to segments [0]",
      "Slice #2: learned no information, default to full dispatch",
      "Slice #0: learned full dispatch is required"] ∧
    (lines.filterMap NodeId.ofText?).filter (fun id => sharedPlan.IsSliceRoot id) =
      [⟨3⟩, ⟨3⟩, ⟨0⟩] ∧
    ∃ d, a.decision? ⟨3⟩ = some d ∧
      ∀ e, Tells (Placement.fallback keyedCatalog.segments) "learned dispatch to segments [0]" e ↔
        e = d := by
  obtain ⟨a, hok, hf, hroots⟩ : ∃ a,
      sharedPlan.annotate keyedCatalog { maxDirectSlices := 5 } = .ok a ∧ a.fallback = false ∧
        a.sliceRoots = [⟨3⟩, ⟨3⟩, ⟨0⟩] :=
    ⟨_, rfl, rfl, by decide +kernel⟩
  obtain ⟨s, lines, -, -, hon, -, -, hlisted, -, htells⟩ := annotate_log hok
  have hlines : lines = ["Slice #3: learned dispatch to segments [0]",
      "Slice #1: learned full dispatch is required", "Slice #3: learned dispatch to segments [0]",
      "Slice #2: learned no information, default to full dispatch",
      "Slice #0: learned full dispatch is required"] := by
    have hlog : (sharedPlan.annotate keyedCatalog
        { maxDirectSlices := 5, logDecisions := true }).toOption.map (·.log) = some lines := by
      rw [hon]
      rfl
    rw [← Option.some.injEq, ← hlog]
    decide +kernel
  have hmem : logLine ⟨3⟩ "learned dispatch to segments [0]" ∈ lines := by
    rw [hlines]
    decide +kernel
  exact ⟨a, lines, hon, hlines, hroots ▸ hlisted, htells hf _ _ hmem⟩

end Plan
end SliceDispatch
