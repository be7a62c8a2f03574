import SliceDispatch.Proofs.Lockstep
import SliceDispatch.Proofs.Slices

namespace SliceDispatch

namespace ScanDecision

variable {factor factor' : UInt64} {qualifier : String} {p : Expr}

theorem boundedProduct_mono {b c : Nat} (h : b ≤ c) (a : Nat) :
    boundedProduct a b ≤ boundedProduct a c := by
  have := Nat.mul_le_mul_left a h
  simp only [boundedProduct]
  omega

/-- With a higher cap on combinations a scan decides the same, unless the lower cap was reached. -/
theorem ofKeys_of_le (h : factor ≤ factor') (keys : List KeyColumn) (segments : UInt64) :
    ofKeys factor qualifier keys segments p = .full ∨
      ofKeys factor qualifier keys segments p = ofKeys factor' qualifier keys segments p := by
  simp only [ofKeys_eq]
  cases keyCandidates? qualifier p keys with
  | none => exact .inl rfl
  | some lists =>
    dsimp only
    split
    · exact .inr rfl
    split
    · exact .inl rfl
    · rename_i hcap
      have hcap' : ¬boundedProduct segments.toNat factor'.toNat ≤ combinations lists := by
        have := boundedProduct_mono (UInt64.le_iff_toNat_le.1 h) segments.toNat
        omega
      exact .inr (by rw [if_neg hcap'])

theorem ofDistribution_of_le (h : factor ≤ factor') (d : Distribution) :
    ofDistribution factor qualifier d p = .full ∨
      ofDistribution factor qualifier d p = ofDistribution factor' qualifier d p := by
  simp only [ofDistribution_eq]
  split
  · exact .inr rfl
  · split
    · exact ofKeys_of_le h d.keys d.segments
    · exact .inl rfl

theorem ofEntry_of_le (h : factor ≤ factor') (catalog : Catalog) (entry : RangeEntry)
    (predicate : Option Expr) :
    ofEntry catalog factor entry predicate = .full ∨
      ofEntry catalog factor entry predicate = ofEntry catalog factor' entry predicate := by
  simp only [ofEntry_eq]
  split
  · exact ofDistribution_of_le h _
  · exact .inl rfl

end ScanDecision

namespace Slicing

/-- The same slices are open, of which nothing is said but how many, and the same have closed. -/
structure SameCourse (s t : Slicing) : Prop where
  depth : s.slices.depth = t.slices.depth
  owners : s.owners = t.owners
  closed : s.closed.map (fun c => (c.root, c.counted)) = t.closed.map fun c => (c.root, c.counted)

namespace SameCourse

variable {s t : Slicing} {excused : Fault → Prop}

theorem inform (h : s.SameCourse t) (d e : Decision) :
    Tracks excused SameCourse (s.inform d) (t.inform e) := by
  obtain ⟨⟨_ | ⟨inner, outer⟩⟩, owners, closed⟩ := s <;>
    obtain ⟨⟨_ | ⟨inner', outer'⟩⟩, owners', closed'⟩ := t
  · exact .fault
  · cases h.depth
  · cases h.depth
  · exact .ok ⟨h.depth, h.owners, h.closed⟩

theorem pop (h : s.SameCourse t) {f g : OpenSlice → OpenSlices → Slicing}
    (hfg : ∀ inner inner' outer outer', outer.depth = outer'.depth →
      (f inner outer).SameCourse (g inner' outer')) :
    Tracks excused SameCourse
      (match s.slices.pop? with
        | some (inner, outer) => .ok (f inner outer)
        | none => .error .unbalanced)
      (match t.slices.pop? with
        | some (inner, outer) => .ok (g inner outer)
        | none => .error .unbalanced) := by
  obtain ⟨⟨_ | ⟨inner, outer⟩⟩, owners, closed⟩ := s <;>
    obtain ⟨⟨_ | ⟨inner', outer'⟩⟩, owners', closed'⟩ := t
  · exact .fault
  · cases h.depth
  · cases h.depth
  · exact .ok (hfg _ _ _ _ (Nat.succ.inj h.depth))

theorem leave (h : s.SameCourse t) (id : NodeId) (counted : Bool) :
    Tracks excused SameCourse (s.leave id counted) (t.leave id counted) :=
  h.pop fun _ _ _ _ hdepth => ⟨hdepth, h.owners, congrArg ((id, counted) :: ·) h.closed⟩

theorem adopt (h : s.SameCourse t) (root owner id : NodeId) :
    Tracks excused SameCourse (s.adopt root owner id) (t.adopt root owner id) := by
  unfold Slicing.adopt
  rw [← h.owners]
  split
  · exact .fault
  split
  · exact .ok ⟨h.depth, by simp [h.owners], h.closed⟩
  · split
    · exact .ok h
    · exact .fault

end SameCourse

/-- Caps have no influence on the course of a cut. -/
theorem lockstep_of_plan_eq {input input' : Input} (h : input.plan = input'.plan)
    (excused : Fault → Prop) : Lockstep input input' excused SameCourse where
  plan := h
  start := ⟨rfl, rfl, rfl⟩
  scan hst _ _ := hst.inform _ _
  full hst := hst.inform _ _
  enter hst := ⟨congrArg Nat.succ hst.depth, hst.owners, hst.closed⟩
  leave := SameCourse.leave
  adopt := SameCourse.adopt
  leaveRoot hst := by
    unfold Slicing.leaveRoot
    rw [h]
    cases input'.plan.node? input'.plan.root with
    | none => exact .fault
    | some n =>
      dsimp only
      cases n.effect with
      | motion | subPlan => exact hst.pop fun _ _ _ _ hdepth => ⟨hdepth, hst.owners, hst.closed⟩
      | _ => exact hst.leave _ _
  depth := SameCourse.depth

theorem SameCourse.sliceRoots_eq {s t : Slicing} (h : s.SameCourse t) (config config' : Config)
    (segments : UInt64) : (Annotations.ofClosings config segments s.closed.reverse).sliceRoots =
      (Annotations.ofClosings config' segments t.closed.reverse).sliceRoots := by
  have hroots : ∀ cs : List Closing, (cs.filter (·.counted)).map (·.root) =
      ((cs.map fun c => (c.root, c.counted)).filter (·.2)).map (·.1) := by
    intro cs
    rw [List.filter_map, List.map_map]
    rfl
  change List.map _ _ = List.map _ _
  rw [hroots, hroots, List.map_reverse, List.map_reverse, h.closed]

variable {catalog : Catalog} {config config' : Config} {plan : Plan}

theorem contribution?_of_le (h : config.combinationFactor ≤ config'.combinationFactor) (n : Node) :
    Input.contribution? ⟨catalog, config, plan⟩ n = some .full ∨
      Input.contribution? ⟨catalog, config, plan⟩ n =
        Input.contribution? ⟨catalog, config', plan⟩ n := by
  rcases Input.contribution?_cases n with ⟨range, predicate, -, hscan⟩ | hnone | hfull
  · rw [hscan, hscan]
    dsimp only
    cases plan.range? range with
    | none => exact .inr rfl
    | some entry =>
      have hle := ScanDecision.ofEntry_of_le h catalog entry predicate
      exact hle.imp (congrArg some) (congrArg some)
  · rw [hnone, hnone]
    exact .inr rfl
  · exact .inl (hfull _)

theorem sliceContributions_of_le (h : config.combinationFactor ≤ config'.combinationFactor)
    (r : NodeId) : .full ∈ Input.sliceContributions ⟨catalog, config, plan⟩ r ∨
      Input.sliceContributions ⟨catalog, config, plan⟩ r =
        Input.sliceContributions ⟨catalog, config', plan⟩ r := by
  by_contra hnot
  obtain ⟨hfull, hne⟩ := not_or.1 hnot
  refine hne (Set.ext fun d => exists_congr fun id => exists_congr fun n =>
    and_congr_right fun hid => and_congr_right fun hn => ?_)
  rcases contribution?_of_le h n with hd | heq
  · exact absurd ⟨id, n, hid, hn, hd⟩ hfull
  · rw [heq]

end Slicing

/-- A slice that settles on other contributions than some only because one became full is full. -/
theorem SettlesOn.full_or_eq {fallback : SegmentId} {ds es : Set Decision} {d e : Decision}
    (hd : SettlesOn fallback ds d) (he : SettlesOn fallback es e) (h : .full ∈ ds ∨ ds = es) :
    d = .full ∨ d = e := by
  rcases h with h | rfl
  · exact .inl (hd.unique (.full h rfl))
  · exact .inr (hd.unique he)

namespace Plan

/-- Looser caps on combinations and on slices change nothing about which plans are annotated, with
which faults, and which slices there are. They only replace full decisions. -/
theorem annotate_of_looser (plan : Plan) (catalog : Catalog) (config looser : Config)
    (hdepth : config.maxPlanDepth = looser.maxPlanDepth)
    (hfactor : config.combinationFactor ≤ looser.combinationFactor)
    (hslices : config.maxDirectSlices ≤ looser.maxDirectSlices) :
    (∃ f, plan.annotate catalog config = .error f ∧ plan.annotate catalog looser = .error f) ∨
      ∃ a b, plan.annotate catalog config = .ok a ∧ plan.annotate catalog looser = .ok b ∧
        a.sliceRoots = b.sliceRoots ∧
        (∀ id, (∃ d, a.decision? id = some d) ↔ ∃ d, b.decision? id = some d) ∧
        (b.fallback = true → a.fallback = true) ∧
        ∀ id d e, a.decision? id = some d → b.decision? id = some e → d = .full ∨ d = e := by
  have hrun := (@Slicing.lockstep_of_plan_eq ⟨catalog, config, plan⟩ ⟨catalog, looser, plan⟩ rfl
    fun _ => False).run (UInt64.le_of_eq hdepth) (.inr hdepth)
  generalize hx : Slicing.run ⟨catalog, config, plan⟩ = x at hrun
  generalize hy : Slicing.run ⟨catalog, looser, plan⟩ = y at hrun
  cases hrun with
  | excused hf => exact hf.elim
  | @fault f => exact .inl ⟨f, by rw [annotate, hx]; rfl, by rw [annotate, hy]; rfl⟩
  | @ok s t hst =>
    have ha : plan.annotate catalog config =
        .ok (.ofClosings config catalog.segments s.closed.reverse) := by rw [annotate, hx]; rfl
    have hb : plan.annotate catalog looser =
        .ok (.ofClosings looser catalog.segments t.closed.reverse) := by rw [annotate, hy]; rfl
    have hroots := hst.sliceRoots_eq config looser catalog.segments
    have hfallback :
        (Annotations.ofClosings looser catalog.segments t.closed.reverse).fallback = true →
          (Annotations.ofClosings config catalog.segments s.closed.reverse).fallback = true := by
      rw [Annotations.fallback_iff, Annotations.fallback_iff, hroots]
      exact Nat.lt_of_le_of_lt (UInt64.le_iff_toNat_le.1 hslices)
    refine .inr ⟨_, _, ha, hb, hroots, fun id => ?_, hfallback, fun id d e hd he => ?_⟩
    · rw [exists_decision?_iff ha, exists_decision?_iff hb]
    · rcases decision?_cases ha hd with ⟨-, rfl⟩ | ⟨hf, hsettles⟩
      · exact .inl rfl
      rcases decision?_cases hb he with ⟨hf', -⟩ | ⟨-, hsettles'⟩
      · simp [hfallback hf'] at hf
      · exact hsettles.full_or_eq hsettles' (Slicing.sliceContributions_of_le hfactor id)

theorem sharedPlan_looser : ∃ a b,
    sharedPlan.annotate keyedCatalog { combinationFactor := 0, maxDirectSlices := 3 } = .ok a ∧
      sharedPlan.annotate keyedCatalog
        { combinationFactor := 1, maxDirectSlices := 5, logDecisions := true } = .ok b ∧
      a.decision? ⟨3⟩ = some .full ∧ b.decision? ⟨3⟩ = some (.exactly [0]) ∧
      a.sliceRoots = b.sliceRoots := by
  rcases annotate_of_looser sharedPlan keyedCatalog
    { combinationFactor := 0, maxDirectSlices := 3 }
    { combinationFactor := 1, maxDirectSlices := 5, logDecisions := true }
    rfl (by decide) (by decide) with ⟨f, ⟨⟩, -⟩ | ⟨a, b, ha, hb, hroots, -, -, -⟩
  refine ⟨a, b, ha, hb, ?_, ?_, hroots⟩
  · cases ha
    decide +kernel
  · cases hb
    decide +kernel

end Plan
end SliceDispatch
