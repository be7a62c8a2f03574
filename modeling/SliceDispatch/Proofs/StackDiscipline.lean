import SliceDispatch.Proofs.Slices
import Mathlib.Data.Set.Basic

namespace SliceDispatch

/-- What is known of where the rows of a slice lie. -/
inductive Extent where
  | unknown
  | nowhere
  | within (segments : Set SegmentId)
  | everywhere

namespace Extent

/-- Nothing known comes first, then no rows, then sets of segments by inclusion, then all. -/
inductive Le : Extent → Extent → Prop
  | unknown {b} : Le .unknown b
  | nowhere : Le .nowhere .nowhere
  | nowhere_within {s} : Le .nowhere (.within s)
  | within {s t} : s ⊆ t → Le (.within s) (.within t)
  | everywhere {a} : Le a .everywhere

instance : PartialOrder Extent where
  le := Le
  le_refl a := by
    cases a with
    | unknown => exact .unknown
    | nowhere => exact .nowhere
    | within s => exact .within fun _ hi => hi
    | everywhere => exact .everywhere
  le_trans a b c hab hbc := by
    cases hab with
    | unknown => exact .unknown
    | nowhere => exact hbc
    | nowhere_within =>
      cases hbc with
      | within => exact .nowhere_within
      | everywhere => exact .everywhere
    | within hst =>
      cases hbc with
      | within htu => exact .within fun _ hi => htu (hst hi)
      | everywhere => exact .everywhere
    | everywhere =>
      cases hbc
      exact .everywhere
  le_antisymm a b hab hba := by
    cases hab with
    | within hst =>
      cases hba with
      | within hts => exact congrArg within (Set.ext fun _ => ⟨(hst ·), (hts ·)⟩)
    | _ => cases hba <;> rfl

end Extent

namespace OpenSlice

def extent (s : OpenSlice) : Extent :=
  if !s.informed then .unknown
  else if s.decision.isFull then .everywhere
  else match s.decision.segments with
    | none => .nowhere
    | some known => .within {i | i ∈ known}

theorem merge_of_informed (s : Decision) {d : Decision} (h : d.isFull = false) :
    merge ⟨s, true⟩ d = ⟨join s d, true⟩ := by
  simp [merge, h]

/-- A contribution can only add segments. -/
theorem extent_le_merge (s : OpenSlice) (d : Decision) : s.extent ≤ (s.merge d).extent := by
  cases hd : d.isFull with
  | true =>
    rw [merge_full s hd]
    exact .everywhere
  | false =>
    obtain ⟨⟨direct, known⟩, informed⟩ := s
    cases informed with
    | false => exact .unknown
    | true =>
      rw [merge_of_informed _ hd]
      obtain ⟨direct', more⟩ := d
      cases direct with
      | false => exact .everywhere
      | true =>
        cases known with
        | none =>
          cases more with
          | none => exact .nowhere
          | some more => exact .nowhere_within
        | some known =>
          cases more with
          | none => exact le_refl _
          | some more => exact .within fun i hi => Std.ExtTreeSet.mem_union_iff.2 (.inl hi)

theorem extent_le_foldl_merge (s : OpenSlice) (ds : List Decision) :
    s.extent ≤ (ds.foldl merge s).extent := by
  induction ds generalizing s with
  | nil => exact le_refl _
  | cons d ds ih => exact le_trans (extent_le_merge s d) (ih (s.merge d))

end OpenSlice

namespace Slicing

variable {input : Input} {visit : NodeId → Slicing → Except Fault Slicing}
variable {root owner id : NodeId} {levels n : Nat} {s : Slicing}

/-- A step ends with `n` slices open, or it fails, but not because none was open. -/
def EndsWith (n : Nat) (x : Except Fault Slicing) : Prop :=
  Meets (fun t => t.slices.depth = n) (· ≠ .unbalanced) x

theorem inform_eq_unbalanced_iff (d : Decision) :
    s.inform d = .error .unbalanced ↔ s.slices.depth = 0 := by
  obtain ⟨⟨_ | ⟨inner, outer⟩⟩, owners, closed⟩ := s <;>
    simp [inform, OpenSlices.contribute?, OpenSlices.depth]

theorem leave_eq_unbalanced_iff (counted : Bool) :
    s.leave id counted = .error .unbalanced ↔ s.slices.depth = 0 := by
  obtain ⟨⟨_ | ⟨inner, outer⟩⟩, owners, closed⟩ := s <;>
    simp [leave, OpenSlices.pop?, OpenSlices.depth]

theorem exists_slices_of_depth (h : s.slices.depth = n + 1) :
    ∃ inner outer, s.slices = ⟨inner :: outer⟩ ∧ outer.length = n := by
  obtain ⟨⟨_ | ⟨inner, outer⟩⟩, owners, closed⟩ := s
  · cases h
  · exact ⟨inner, outer, rfl, Nat.succ.inj h⟩

theorem endsWith_inform (h : s.slices.depth = n + 1) (d : Decision) :
    EndsWith (n + 1) (s.inform d) := by
  obtain ⟨inner, outer, hs, rfl⟩ := exists_slices_of_depth h
  rw [inform, hs]
  rfl

theorem endsWith_leave (h : s.slices.depth = n + 1) (id : NodeId) (counted : Bool) :
    EndsWith n (s.leave id counted) := by
  obtain ⟨inner, outer, hs, rfl⟩ := exists_slices_of_depth h
  rw [leave, hs]
  rfl

theorem endsWith_adopt (root owner id : NodeId) (s : Slicing) :
    EndsWith s.slices.depth (s.adopt root owner id) := by
  unfold adopt
  split
  · exact Fault.noConfusion
  · split
    · rfl
    · split
      · rfl
      · exact Fault.noConfusion

theorem endsWith_cutOwned {before ids : List NodeId}
    (hvisit : ∀ id s, s.slices.depth = n → EndsWith n (visit id s)) (h : s.slices.depth = n) :
    EndsWith n (cutOwned root owner visit before ids s) := by
  induction ids generalizing before s with
  | nil => exact h
  | cons id ids ih =>
    rw [cutOwned]
    split
    · exact Fault.noConfusion
    · have hadopt := endsWith_adopt root owner id s
      rw [h] at hadopt
      exact hadopt.bind fun u hu => (hvisit id u hu).bind fun v hv => ih hv

/-- How many slices a node is inside of that it has opened, while the nodes that it owns are cut. -/
def opened : SliceEffect → Nat
  | .motion | .subPlan _ _ => 1
  | _ => 0

theorem endsWith_arrive (hvisit : ∀ id n s, s.slices.depth = n + 1 → EndsWith (n + 1) (visit id s))
    (h : s.slices.depth = n + 1) (id : NodeId) (effect : SliceEffect) :
    EndsWith (n + 1 + opened effect) (arrive input visit id s effect) := by
  cases effect with
  | relay => exact h
  | scan range predicate =>
    simp only [arrive]
    cases input.plan.range? range with
    | none => exact Fault.noConfusion
    | some entry => exact endsWith_inform h _
  | everywhere => exact endsWith_inform h .full
  | motion => exact (endsWith_inform h .full).map fun u hu => congrArg (· + 1) hu
  | subPlan plan isInit =>
    cases isInit with
    | true => exact hvisit plan (n + 1) s.enter (congrArg (· + 1) h)
    | false => exact (hvisit plan n s h).map fun u hu => congrArg (· + 1) hu
  | unrecognized tag => exact Fault.noConfusion

theorem endsWith_depart (effect : SliceEffect) (h : s.slices.depth = n + opened effect)
    (id : NodeId) : EndsWith n (s.depart id effect) := by
  cases effect with
  | motion | subPlan => exact endsWith_leave h id _
  | _ => exact h

theorem endsWith_cut (levels : Nat) (id : NodeId) (h : s.slices.depth = n + 1) :
    EndsWith (n + 1) (cut input levels id s) := by
  induction levels generalizing id n s with
  | zero => exact Fault.noConfusion
  | succ levels ih =>
    have hvisit : ∀ id n s, s.slices.depth = n + 1 → EndsWith (n + 1) (cut input levels id s) :=
      fun id _ _ h => ih id h
    rw [cut_succ]
    cases input.plan.node? id with
    | none => exact Fault.noConfusion
    | some node =>
      refine (endsWith_arrive hvisit h id node.effect).bind fun u hu => ?_
      refine Meets.bind ?_ fun v hv => endsWith_depart node.effect hv id
      rw [Nat.add_right_comm] at hu ⊢
      exact endsWith_cutOwned (fun b s hs => hvisit b _ s hs) hu

theorem endsWith_leaveRoot (input : Input) (h : s.slices.depth = 1) :
    EndsWith 0 (leaveRoot input s) := by
  unfold leaveRoot
  cases input.plan.node? input.plan.root with
  | none => exact Fault.noConfusion
  | some node =>
    obtain ⟨inner, outer, hs, hlength⟩ := exists_slices_of_depth h
    dsimp only
    cases node.effect with
    | motion | subPlan =>
      rw [hs]
      exact hlength
    | _ => exact endsWith_leave h _ _

theorem endsWith_run (input : Input) : EndsWith 0 (run input) := by
  refine (endsWith_cut _ _ rfl).bind fun s hs => (endsWith_leaveRoot input hs).bind fun t ht => ?_
  rw [if_pos ht]
  exact ht

/-- A cut from a state with an open slice that succeeds leaves the stack as deep as it was, the
slices around the innermost one as they were, and the innermost one with the contributions of the
subtree merged into it, so that it is known to need no fewer segments. No cut from such a state
finds the stack empty, and the annotation of a plan never does. -/
theorem cut_keeps_stack {inner : OpenSlice} {outer : List OpenSlice}
    (hs : s.slices = ⟨inner :: outer⟩) (input : Input) (levels : Nat) (id : NodeId) :
    (∀ t, cut input levels id s = .ok t →
      t.slices.depth = s.slices.depth ∧
      t.slices = ⟨(input.contributions levels id).foldl OpenSlice.merge inner :: outer⟩ ∧
      inner.extent ≤ ((input.contributions levels id).foldl OpenSlice.merge inner).extent) ∧
    (∀ (u : Slicing) (d : Decision), u.inform d = .error .unbalanced ↔ u.slices.depth = 0) ∧
    (∀ (u : Slicing) (id : NodeId) (counted : Bool),
      u.leave id counted = .error .unbalanced ↔ u.slices.depth = 0) ∧
    cut input levels id s ≠ .error .unbalanced ∧
    ∀ (plan : Plan) (catalog : Catalog) (config : Config),
      plan.annotate catalog config ≠ .error .unbalanced := by
  have hdepth : s.slices.depth = outer.length + 1 := by rw [hs, OpenSlices.depth, List.length_cons]
  refine ⟨fun t ht => ?_, fun _ => inform_eq_unbalanced_iff, fun _ _ => leave_eq_unbalanced_iff,
    fun hcut => ?_, fun plan catalog config hannotate => ?_⟩
  · have hslices := (extends_cut ht).slices hs
    refine ⟨?_, hslices, inner.extent_le_foldl_merge _⟩
    rw [hdepth, hslices, OpenSlices.depth, List.length_cons]
  · have hends : EndsWith (outer.length + 1) (cut input levels id s) :=
      endsWith_cut levels id hdepth
    rw [hcut] at hends
    exact hends rfl
  · have hends := endsWith_run ⟨catalog, config, plan⟩
    rw [run_of_annotate_error hannotate] at hends
    exact hends rfl

theorem sharedPlan_keeps_stack : ∃ t,
    cut ⟨Plan.keyedCatalog, {}, Plan.sharedPlan⟩ 5 ⟨0⟩
      ⟨⟨[.ofDecision (.exactly [1]), .empty]⟩, [], []⟩ = .ok t ∧
    t.slices.depth = 2 ∧ t.slices = ⟨[⟨.full, true⟩, .empty]⟩ := by
  obtain ⟨t, ht⟩ : ∃ t, cut ⟨Plan.keyedCatalog, {}, Plan.sharedPlan⟩ 5 ⟨0⟩
      ⟨⟨[.ofDecision (.exactly [1]), .empty]⟩, [], []⟩ = .ok t := ⟨_, rfl⟩
  obtain ⟨hdepth, hslices, -⟩ := (cut_keeps_stack rfl _ _ _).1 t ht
  refine ⟨t, ht, hdepth, hslices.trans ?_⟩
  decide +kernel

end Slicing
end SliceDispatch
