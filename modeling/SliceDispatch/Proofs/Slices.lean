import SliceDispatch.Proofs.Merging
import SliceDispatch.Proofs.Ownership

namespace SliceDispatch

open Relation

/-- `id` is visited in the slice with root `r`: what a node that opens a slice enters, and for any
other node, which is then the root of the plan, the node itself. -/
def Plan.SliceHolds (p : Plan) (r id : NodeId) : Prop :=
  (∃ a, p.Enters r a ∧ ReflTransGen p.Stays a id) ∨ (¬p.OpensSlice r ∧ ReflTransGen p.Stays r id)

/-- The decisions that the nodes of a slice contribute to it. -/
def Slicing.Input.sliceContributions (input : Slicing.Input) (r : NodeId) : Set Decision :=
  {d | ∃ id n, input.plan.SliceHolds r id ∧ input.plan.node? id = some n ∧
    input.contribution? n = some d}

namespace Slicing

variable {input : Input} {owners : NodeId → Option NodeId} {levels : Nat} {id r : NodeId}

/-- A subtree contributes what the nodes contribute that it has in the slice it is cut in. -/
theorem mem_contributions {d : Decision} (h : Cleared input owners levels id) :
    d ∈ input.contributions levels id ↔ ∃ x n, ReflTransGen input.plan.Stays id x ∧
      input.plan.node? x = some n ∧ input.contribution? n = some d := by
  constructor
  · clear h
    induction levels generalizing id with
    | zero => simp [Input.contributions]
    | succ levels ih =>
      intro hd
      rw [Input.contributions] at hd
      cases hn : input.plan.node? id with
      | none => simp [hn] at hd
      | some n =>
        simp only [hn, List.mem_append, Option.mem_toList, List.mem_flatMap] at hd
        rcases hd with hd | ⟨b, hb, hd⟩
        · exact ⟨id, n, .refl, hn, hd⟩
        · obtain ⟨x, m, hx, hm, hc⟩ := ih hd
          exact ⟨x, m, hx.head ⟨n, hn, hb⟩, hm, hc⟩
  · -- the levels suffice for the walk to `x`, since each node on it has been cut
    rintro ⟨x, m, hx, hm, hd⟩
    induction hx using ReflTransGen.head_induction_on generalizing levels with
    | refl =>
      obtain ⟨below, n, rfl, -, -⟩ := h.settled
      simp [Input.contributions, hm, hd]
    | head hab _ ih =>
      obtain ⟨below, n, rfl, -, -⟩ := h.settled
      have hb := ih (h.of_refers (Plan.refers_iff.2 (.inl hab)))
      obtain ⟨n, hn, hmem⟩ := hab
      simp only [Input.contributions, hn, List.mem_append, List.mem_flatMap]
      exact .inr ⟨_, hmem, hb⟩

/-- What closes in a subtree closes below one of its references or is opened by its root. -/
theorem mem_closings_succ {c : Closing} : c ∈ input.closings (levels + 1) id ↔
    ∃ n, input.plan.node? id = some n ∧ ((∃ b ∈ n.references, c ∈ input.closings levels b) ∨
      n.opensSlice = true ∧ c = input.closing levels id n) := by
  rw [Input.closings]
  cases input.plan.node? id with
  | none => simp
  | some n =>
    simp only [List.mem_append, List.mem_flatMap, Option.some.injEq, exists_eq_left',
      Node.mem_references_iff]
    cases n.opensSlice <;> simp

theorem eq_closing_of_mem_closings {c : Closing} (h : Cleared input owners levels id)
    (hc : c ∈ input.closings levels id) : ∃ below n, Cleared input owners (below + 1) c.root ∧
      input.plan.node? c.root = some n ∧ n.opensSlice = true ∧
        c = input.closing below c.root n := by
  induction levels generalizing id with
  | zero => simp [Input.closings] at hc
  | succ levels ih =>
    obtain ⟨n, hn, ⟨b, hb, hc⟩ | ⟨ho, rfl⟩⟩ := mem_closings_succ.1 hc
    · exact ih (h.of_refers ⟨n, hn, hb⟩) hc
    · exact ⟨levels, n, h, hn, ho, rfl⟩

theorem exists_closing (h : Cleared input owners levels id)
    (hr : ReflTransGen input.plan.Refers id r) (ho : input.plan.OpensSlice r) :
    ∃ c ∈ input.closings levels id, c.root = r := by
  induction hr using ReflTransGen.head_induction_on generalizing levels with
  | refl =>
    obtain ⟨below, n, rfl, -, -⟩ := h.settled
    obtain ⟨n, hn, hopens⟩ := ho
    exact ⟨_, mem_closings_succ.2 ⟨n, hn, .inr ⟨hopens, rfl⟩⟩, rfl⟩
  | head hab _ ih =>
    obtain ⟨below, -, rfl, -, -⟩ := h.settled
    obtain ⟨c, hc, hroot⟩ := ih (h.of_refers hab)
    obtain ⟨n, hn, hb⟩ := hab
    exact ⟨c, mem_closings_succ.2 ⟨n, hn, .inl ⟨_, hb, hc⟩⟩, hroot⟩

def Input.rootClosing (input : Input) (levels : Nat) : Closing :=
  ⟨input.plan.root, true,
    (input.contributions levels input.plan.root).foldl OpenSlice.merge .empty⟩

/-- The slices that have closed when a plan has been cut. -/
theorem closed_of_run {s : Slicing} (h : run input = .ok s) : ∃ owners n,
    Cleared input owners (input.config.maxPlanDepth.toNat + 1) input.plan.root ∧
      input.plan.node? input.plan.root = some n ∧
      s.closed.reverse = input.closings (input.config.maxPlanDepth.toNat + 1) input.plan.root ++
        if n.opensSlice then []
        else [input.rootClosing (input.config.maxPlanDepth.toNat + 1)] := by
  obtain ⟨t, hcut, hleave⟩ := cut_of_run h
  obtain ⟨n, hn, -⟩ := passes_of_cut hcut
  have he := extends_cut hcut
  have hslices := @he.slices .empty [] rfl
  have hclosed := he.closed
  refine ⟨fun id => t.owners.lookup id, n, ⟨_, t, hcut, fun _ _ h => h⟩, hn, ?_⟩
  simp only [leaveRoot, hn] at hleave
  unfold Node.effect at hleave
  unfold Node.opensSlice
  cases hk : n.kind <;>
    simp only [hk, leave, OpenSlices.pop?, hslices, Except.ok.injEq] at hleave <;> subst hleave <;>
    simp [hclosed, start, Input.rootClosing]

theorem exists_closed_of_opensSlice {s : Slicing} (h : run input = .ok s)
    (hr : input.plan.Reached r) (ho : input.plan.OpensSlice r) : ∃ c ∈ s.closed, c.root = r := by
  obtain ⟨owners, n, hcleared, -, hclosed⟩ := closed_of_run h
  obtain ⟨c, hc, hroot⟩ := exists_closing hcleared (Plan.reached_iff.1 hr) ho
  refine ⟨c, ?_, hroot⟩
  rw [← List.mem_reverse, hclosed]
  exact List.mem_append_left _ hc

theorem exists_closed_root {s : Slicing} (h : run input = .ok s) :
    ∃ c ∈ s.closed, c.root = input.plan.root := by
  obtain ⟨owners, n, -, hn, hclosed⟩ := closed_of_run h
  cases ho : n.opensSlice with
  | true => exact exists_closed_of_opensSlice h .root ⟨n, hn, ho⟩
  | false =>
    refine ⟨input.rootClosing (input.config.maxPlanDepth.toNat + 1), ?_, rfl⟩
    rw [← List.mem_reverse, hclosed]
    simp [ho]

theorem exists_range?_of_run {s : Slicing} {n : Node} {range : UInt32} {predicate : Option Expr}
    (h : run input = .ok s) (hr : input.plan.Reached id) (hn : input.plan.node? id = some n)
    (hs : n.Scans range predicate) : ∃ entry, input.plan.range? range = some entry := by
  obtain ⟨owners, -, hcleared, -, -⟩ := closed_of_run h
  obtain ⟨k, hk⟩ := hr
  obtain ⟨_, -, hid⟩ := cleared_of_reachedIn hcleared hk
  obtain ⟨_, m, -, hm, hsettled⟩ := hid.settled
  cases hn.symm.trans hm
  exact Option.isSome_iff_exists.1 (hsettled.ranged range predicate hs)

theorem reaches_of_mem_closings {input : Input} {levels : Nat} {c : Closing}
    (hc : c ∈ input.closings levels id) : ReflTransGen input.plan.Refers id c.root := by
  induction levels generalizing id with
  | zero => simp [Input.closings] at hc
  | succ levels ih =>
    obtain ⟨n, hn, ⟨b, hb, hc⟩ | ⟨-, rfl⟩⟩ := mem_closings_succ.1 hc
    · exact (ih hc).head ⟨n, hn, hb⟩
    · exact .refl

/-- Each slice that closes is one that a node in reach opens, or that of a root that opens none. -/
theorem closed_cases {s : Slicing} (h : run input = .ok s) {c : Closing} (hc : c ∈ s.closed) :
    (∃ owners below n, input.plan.Reached c.root ∧ Cleared input owners (below + 1) c.root ∧
      input.plan.node? c.root = some n ∧ n.opensSlice = true ∧ c = input.closing below c.root n) ∨
    ∃ owners levels, ¬input.plan.OpensSlice input.plan.root ∧
      Cleared input owners levels input.plan.root ∧ c = input.rootClosing levels := by
  obtain ⟨owners, n, hcleared, hn, hclosed⟩ := closed_of_run h
  rw [← List.mem_reverse, hclosed, List.mem_append] at hc
  rcases hc with hc | hc
  · obtain ⟨below, m, hroot, hm, ho, he⟩ := eq_closing_of_mem_closings hcleared hc
    have hreached := Plan.reached_iff.2 (reaches_of_mem_closings hc)
    exact .inl ⟨owners, below, m, hreached, hroot, hm, ho, he⟩
  · cases ho : n.opensSlice with
    | true => simp [ho] at hc
    | false =>
      simp only [ho, Bool.false_eq_true, ↓reduceIte, List.mem_singleton] at hc
      have hnot : ¬input.plan.OpensSlice input.plan.root := by
        simp [Plan.opensSlice_iff_of_node? hn, ho]
      exact .inr ⟨owners, _, hnot, hcleared, hc⟩

theorem root_or_opensSlice_of_closed {s : Slicing} (h : run input = .ok s)
    {c : Closing} (hc : c ∈ s.closed) : c.root = input.plan.root ∨
      input.plan.Reached c.root ∧ input.plan.OpensSlice c.root := by
  rcases closed_cases h hc with ⟨-, -, n, hreached, -, hn, ho, -⟩ | ⟨-, levels, -, -, rfl⟩
  · exact .inr ⟨hreached, n, hn, ho⟩
  · exact .inl rfl

theorem sliceContributions_of_opensSlice {n : Node} (h : Cleared input owners (levels + 1) r)
    (hn : input.plan.node? r = some n) (ho : n.opensSlice = true) :
    input.sliceContributions r = {d | d ∈ n.enters.flatMap (input.contributions levels)} := by
  ext d
  constructor
  · rintro ⟨x, k, ⟨a, ha, hx⟩ | ⟨hnot, -⟩, hk, hd⟩
    · have hca := h.of_refers (Plan.refers_iff.2 (.inr ha))
      obtain ⟨m, hm, ha⟩ := ha
      cases hn.symm.trans hm
      exact List.mem_flatMap.2 ⟨a, ha, (mem_contributions hca).2 ⟨x, k, hx, hk, hd⟩⟩
    · exact absurd ⟨n, hn, ho⟩ hnot
  · intro hd
    obtain ⟨a, ha, hd⟩ := List.mem_flatMap.1 hd
    have henters : input.plan.Enters r a := ⟨n, hn, ha⟩
    have hca := h.of_refers (Plan.refers_iff.2 (.inr henters))
    obtain ⟨x, k, hx, hk, hd⟩ := (mem_contributions hca).1 hd
    exact ⟨x, k, .inl ⟨a, henters, hx⟩, hk, hd⟩

theorem sliceContributions_of_not_opensSlice (h : Cleared input owners levels r)
    (hnot : ¬input.plan.OpensSlice r) :
    input.sliceContributions r = {d | d ∈ input.contributions levels r} := by
  ext d
  refine Iff.trans ?_ (mem_contributions h).symm
  constructor
  · rintro ⟨x, k, ⟨a, ha, -⟩ | ⟨-, hx⟩, hk, hd⟩
    · exact absurd ha.opensSlice hnot
    · exact ⟨x, k, hx, hk, hd⟩
  · rintro ⟨x, k, hx, hk, hd⟩
    exact ⟨x, k, .inr ⟨hnot, hx⟩, hk, hd⟩

/-- Every slice that closes has merged just what the nodes of the slice contribute. -/
theorem exists_contributions_of_closed {s : Slicing} (h : run input = .ok s) {c : Closing}
    (hc : c ∈ s.closed) : ∃ ds : List Decision, input.sliceContributions c.root = {d | d ∈ ds} ∧
      c.slice = ds.foldl OpenSlice.merge .empty := by
  rcases closed_cases h hc with ⟨owners, below, n, -, hroot, hn, ho, he⟩ |
    ⟨owners, levels, hnot, hroot, rfl⟩
  · exact ⟨_, sliceContributions_of_opensSlice hroot hn ho, congrArg Closing.slice he⟩
  · exact ⟨_, sliceContributions_of_not_opensSlice hroot hnot, rfl⟩

/-- All closings of one node close the same slice. -/
theorem slice_eq_of_root_eq {s : Slicing} (h : run input = .ok s) {c d : Closing}
    (hc : c ∈ s.closed) (hd : d ∈ s.closed) (hroot : c.root = d.root) : c.slice = d.slice := by
  obtain ⟨ds, hds, hslice⟩ := exists_contributions_of_closed h hc
  obtain ⟨es, hes, hslice'⟩ := exists_contributions_of_closed h hd
  rw [hroot, hes] at hds
  rw [hslice, hslice', OpenSlice.foldl_merge_of_mem_iff fun e => (Set.ext_iff.1 hds e).symm]

/-- Every slice that closes settles on what is contributed to it. -/
theorem settlesOn_of_closed {s : Slicing} (h : run input = .ok s) (fallback : SegmentId)
    {c : Closing} (hc : c ∈ s.closed) :
    SettlesOn fallback (input.sliceContributions c.root) (c.decision fallback) := by
  obtain ⟨ds, hds, hslice⟩ := exists_contributions_of_closed h hc
  obtain ⟨root, counted, slice⟩ := c
  cases hslice
  rw [hds]
  exact settlesOn_decision fallback _ _ _

end Slicing

namespace Annotations

theorem getElem?_foldl_insert (decide : Closing → Decision) (cs : List Closing) (id : NodeId) :
    (cs.foldl (fun m c => m.insert c.root (decide c)) (∅ : Std.ExtTreeMap NodeId Decision))[id]? =
      (cs.reverse.find? (·.root = id)).map decide := by
  induction cs using List.reverseRecOn with
  | nil => simp
  | append_singleton cs c ih =>
    rw [List.foldl_append]
    simp only [List.foldl_cons, List.foldl_nil, List.reverse_append, List.reverse_cons,
      List.reverse_nil, List.nil_append, List.cons_append, List.find?_cons]
    rw [Std.ExtTreeMap.getElem?_insert, ih]
    by_cases h : c.root = id
    · simp [h]
    · simp [h]

variable {config : Config} {segments : UInt64} {cs : List Closing} {id : NodeId}

theorem fallback_iff : (ofClosings config segments cs).fallback = true ↔
    config.maxDirectSlices.toNat < (ofClosings config segments cs).sliceRoots.length :=
  decide_eq_true_iff

/-- What a closed slice is dispatched as when the limit on slices is taken into account. -/
def guarded (config : Config) (segments : UInt64) (cs : List Closing) (c : Closing) : Decision :=
  if (ofClosings config segments cs).fallback then .full
  else c.decision (Placement.fallback segments)

theorem decision?_ofClosings (config : Config) (segments : UInt64) (cs : List Closing)
    (id : NodeId) : (ofClosings config segments cs).decision? id =
      (cs.reverse.find? (·.root = id)).map (guarded config segments cs) := by
  have h := getElem?_foldl_insert (guarded config segments cs) cs id
  simpa [decision?, ofClosings, guarded] using h

theorem exists_closing_of_decision? {d : Decision}
    (h : (ofClosings config segments cs).decision? id = some d) :
    ∃ c ∈ cs, c.root = id ∧ d = guarded config segments cs c := by
  rw [decision?_ofClosings, Option.map_eq_some_iff] at h
  obtain ⟨c, hc, rfl⟩ := h
  have hroot : c.root = id := by simpa using List.find?_some hc
  exact ⟨c, List.mem_reverse.1 (List.mem_of_find?_eq_some hc), hroot, rfl⟩

theorem exists_decision?_of_mem {c : Closing} (h : c ∈ cs) :
    ∃ d, (ofClosings config segments cs).decision? c.root = some d := by
  rw [decision?_ofClosings]
  cases hf : cs.reverse.find? (·.root = c.root) with
  | none => simpa using List.find?_eq_none.1 hf c (List.mem_reverse.2 h)
  | some c' => exact ⟨_, rfl⟩

end Annotations

namespace Plan

variable {plan : Plan} {catalog : Catalog} {config : Config} {a : Annotations}

/-- A recorded decision is full if there are too many slices, and otherwise what the contributions
of the slice settle on. -/
theorem decision?_cases (h : plan.annotate catalog config = .ok a) {r : NodeId} {d : Decision}
    (hd : a.decision? r = some d) : a.fallback = true ∧ d = .full ∨
      a.fallback = false ∧ SettlesOn (Placement.fallback catalog.segments)
        (Slicing.Input.sliceContributions ⟨catalog, config, plan⟩ r) d := by
  obtain ⟨s, hs, rfl⟩ := Slicing.run_of_annotate h
  obtain ⟨c, hc, rfl, rfl⟩ := Annotations.exists_closing_of_decision? hd
  unfold Annotations.guarded
  cases hf : (Annotations.ofClosings config catalog.segments s.closed.reverse).fallback with
  | true => exact .inl ⟨rfl, rfl⟩
  | false => exact .inr ⟨rfl, Slicing.settlesOn_of_closed hs _ (List.mem_reverse.1 hc)⟩

theorem exists_decision?_of_closed (h : plan.annotate catalog config = .ok a) {s : Slicing}
    (hs : Slicing.run ⟨catalog, config, plan⟩ = .ok s) {c : Closing} (hc : c ∈ s.closed) :
    ∃ d, a.decision? c.root = some d := by
  obtain ⟨t, ht, rfl⟩ := Slicing.run_of_annotate h
  cases hs.symm.trans ht
  exact Annotations.exists_decision?_of_mem (List.mem_reverse.2 hc)

theorem exists_decision?_iff {r : NodeId} (h : plan.annotate catalog config = .ok a) :
    (∃ d, a.decision? r = some d) ↔ r = plan.root ∨ plan.Reached r ∧ plan.OpensSlice r := by
  obtain ⟨s, hs, rfl⟩ := Slicing.run_of_annotate h
  constructor
  · rintro ⟨d, hd⟩
    obtain ⟨c, hc, rfl, -⟩ := Annotations.exists_closing_of_decision? hd
    exact Slicing.root_or_opensSlice_of_closed hs (List.mem_reverse.1 hc)
  · intro hr
    obtain ⟨c, hc, rfl⟩ : ∃ c ∈ s.closed, c.root = r := by
      rcases hr with rfl | ⟨hr, ho⟩
      · exact Slicing.exists_closed_root hs
      · exact Slicing.exists_closed_of_opensSlice hs hr ho
    exact exists_decision?_of_closed h hs hc

theorem settlesOn_of_decision? (h : plan.annotate catalog config = .ok a)
    (hf : a.fallback = false) {r : NodeId} {d : Decision} (hd : a.decision? r = some d) :
    SettlesOn (Placement.fallback catalog.segments)
      (Slicing.Input.sliceContributions ⟨catalog, config, plan⟩ r) d := by
  rcases decision?_cases h hd with ⟨ht, -⟩ | ⟨-, hsettles⟩
  · simp [hf] at ht
  · exact hsettles

theorem decision?_of_closed (h : plan.annotate catalog config = .ok a) (hf : a.fallback = false)
    {s : Slicing} (hs : Slicing.run ⟨catalog, config, plan⟩ = .ok s) {c : Closing}
    (hc : c ∈ s.closed) :
    a.decision? c.root = some (c.decision (Placement.fallback catalog.segments)) := by
  obtain ⟨d, hd⟩ := exists_decision?_of_closed h hs hc
  rw [hd, (settlesOn_of_decision? h hf hd).unique (Slicing.settlesOn_of_closed hs _ hc)]

/-- A recorded decision is the one that the contributions of the slice settle on, and every closing
of the slice comes to the recorded decision. -/
theorem decision_iff_settlesOn (h : plan.annotate catalog config = .ok a)
    (hf : a.fallback = false) :
    (∀ r d, a.decision? r = some d → ∀ e, SettlesOn (Placement.fallback catalog.segments)
      (Slicing.Input.sliceContributions ⟨catalog, config, plan⟩ r) e ↔ e = d) ∧
    ∀ s, Slicing.run ⟨catalog, config, plan⟩ = .ok s → ∀ c ∈ s.closed,
      a.decision? c.root = some (c.decision (Placement.fallback catalog.segments)) := by
  refine ⟨fun r d hd e => ?_, fun s hs c hc => decision?_of_closed h hf hs hc⟩
  have hsettles := settlesOn_of_decision? h hf hd
  refine ⟨fun he => he.unique hsettles, ?_⟩
  rintro rfl
  exact hsettles

def keyedTables : StoredCatalog :=
  (StoredCatalog.empty 4).add ⟨"public", "t"⟩ (.hashed [⟨⟨none, "k", 0⟩, .integer⟩] 4)

def keyedCatalog : Catalog := keyedTables

/-- `k = value` -/
def keyIs (value : Int64) : Expr := .equals (.column ⟨none, "k", 0⟩) (.literal (.int value))

/-- An append whose targets hold two sub-plans, of which one is an initial plan, that share a plan:
a motion above a scan for one key. The append itself scans for another key. -/
def sharedPlan : Plan where
  nodes := #[
    { kind := .operator .append, targets := [.subPlan ⟨1⟩, .subPlan ⟨2⟩], children := [⟨5⟩] },
    { kind := .subPlan ⟨3⟩ true [] },
    { kind := .subPlan ⟨3⟩ false [] },
    { kind := .motion .gather, children := [⟨4⟩] },
    { kind := .seqScan 1, qual := keyIs 7 },
    { kind := .seqScan 1, qual := keyIs 8 }]
  root := ⟨0⟩
  ranges := #[.relation ⟨"public", "t"⟩ "t"]

theorem sharedPlan_decision : ∃ a,
    sharedPlan.annotate keyedCatalog { maxDirectSlices := 5 } = .ok a ∧ a.fallback = false ∧
      a.decision? ⟨3⟩ = some (.exactly [0]) ∧
      SettlesOn (Placement.fallback 4)
        (Slicing.Input.sliceContributions ⟨keyedCatalog, { maxDirectSlices := 5 }, sharedPlan⟩ ⟨3⟩)
        (.exactly [0]) := by
  obtain ⟨a, hok, hf, hd⟩ : ∃ a,
      sharedPlan.annotate keyedCatalog { maxDirectSlices := 5 } = .ok a ∧ a.fallback = false ∧
        a.decision? ⟨3⟩ = some (.exactly [0]) :=
    ⟨_, rfl, rfl, by decide +kernel⟩
  exact ⟨a, hok, hf, hd, ((decision_iff_settlesOn hok hf).1 _ _ hd _).2 rfl⟩

end Plan
end SliceDispatch
