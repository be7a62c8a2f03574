import SliceDispatch.Proofs.Acceptance
import SliceDispatch.Proofs.Slices
import Mathlib.Data.List.Perm.Basic

namespace SliceDispatch

structure Node.Reordered (n m : Node) : Prop where
  kind : n.kind = m.kind
  qual : n.qual = m.qual
  targets : n.targets.Perm m.targets
  children : n.children.Perm m.children
  initPlans : n.initPlans.Perm m.initPlans

namespace Node.Reordered

variable {n m : Node}

theorem symm (h : n.Reordered m) : m.Reordered n :=
  ⟨h.kind.symm, h.qual.symm, h.targets.symm, h.children.symm, h.initPlans.symm⟩

theorem owned (h : n.Reordered m) : n.owned.Perm m.owned := by
  have hexpressions : n.expressions.Perm m.expressions := by
    rw [expressions, expressions, h.qual, h.kind]
    exact (h.targets.append_right _).append_right _
  exact ((hexpressions.flatMap_right _).append h.children).append h.initPlans

theorem references (h : n.Reordered m) : n.references.Perm m.references := by
  rw [Node.references, Node.references, runs, runs, h.kind]
  exact h.owned.append_right _

theorem opensSlice (h : n.Reordered m) : n.opensSlice = m.opensSlice := by
  rw [Node.opensSlice, Node.opensSlice, h.kind]

theorem stays (h : n.Reordered m) : n.stays.Perm m.stays := by
  have howned := h.owned
  rw [Node.stays, Node.stays, h.kind]
  cases m.kind <;> first | exact .refl _ | exact howned

theorem enters (h : n.Reordered m) : n.enters.Perm m.enters := by
  have howned := h.owned
  rw [Node.enters, Node.enters, h.kind]
  cases m.kind with
  | subPlan plan isInit args =>
    cases isInit with
    | true => exact howned.cons plan
    | false => exact howned
  | motion => exact howned
  | _ => exact .refl _

theorem scans (h : n.Reordered m) {range : UInt32} {predicate : Option Expr}
    (hs : n.Scans range predicate) : m.Scans range predicate := by
  rcases hs with hk | hk
  · rw [h.qual]
    exact .seq (h.kind ▸ hk)
  · exact .index (h.kind ▸ hk)

end Node.Reordered

namespace Plan

/-- The plans differ in the order of what their nodes list. -/
structure Reordered (p q : Plan) : Prop where
  root : p.root = q.root
  ranges : p.ranges = q.ranges
  nodes : List.Forall₂ Node.Reordered p.nodes.toList q.nodes.toList

namespace Reordered

variable {p q : Plan} {id : NodeId} {n : Node}

theorem symm (h : p.Reordered q) : q.Reordered p :=
  ⟨h.root.symm, h.ranges.symm, h.nodes.flip.imp fun _ _ hnm => hnm.symm⟩

theorem node? (h : p.Reordered q) (hn : p.node? id = some n) :
    ∃ m, q.node? id = some m ∧ n.Reordered m := by
  have hnodes := h.nodes
  unfold Plan.node? at hn ⊢
  rw [← Array.getElem?_toList] at hn ⊢
  generalize id.index.toNat = i at hn ⊢
  generalize p.nodes.toList = ns at hnodes hn
  generalize q.nodes.toList = ms at hnodes ⊢
  induction hnodes generalizing i with
  | nil => cases hn
  | cons hnm _ ih =>
    cases i with
    | zero =>
      cases hn
      exact ⟨_, rfl, hnm⟩
    | succ i => exact ih i hn

theorem node?_eq_none (h : p.Reordered q) (hn : p.node? id = none) : q.node? id = none := by
  cases hm : q.node? id with
  | none => rfl
  | some m =>
    obtain ⟨n, hn', -⟩ := h.symm.node? hm
    cases hn.symm.trans hn'

theorem range? (h : p.Reordered q) (range : UInt32) : p.range? range = q.range? range := by
  rw [Plan.range?, Plan.range?, h.ranges]

theorem refers (h : p.Reordered q) {a b : NodeId} (hab : p.Refers a b) : q.Refers a b := by
  obtain ⟨n, hn, hb⟩ := hab
  obtain ⟨m, hm, hnm⟩ := h.node? hn
  exact ⟨m, hm, hnm.references.mem_iff.1 hb⟩

theorem reachedIn (h : p.Reordered q) {k : Nat} (hk : p.ReachedIn k id) : q.ReachedIn k id := by
  induction hk with
  | root => exact h.root ▸ .root
  | step _ hab ih => exact ih.step (h.refers hab)

theorem reached (h : p.Reordered q) (hr : p.Reached id) : q.Reached id :=
  let ⟨k, hk⟩ := hr
  ⟨k, h.reachedIn hk⟩

theorem ownedBy (h : p.Reordered q) (id : NodeId) : (p.ownedBy id).Perm (q.ownedBy id) := by
  cases hn : p.node? id with
  | none => simp [Plan.ownedBy, hn, h.node?_eq_none hn]
  | some n =>
    obtain ⟨m, hm, hnm⟩ := h.node? hn
    rw [ownedBy_of_node? hn, ownedBy_of_node? hm]
    exact hnm.owned

theorem acceptable (h : p.Reordered q) {limit : UInt64} (hp : p.Acceptable limit) :
    q.Acceptable limit where
  present id hr := by
    obtain ⟨n, hn⟩ := hp.present id (h.symm.reached hr)
    obtain ⟨m, hm, -⟩ := h.node? hn
    exact ⟨m, hm⟩
  recognized id m tag hr hm := by
    obtain ⟨n, hn, hmn⟩ := h.symm.node? hm
    rw [hmn.kind]
    exact hp.recognized id n tag (h.symm.reached hr) hn
  ranged id m range predicate hr hm hs := by
    obtain ⟨n, hn, hmn⟩ := h.symm.node? hm
    have hrange := hp.ranged id n range predicate (h.symm.reached hr) hn (hmn.scans hs)
    rwa [InRange, h.ranges] at hrange
  rootFree owner hr := by
    rintro ⟨m, hm, hid⟩
    obtain ⟨n, hn, hmn⟩ := h.symm.node? hm
    refine hp.rootFree owner (h.symm.reached hr) ⟨n, hn, ?_⟩
    rw [h.root]
    exact hmn.owned.mem_iff.1 hid
  singlyOwned owners hnd hr id := by
    have hperm : (owners.flatMap p.ownedBy).Perm (owners.flatMap q.ownedBy) :=
      .flatMap_left owners fun a _ => h.ownedBy a
    rw [← hperm.count_eq]
    exact hp.singlyOwned owners hnd (fun a ha => h.symm.reached (hr a ha)) id
  shallow k id hk := hp.shallow k id (h.symm.reachedIn hk)

end Reordered

end Plan

namespace Slicing

variable {p q : Plan} (catalog : Catalog) (config : Config)

theorem contribution?_of_reordered (h : p.Reordered q) {n m : Node} (hnm : n.Reordered m) :
    Input.contribution? ⟨catalog, config, p⟩ n = Input.contribution? ⟨catalog, config, q⟩ m := by
  simp only [Input.contribution?, hnm.kind, hnm.qual, h.range?]

theorem contributions_perm (h : p.Reordered q) (levels : Nat) (id : NodeId) :
    (Input.contributions ⟨catalog, config, p⟩ levels id).Perm
      (Input.contributions ⟨catalog, config, q⟩ levels id) := by
  induction levels generalizing id with
  | zero => exact .refl _
  | succ levels ih =>
    simp only [Input.contributions]
    cases hn : p.node? id with
    | none => simp [h.node?_eq_none hn]
    | some n =>
      obtain ⟨m, hm, hnm⟩ := h.node? hn
      simp only [hm, contribution?_of_reordered catalog config h hnm]
      exact (hnm.stays.flatMap fun b _ => ih b).append_left _

/-- A slice closes in the same way, since the order of its contributions does not matter. -/
theorem closing_of_reordered (h : p.Reordered q) (levels : Nat) (id : NodeId) {n m : Node}
    (hnm : n.Reordered m) : Input.closing ⟨catalog, config, p⟩ levels id n =
      Input.closing ⟨catalog, config, q⟩ levels id m := by
  have hperm := hnm.enters.flatMap fun b _ => contributions_perm catalog config h levels b
  simp only [Input.closing, hnm.kind, OpenSlice.foldl_merge_of_mem_iff fun d => hperm.mem_iff]

theorem closings_perm (h : p.Reordered q) (levels : Nat) (id : NodeId) :
    (Input.closings ⟨catalog, config, p⟩ levels id).Perm
      (Input.closings ⟨catalog, config, q⟩ levels id) := by
  induction levels generalizing id with
  | zero => exact .refl _
  | succ levels ih =>
    simp only [Input.closings]
    cases hn : p.node? id with
    | none => simp [h.node?_eq_none hn]
    | some n =>
      obtain ⟨m, hm, hnm⟩ := h.node? hn
      simp only [hm, hnm.opensSlice, closing_of_reordered catalog config h levels id hnm]
      exact ((hnm.stays.append hnm.enters).flatMap fun b _ => ih b).append_right _

theorem rootClosing_of_reordered (h : p.Reordered q) (levels : Nat) :
    Input.rootClosing ⟨catalog, config, p⟩ levels =
      Input.rootClosing ⟨catalog, config, q⟩ levels := by
  have hperm := contributions_perm catalog config h levels q.root
  simp only [Input.rootClosing, h.root, OpenSlice.foldl_merge_of_mem_iff fun d => hperm.mem_iff]

variable {catalog : Catalog} {config : Config}

theorem closed_perm (h : p.Reordered q) {s t : Slicing} (hs : run ⟨catalog, config, p⟩ = .ok s)
    (ht : run ⟨catalog, config, q⟩ = .ok t) : s.closed.reverse.Perm t.closed.reverse := by
  obtain ⟨-, n, -, hn, hsc⟩ := closed_of_run hs
  obtain ⟨-, m, -, hm, htc⟩ := closed_of_run ht
  obtain ⟨m', hm', hnm⟩ := h.node? hn
  dsimp only at hm hsc htc
  rw [h.root, hm] at hm'
  cases hm'
  rw [hsc, htc, hnm.opensSlice, h.root, rootClosing_of_reordered catalog config h]
  exact (closings_perm catalog config h _ _).append_right _

/-- All closings of one slice come to the same decision. -/
theorem decision_eq_of_root_eq {input : Input} {s : Slicing} (h : run input = .ok s)
    (fallback : SegmentId) {c d : Closing} (hc : c ∈ s.closed) (hd : d ∈ s.closed)
    (hroot : c.root = d.root) : c.decision fallback = d.decision fallback := by
  rw [Closing.decision, Closing.decision, slice_eq_of_root_eq h hc hd hroot]

end Slicing

namespace Annotations

variable {cs ds : List Closing} (config : Config) (segments : UInt64)

theorem sliceRoots_perm (h : cs.Perm ds) :
    (ofClosings config segments cs).sliceRoots.Perm (ofClosings config segments ds).sliceRoots :=
  (h.filter _).map _

theorem fallback_eq_of_perm (h : cs.Perm ds) :
    (ofClosings config segments cs).fallback = (ofClosings config segments ds).fallback := by
  have hlength := (sliceRoots_perm config segments h).length_eq
  simp only [ofClosings] at hlength ⊢
  rw [hlength]

variable {config : Config} {segments : UInt64}

theorem decision?_of_perm (h : cs.Perm ds)
    (hunique : ∀ c ∈ cs, ∀ d ∈ cs, c.root = d.root →
      c.decision (Placement.fallback segments) = d.decision (Placement.fallback segments))
    {id : NodeId} {e : Decision} (he : (ofClosings config segments cs).decision? id = some e) :
    (ofClosings config segments ds).decision? id = some e := by
  obtain ⟨c, hc, rfl, rfl⟩ := exists_closing_of_decision? he
  obtain ⟨e, he⟩ : ∃ e, (ofClosings config segments ds).decision? c.root = some e :=
    exists_decision?_of_mem (h.mem_iff.1 hc)
  obtain ⟨d, hd, hroot, rfl⟩ := exists_closing_of_decision? he
  rw [he, guarded, guarded, fallback_eq_of_perm config segments h,
    hunique d (h.mem_iff.2 hd) c hc hroot]

/-- The order of closings does not matter if those of one node come to one decision. -/
theorem decisions_eq_of_perm (h : cs.Perm ds)
    (hunique : ∀ c ∈ cs, ∀ d ∈ cs, c.root = d.root →
      c.decision (Placement.fallback segments) = d.decision (Placement.fallback segments)) :
    (ofClosings config segments cs).decisions = (ofClosings config segments ds).decisions := by
  apply Std.ExtTreeMap.ext_getElem?
  intro id
  refine Option.ext fun e => ⟨decision?_of_perm h hunique, decision?_of_perm h.symm ?_⟩
  exact fun c hc d hd => hunique c (h.mem_iff.2 hc) d (h.mem_iff.2 hd)

end Annotations

namespace Plan

/-- Plans that differ in the order of what their nodes list are both annotated or both refused, and
their annotations differ in the order of the slice roots only. -/
theorem annotate_of_reordered {p q : Plan} (h : p.Reordered q) (catalog : Catalog)
    (config : Config) :
    (∃ f g, p.annotate catalog config = .error f ∧ q.annotate catalog config = .error g) ∨
      ∃ a b, p.annotate catalog config = .ok a ∧ q.annotate catalog config = .ok b ∧
        a.decisions = b.decisions ∧ a.sliceRoots.Perm b.sliceRoots ∧ a.fallback = b.fallback := by
  unfold annotate
  cases hp : Slicing.run ⟨catalog, config, p⟩ with
  | error f =>
    cases hq : Slicing.run ⟨catalog, config, q⟩ with
    | error g => exact .inl ⟨f, g, rfl, rfl⟩
    | ok t =>
      have hacceptable := h.symm.acceptable (Slicing.acceptable_of_run hq)
      obtain ⟨s, hs⟩ := @Slicing.exists_run_of_acceptable ⟨catalog, config, p⟩ hacceptable
      cases hp.symm.trans hs
  | ok s =>
    have hacceptable := h.acceptable (Slicing.acceptable_of_run hp)
    obtain ⟨t, ht⟩ := @Slicing.exists_run_of_acceptable ⟨catalog, config, q⟩ hacceptable
    have hperm := Slicing.closed_perm h hp ht
    rw [ht]
    refine .inr ⟨_, _, rfl, rfl, Annotations.decisions_eq_of_perm hperm fun c hc d hd hroot => ?_,
      Annotations.sliceRoots_perm _ _ hperm, Annotations.fallback_eq_of_perm _ _ hperm⟩
    exact Slicing.decision_eq_of_root_eq hp _ (List.mem_reverse.1 hc) (List.mem_reverse.1 hd) hroot

def gathered (children : List NodeId) : Plan where
  nodes := #[
    { kind := .operator .append, children },
    { kind := .motion .gather, children := [⟨3⟩] },
    { kind := .motion .gather, children := [⟨4⟩] },
    { kind := .seqScan 1, qual := keyIs 7 },
    { kind := .seqScan 1, qual := keyIs 8 }]
  root := ⟨0⟩
  ranges := #[.relation ⟨"public", "t"⟩ "t"]

theorem annotate_gathered_swapped : (gathered [⟨1⟩, ⟨2⟩]).Reordered (gathered [⟨2⟩, ⟨1⟩]) ∧
    ∃ a b, (gathered [⟨1⟩, ⟨2⟩]).annotate keyedCatalog { maxDirectSlices := 5 } = .ok a ∧
      (gathered [⟨2⟩, ⟨1⟩]).annotate keyedCatalog { maxDirectSlices := 5 } = .ok b ∧
      a.sliceRoots = [⟨1⟩, ⟨2⟩, ⟨0⟩] ∧ b.sliceRoots = [⟨2⟩, ⟨1⟩, ⟨0⟩] ∧
      a.decisions = b.decisions := by
  have same : ∀ n : Node, n.Reordered n := fun n => ⟨rfl, rfl, .refl _, .refl _, .refl _⟩
  have h : (gathered [⟨1⟩, ⟨2⟩]).Reordered (gathered [⟨2⟩, ⟨1⟩]) :=
    ⟨rfl, rfl, .cons ⟨rfl, rfl, .refl _, .swap _ _ _, .refl _⟩
      (.cons (same _) (.cons (same _) (.cons (same _) (.cons (same _) .nil))))⟩
  refine ⟨h, ?_⟩
  rcases annotate_of_reordered h keyedCatalog { maxDirectSlices := 5 } with
    ⟨f, g, ⟨⟩, -⟩ | ⟨a, b, ha, hb, hdecisions, -, -⟩
  refine ⟨a, b, ha, hb, ?_, ?_, hdecisions⟩
  · cases ha; rfl
  · cases hb; rfl

end Plan
end SliceDispatch
