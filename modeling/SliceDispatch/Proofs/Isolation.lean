import SliceDispatch.Proofs.Slices

namespace SliceDispatch

open Relation

namespace Node

theorem stays_of_isMotion {n : Node} (h : n.IsMotion) : n.stays = [] := by
  obtain ⟨type, hk⟩ := h
  simp [stays, hk]

theorem stays_of_isInitPlan {n : Node} (h : n.IsInitPlan) : n.stays = [] := by
  obtain ⟨plan, args, hk⟩ := h
  simp [stays, hk]

end Node

namespace Plan

/-- Some path of references from the root leads to `id` without a reference of `x`. -/
inductive ReachedAround (p : Plan) (x : NodeId) : NodeId → Prop
  | root : p.ReachedAround x p.root
  | step {a b} : p.ReachedAround x a → a ≠ x → p.Refers a b → p.ReachedAround x b

/-- Every path of references from the root to `id`, of which there are some, has a reference of
`x`. -/
def Behind (p : Plan) (x id : NodeId) : Prop := p.Reached id ∧ ¬p.ReachedAround x id

/-- The plans agree on all nodes that are reached around `x`, and on the range entries that these
scan. The node `x` itself is a motion in both or an init plan in both. -/
structure AgreeAround (p q : Plan) (x : NodeId) : Prop where
  root : p.root = q.root
  enclosing : ∃ n m, p.node? x = some n ∧ q.node? x = some m ∧
    (n.IsMotion ∧ m.IsMotion ∨ n.IsInitPlan ∧ m.IsInitPlan)
  nodes : ∀ id, id ≠ x → p.ReachedAround x id → q.ReachedAround x id → p.node? id = q.node? id
  ranges : ∀ id n range predicate, id ≠ x → p.ReachedAround x id → q.ReachedAround x id →
    p.node? id = some n → n.Scans range predicate → p.range? range = q.range? range

variable {p q : Plan} {x a b id r : NodeId}

theorem ReachedAround.reached (h : p.ReachedAround x id) : p.Reached id := by
  induction h with
  | root => exact .root
  | step _ _ hab ih => exact ih.step hab

namespace AgreeAround

theorem symm (h : p.AgreeAround q x) : q.AgreeAround p x where
  root := h.root.symm
  enclosing := by
    obtain ⟨n, m, hn, hm, hk⟩ := h.enclosing
    exact ⟨m, n, hm, hn, hk.imp And.symm And.symm⟩
  nodes id hid hq hp := (h.nodes id hid hp hq).symm
  ranges id n range predicate hid hq hp hn hs :=
    (h.ranges id n range predicate hid hp hq (h.nodes id hid hp hq ▸ hn) hs).symm

theorem reachedAround (h : p.AgreeAround q x) (hid : p.ReachedAround x id) :
    q.ReachedAround x id := by
  induction hid with
  | root => exact h.root ▸ .root
  | step ha hax hab ih =>
    obtain ⟨n, hn, hb⟩ := hab
    exact ih.step hax ⟨n, h.nodes _ hax ha ih ▸ hn, hb⟩

theorem node? (h : p.AgreeAround q x) (hid : p.ReachedAround x id) (hne : id ≠ x) :
    p.node? id = q.node? id :=
  h.nodes id hne hid (h.reachedAround hid)

theorem ne_of_stays (h : p.AgreeAround q x) (hab : p.Stays a b) : a ≠ x := by
  rintro rfl
  obtain ⟨n, m, hn, -, hk⟩ := h.enclosing
  obtain ⟨n', hn', hb⟩ := hab
  cases hn.symm.trans hn'
  rcases hk with ⟨hk, -⟩ | ⟨hk, -⟩
  · simp [Node.stays_of_isMotion hk] at hb
  · simp [Node.stays_of_isInitPlan hk] at hb

/-- A walk inside a slice goes around `x`, and takes the same way in both plans. -/
theorem stays_walk (h : p.AgreeAround q x) (ha : p.ReachedAround x a)
    (hab : ReflTransGen p.Stays a b) : p.ReachedAround x b ∧ ReflTransGen q.Stays a b := by
  induction hab with
  | refl => exact ⟨ha, .refl⟩
  | tail _ hbc ih =>
    obtain ⟨hb, hwalk⟩ := ih
    have hne := h.ne_of_stays hbc
    refine ⟨hb.step hne (refers_iff.2 (.inl hbc)), hwalk.tail ?_⟩
    obtain ⟨n, hn, hc⟩ := hbc
    exact ⟨n, h.node? hb hne ▸ hn, hc⟩

theorem opensSlice (h : p.AgreeAround q x) (hr : p.ReachedAround x r) (hne : r ≠ x)
    (ho : p.OpensSlice r) : q.OpensSlice r := by
  obtain ⟨n, hn, ho⟩ := ho
  exact ⟨n, h.node? hr hne ▸ hn, ho⟩

theorem sliceHolds (h : p.AgreeAround q x) (hr : p.ReachedAround x r) (hne : r ≠ x)
    (hid : p.SliceHolds r id) : p.ReachedAround x id ∧ q.SliceHolds r id := by
  rcases hid with ⟨a, ha, hwalk⟩ | ⟨hnot, hwalk⟩
  · have haround := hr.step hne (refers_iff.2 (.inr ha))
    obtain ⟨hid, hwalk⟩ := h.stays_walk haround hwalk
    obtain ⟨n, hn, ha⟩ := ha
    exact ⟨hid, .inl ⟨a, ⟨n, h.node? hr hne ▸ hn, ha⟩, hwalk⟩⟩
  · obtain ⟨hid, hwalk⟩ := h.stays_walk hr hwalk
    exact ⟨hid, .inr ⟨fun ho => hnot (h.symm.opensSlice (h.reachedAround hr) hne ho), hwalk⟩⟩

end AgreeAround

end Plan

namespace Slicing

variable {p q : Plan} {x id r : NodeId} (catalog : Catalog) (config : Config)

theorem contribution?_of_isMotion {input : Input} {n : Node} (h : n.IsMotion) :
    input.contribution? n = some .full := by
  obtain ⟨type, hk⟩ := h
  simp [Input.contribution?, hk]

theorem contribution?_of_isInitPlan {input : Input} {n : Node} (h : n.IsInitPlan) :
    input.contribution? n = none := by
  obtain ⟨plan, args, hk⟩ := h
  simp [Input.contribution?, hk]

theorem contribution?_congr {n : Node}
    (h : ∀ range predicate, n.Scans range predicate → p.range? range = q.range? range) :
    Input.contribution? ⟨catalog, config, p⟩ n = Input.contribution? ⟨catalog, config, q⟩ n := by
  rcases Input.contribution?_cases n with ⟨range, predicate, hs, hscan⟩ | hnone | hfull
  · rw [hscan, hscan]
    simp only [h range predicate hs]
  · rw [hnone, hnone]
  · rw [hfull, hfull]

/-- The nodes that are reached around `x`, and `x` itself, contribute the same in both plans. -/
theorem exists_contribution (h : p.AgreeAround q x) (hid : p.ReachedAround x id) {n : Node}
    {d : Decision} (hn : p.node? id = some n)
    (hd : Input.contribution? ⟨catalog, config, p⟩ n = some d) :
    ∃ m, q.node? id = some m ∧ Input.contribution? ⟨catalog, config, q⟩ m = some d := by
  by_cases hne : id = x
  · subst hne
    obtain ⟨n', m, hn', hm, hk⟩ := h.enclosing
    cases hn.symm.trans hn'
    refine ⟨m, hm, ?_⟩
    rcases hk with ⟨hkn, hkm⟩ | ⟨hkn, hkm⟩
    · rwa [contribution?_of_isMotion hkm, ← contribution?_of_isMotion hkn]
    · rw [contribution?_of_isInitPlan hkn] at hd
      cases hd
  · refine ⟨n, h.node? hid hne ▸ hn, ?_⟩
    rw [← hd]
    symm
    exact contribution?_congr catalog config fun range predicate hs =>
      h.ranges id n range predicate hne hid (h.reachedAround hid) hn hs

theorem sliceContributions_subset (h : p.AgreeAround q x) (hr : p.ReachedAround x r) (hne : r ≠ x) :
    Input.sliceContributions ⟨catalog, config, p⟩ r ⊆
      Input.sliceContributions ⟨catalog, config, q⟩ r := by
  rintro d ⟨id, n, hid, hn, hd⟩
  obtain ⟨haround, hid⟩ := h.sliceHolds hr hne hid
  obtain ⟨m, hm, hd⟩ := exists_contribution catalog config h haround hn hd
  exact ⟨id, m, hid, hm, hd⟩

theorem sliceContributions_eq (h : p.AgreeAround q x) (hr : p.ReachedAround x r) (hne : r ≠ x) :
    Input.sliceContributions ⟨catalog, config, p⟩ r =
      Input.sliceContributions ⟨catalog, config, q⟩ r :=
  Set.ext fun _ => ⟨fun hd => sliceContributions_subset catalog config h hr hne hd,
    fun hd => sliceContributions_subset catalog config h.symm (h.reachedAround hr) hne hd⟩

end Slicing

namespace Plan

variable {p q : Plan} {x r : NodeId} {catalog : Catalog} {config : Config} {a b : Annotations}
  {d : Decision}

theorem decision?_of_agreeAround (h : p.AgreeAround q x) (hp : p.annotate catalog config = .ok a)
    (hq : q.annotate catalog config = .ok b) (ha : a.fallback = false) (hb : b.fallback = false)
    (hne : r ≠ x) (hr : ¬p.Behind x r) (hd : a.decision? r = some d) : b.decision? r = some d := by
  have hdecided := (exists_decision?_iff hp).1 ⟨d, hd⟩
  have haround : p.ReachedAround x r := by
    by_contra hnot
    refine hr ⟨?_, hnot⟩
    rcases hdecided with rfl | ⟨hreached, -⟩
    · exact .root
    · exact hreached
  obtain ⟨e, he⟩ : ∃ e, b.decision? r = some e := by
    refine (exists_decision?_iff hq).2 ?_
    rcases hdecided with hroot | ⟨-, ho⟩
    · exact .inl (hroot.trans h.root)
    · exact .inr ⟨(h.reachedAround haround).reached, h.opensSlice haround hne ho⟩
  -- neither plan has too many slices, so that both decisions come from the contributions
  have hsettles := settlesOn_of_decision? hp ha hd
  rw [Slicing.sliceContributions_eq catalog config h haround hne] at hsettles
  rw [he, hsettles.unique (settlesOn_of_decision? hq hb he)]

/-- What lies behind a motion or an init plan has no influence on the decisions of other slices. -/
theorem decision?_eq_of_agreeAround (h : p.AgreeAround q x)
    (hp : p.annotate catalog config = .ok a) (hq : q.annotate catalog config = .ok b)
    (ha : a.fallback = false) (hb : b.fallback = false) :
    (∀ r d, r ≠ x → ¬p.Behind x r → a.decision? r = some d → b.decision? r = some d) ∧
      ∀ r d, r ≠ x → ¬q.Behind x r → b.decision? r = some d → a.decision? r = some d :=
  ⟨fun _ _ hne hr => decision?_of_agreeAround h hp hq ha hb hne hr,
    fun _ _ hne hr => decision?_of_agreeAround h.symm hq hp hb ha hne hr⟩

/-- An append with an init plan, which runs what is below, and with a scan for one key. -/
def withInitPlan (below : List Node) : Plan where
  nodes := List.toArray (
    { kind := .operator .append, targets := [.subPlan ⟨1⟩], children := [⟨2⟩] } ::
    { kind := .subPlan ⟨3⟩ true [] } ::
    { kind := .seqScan 1, qual := keyIs 8 } :: below)
  root := ⟨0⟩
  ranges := #[.relation ⟨"public", "t"⟩ "t"]

theorem withInitPlan_reachedAround {below : List Node} {id : NodeId}
    (h : (withInitPlan below).ReachedAround ⟨1⟩ id) : id = ⟨0⟩ ∨ id = ⟨1⟩ ∨ id = ⟨2⟩ := by
  induction h with
  | root => exact .inl rfl
  | step _ hne hab ih =>
    obtain ⟨n, hn, hb⟩ := hab
    rcases ih with rfl | rfl | rfl
    · have hrefs : n.references = [⟨1⟩, ⟨2⟩] := by cases hn; rfl
      rw [hrefs] at hb
      simpa using Or.inr hb
    · exact absurd rfl hne
    · have hrefs : n.references = [] := by cases hn; rfl
      rw [hrefs] at hb
      cases hb

theorem withInitPlan_agreeAround (below below' : List Node) :
    (withInitPlan below).AgreeAround (withInitPlan below') ⟨1⟩ where
  root := rfl
  enclosing := ⟨_, _, rfl, rfl, .inr ⟨⟨_, _, rfl⟩, ⟨_, _, rfl⟩⟩⟩
  nodes id _ hid _ := by
    rcases withInitPlan_reachedAround hid with rfl | rfl | rfl <;> rfl
  ranges _ _ _ _ _ _ _ _ _ := rfl

theorem withInitPlan_decision : ∃ a b,
    (withInitPlan [{ kind := .seqScan 1, qual := keyIs 7 }]).annotate keyedCatalog {} = .ok a ∧
      (withInitPlan [{ kind := .seqScan 1 }]).annotate keyedCatalog {} = .ok b ∧
      a.decision? ⟨1⟩ ≠ b.decision? ⟨1⟩ ∧ a.decision? ⟨0⟩ = some (.exactly [2]) ∧
      b.decision? ⟨0⟩ = some (.exactly [2]) := by
  obtain ⟨a, hp, ha, hx, hd⟩ : ∃ a,
      (withInitPlan [{ kind := .seqScan 1, qual := keyIs 7 }]).annotate keyedCatalog {} = .ok a ∧
        a.fallback = false ∧ a.decision? ⟨1⟩ = some (.exactly [0]) ∧
        a.decision? ⟨0⟩ = some (.exactly [2]) :=
    ⟨_, rfl, rfl, by decide +kernel, by decide +kernel⟩
  obtain ⟨b, hq, hb, hy⟩ : ∃ b,
      (withInitPlan [{ kind := .seqScan 1 }]).annotate keyedCatalog {} = .ok b ∧
        b.fallback = false ∧ b.decision? ⟨1⟩ = some .full :=
    ⟨_, rfl, rfl, by decide +kernel⟩
  refine ⟨a, b, hp, hq, ?_, hd, ?_⟩
  · rw [hx, hy]
    decide
  · refine (decision?_eq_of_agreeAround (withInitPlan_agreeAround _ _) hp hq ha hb).1 _ _ ?_ ?_ hd
    · decide
    · exact fun h => h.2 .root

end Plan
end SliceDispatch
