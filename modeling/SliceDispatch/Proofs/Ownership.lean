import SliceDispatch.Proofs.OwnedNodes

namespace SliceDispatch.Slicing

variable {input : Input} {visit : NodeId → Slicing → Except Fault Slicing}
variable {root owner id : NodeId} {levels : Nat} {s t u : Slicing}

def KeepsOwners (s t : Slicing) : Prop :=
  ∀ id owner, s.owners.lookup id = some owner → t.owners.lookup id = some owner

theorem KeepsOwners.refl (s : Slicing) : s.KeepsOwners s := fun _ _ h => h

theorem KeepsOwners.trans (h : s.KeepsOwners t) (k : t.KeepsOwners u) : s.KeepsOwners u :=
  fun id owner ho => k id owner (h id owner ho)

theorem keepsOwners_of_eq (h : t.owners = s.owners) : s.KeepsOwners t := by
  intro id owner ho
  rwa [h]

theorem keepsOwners_enter (s : Slicing) : s.KeepsOwners s.enter := fun _ _ h => h

theorem owners_inform {d : Decision} (h : s.inform d = .ok t) : t.owners = s.owners := by
  unfold inform at h
  split at h
  · cases h
    rfl
  · cases h

theorem owners_informIf {d : Option Decision} (h : s.informIf d = .ok t) : t.owners = s.owners := by
  cases d with
  | none =>
    cases h
    rfl
  | some d => exact owners_inform h

theorem owners_leave {counted : Bool} (h : s.leave id counted = .ok t) : t.owners = s.owners := by
  unfold leave at h
  split at h
  · cases h
    rfl
  · cases h

theorem lookup_adopt (h : s.adopt root owner id = .ok t) : t.owners.lookup id = some owner := by
  obtain ⟨-, ⟨-, rfl⟩ | ⟨hl, rfl⟩⟩ := owners_adopt_cases h
  · simp
  · exact hl

theorem keepsOwners_adopt (h : s.adopt root owner id = .ok t) : s.KeepsOwners t := by
  obtain ⟨-, ⟨hl, rfl⟩ | ⟨-, rfl⟩⟩ := owners_adopt_cases h
  · intro b a hb
    have hne : b ≠ id := by
      rintro rfl
      rw [hl] at hb
      cases hb
    simpa [List.lookup_cons, beq_eq_false_iff_ne.2 hne] using hb
  · exact .refl _

theorem keepsOwners_cutOwned {before ids : List NodeId}
    (h : cutOwned root owner visit before ids s = .ok t)
    (hvisit : ∀ id s t, visit id s = .ok t → s.KeepsOwners t) : s.KeepsOwners t := by
  induction ids generalizing before s with
  | nil =>
    cases h
    exact .refl _
  | cons id ids ih =>
    obtain ⟨-, u, v, hu, hv, ht⟩ := cutOwned_cons h
    exact ((keepsOwners_adopt hu).trans (hvisit _ _ _ hv)).trans (ih ht)

theorem keepsOwners_cut (h : cut input levels id s = .ok t) : s.KeepsOwners t := by
  induction levels generalizing id s t with
  | zero => cases h
  | succ levels ih =>
    obtain ⟨n, -, hp⟩ := passes_of_cut h
    cases hp with
    | stay _ _ _ hu ht =>
      exact (keepsOwners_of_eq (owners_informIf hu)).trans
        (keepsOwners_cutOwned ht fun _ _ _ => ih)
    | motion _ hu hv ht =>
      have hw := keepsOwners_cutOwned hv fun _ _ _ => ih
      exact (keepsOwners_of_eq (owners_inform hu)).trans
        (hw.trans (keepsOwners_of_eq (owners_leave ht)))
    | initPlan _ hu hv ht =>
      have hw := keepsOwners_cutOwned hv fun _ _ _ => ih
      exact (ih hu).trans (hw.trans (keepsOwners_of_eq (owners_leave ht)))
    | plan _ hu hv ht =>
      have hw := keepsOwners_cutOwned hv fun _ _ _ => ih
      exact (ih hu).trans (hw.trans (keepsOwners_of_eq (owners_leave ht)))

theorem nodup_of_cutOwned {before ids : List NodeId}
    (h : cutOwned root owner visit before ids s = .ok t) :
    ids.Nodup ∧ ∀ id ∈ ids, id ∉ before := by
  have hmeets := @meets_cutOwned root owner visit before ids s
  rw [h] at hmeets
  exact ⟨hmeets.2.1, hmeets.1⟩

theorem visited_of_cutOwned {before ids : List NodeId}
    (h : cutOwned root owner visit before ids s = .ok t)
    (hvisit : ∀ id s t, visit id s = .ok t → s.KeepsOwners t) (hid : id ∈ ids) :
    id ≠ root ∧ t.owners.lookup id = some owner ∧ ∃ u v, visit id u = .ok v ∧ v.KeepsOwners t := by
  induction ids generalizing before s with
  | nil => cases hid
  | cons b ids ih =>
    obtain ⟨-, u, v, hu, hv, ht⟩ := cutOwned_cons h
    rcases List.mem_cons.1 hid with rfl | hid
    · -- what is recorded for the first node survives its own visit and those after it
      have hk := keepsOwners_cutOwned ht hvisit
      have hl := hvisit _ _ _ hv _ _ (lookup_adopt hu)
      exact ⟨(owners_adopt_cases hu).1, hk _ _ hl, u, v, hv, hk⟩
    · exact ih ht hid

/-- `id` has been cut with so many levels, and all owners recorded then are in `owners`. -/
def Cleared (input : Input) (owners : NodeId → Option NodeId) (levels : Nat) (id : NodeId) : Prop :=
  ∃ s t, cut input levels id s = .ok t ∧
    ∀ b a, t.owners.lookup b = some a → owners b = some a

/-- What the cutting of a node has established. -/
structure Settled (input : Input) (owners : NodeId → Option NodeId) (levels : Nat) (id : NodeId)
    (n : Node) : Prop where
  recognized : ∀ tag, n.kind ≠ .unrecognized tag
  ranged : ∀ range predicate, n.Scans range predicate → (input.plan.range? range).isSome
  nodup : n.owned.Nodup
  owned : ∀ b ∈ n.owned, b ≠ input.plan.root ∧ owners b = some id
  cleared : ∀ b ∈ n.references, Cleared input owners levels b

variable {owners : NodeId → Option NodeId}

/-- What remains to be settled of a node when the nodes that it owns have been cut. -/
theorem settled_of_cutOwned {n : Node} {v : Slicing}
    (h : cutOwned input.plan.root id (cut input levels) [] n.owned s = .ok v)
    (howners : ∀ b a, v.owners.lookup b = some a → owners b = some a)
    (recognized : ∀ tag, n.kind ≠ .unrecognized tag)
    (ranged : ∀ range predicate, n.Scans range predicate → (input.plan.range? range).isSome)
    (runs : ∀ b ∈ n.runs, Cleared input owners levels b) :
    Settled input owners levels id n where
  recognized := recognized
  ranged := ranged
  nodup := (nodup_of_cutOwned h).1
  owned b hb := by
    obtain ⟨hne, hl, -⟩ := visited_of_cutOwned h (fun _ _ _ => keepsOwners_cut) hb
    exact ⟨hne, howners _ _ hl⟩
  cleared b hb := by
    rcases List.mem_append.1 hb with hb | hb
    · obtain ⟨-, -, u, w, hw, hk⟩ := visited_of_cutOwned h (fun _ _ _ => keepsOwners_cut) hb
      exact ⟨u, w, hw, fun b a hl => howners b a (hk b a hl)⟩
    · exact runs b hb

theorem settled_of_subPlan {n : Node} {plan : NodeId} {isInit : Bool} {args : List Expr}
    {v w : Slicing} (hk : n.kind = .subPlan plan isInit args)
    (hrun : cut input levels plan w = .ok u) (hkeep : u.KeepsOwners s)
    (h : cutOwned input.plan.root id (cut input levels) [] n.owned s = .ok v)
    (howners : ∀ b a, v.owners.lookup b = some a → owners b = some a) :
    Settled input owners levels id n := by
  have hlast := hkeep.trans (keepsOwners_cutOwned h fun _ _ _ => keepsOwners_cut)
  refine settled_of_cutOwned h howners (by simp [hk]) ?_ ?_
  · simp [Node.scans_iff_effect, Node.effect, hk]
  · simp only [Node.runs, hk, List.mem_singleton, forall_eq]
    exact ⟨w, u, hrun, fun b a hl => howners b a (hlast b a hl)⟩

theorem Cleared.settled (h : Cleared input owners levels id) : ∃ below n, levels = below + 1 ∧
    input.plan.node? id = some n ∧ Settled input owners below id n := by
  obtain ⟨s, t, hc, ho⟩ := h
  cases levels with
  | zero => cases hc
  | succ levels =>
    obtain ⟨n, hn, hp⟩ := passes_of_cut hc
    refine ⟨levels, n, rfl, hn, ?_⟩
    cases hp with
    | stay hs hr hk hu ht =>
      refine settled_of_cutOwned ht ho hk hr fun b hb => ?_
      unfold Node.opensSlice at hs
      unfold Node.runs at hb
      cases hkind : n.kind <;> simp_all
    | motion hk hu hv ht =>
      have ho' := owners_leave ht ▸ ho
      refine settled_of_cutOwned hv ho' (by simp [hk]) ?_ (by simp [Node.runs, hk])
      simp [Node.scans_iff_effect, Node.effect, hk]
    | initPlan hk hu hv ht =>
      exact settled_of_subPlan hk hu (.refl _) hv (owners_leave ht ▸ ho)
    | plan hk hu hv ht =>
      exact settled_of_subPlan hk hu (keepsOwners_enter _) hv (owners_leave ht ▸ ho)

theorem Cleared.of_refers {a b : NodeId} (h : Cleared input owners (levels + 1) a)
    (hab : input.plan.Refers a b) : Cleared input owners levels b := by
  obtain ⟨below, n, hl, hn, hs⟩ := h.settled
  obtain ⟨m, hm, hb⟩ := hab
  cases hl
  rw [hn] at hm
  cases hm
  exact hs.cleared b hb

/-- A node at the end of a path from the root has been cut with the levels that the path leaves. -/
theorem cleared_of_reachedIn {k : Nat} (h : Cleared input owners levels input.plan.root)
    (hk : input.plan.ReachedIn k id) :
    ∃ below, levels = below + k ∧ Cleared input owners below id := by
  induction hk with
  | root => exact ⟨levels, rfl, h⟩
  | @step k a b _ hab ih =>
    obtain ⟨below, hl, ha⟩ := ih
    -- every reference on the path uses up one level
    obtain ⟨rest, -, rfl, -, -⟩ := ha.settled
    exact ⟨rest, by omega, ha.of_refers hab⟩

end SliceDispatch.Slicing
