import SliceDispatch.Proofs.Ownership
import Mathlib.Data.List.Nodup

namespace SliceDispatch

namespace Plan

def ownedBy (p : Plan) (id : NodeId) : List NodeId :=
  match p.node? id with
  | some n => n.owned
  | none => []

def InRange (p : Plan) (range : UInt32) : Prop := 1 ≤ range.toNat ∧ range.toNat ≤ p.ranges.size

/-- Over the owned nodes of any distinct nodes that are reached, each node is listed once. -/
def SinglyOwned (p : Plan) : Prop :=
  ∀ owners : List NodeId, owners.Nodup → (∀ a ∈ owners, p.Reached a) →
    ∀ id, (owners.flatMap p.ownedBy).count id ≤ 1

/-- What a plan has to satisfy to be annotated under a depth limit. -/
structure Acceptable (p : Plan) (limit : UInt64) : Prop where
  present : ∀ id, p.Reached id → ∃ n, p.node? id = some n
  recognized : ∀ id n tag, p.Reached id → p.node? id = some n → n.kind ≠ .unrecognized tag
  ranged : ∀ id n range predicate, p.Reached id → p.node? id = some n → n.Scans range predicate →
    p.InRange range
  rootFree : ∀ owner, p.Reached owner → ¬p.Owns owner p.root
  singlyOwned : p.SinglyOwned
  shallow : ∀ k id, p.ReachedIn k id → k ≤ limit.toNat

/-- The violation of acceptability that a fault reports. -/
def Defect (p : Plan) (limit : UInt64) : Fault → Prop
  | .dangling id => p.Reached id ∧ p.node? id = none
  | .unrecognized id tag => p.Reached id ∧ ∃ n, p.node? id = some n ∧ n.kind = .unrecognized tag
  | .missingRange id range => p.Reached id ∧ ∃ n predicate, p.node? id = some n ∧
      n.Scans range predicate ∧ ¬p.InRange range
  | .shared id => (id = p.root ∧ ∃ owner, p.Reached owner ∧ p.Owns owner id) ∨
      ∃ owners : List NodeId, owners.Nodup ∧ (∀ a ∈ owners, p.Reached a) ∧
        2 ≤ (owners.flatMap p.ownedBy).count id
  | .tooDeep reported => reported = limit ∧ ∃ k id, p.ReachedIn k id ∧ limit.toNat < k
  | .unbalanced => False

variable {p : Plan} {limit : UInt64}

theorem isSome_range?_iff {range : UInt32} : (p.range? range).isSome ↔ p.InRange range := by
  unfold range? InRange
  have h0 : range = 0 ↔ range.toNat = 0 := by
    rw [← UInt32.toNat_inj]
    rfl
  split
  · rename_i h
    simp [h0.1 h]
  · rename_i h
    rw [h0] at h
    simp only [isSome_getElem?]
    omega

theorem ownedBy_of_node? {id : NodeId} {n : Node} (h : p.node? id = some n) :
    p.ownedBy id = n.owned := by
  simp [ownedBy, h]

theorem Acceptable.not_defect (h : p.Acceptable limit) (f : Fault) : ¬p.Defect limit f := by
  intro hf
  cases f with
  | unrecognized id tag =>
    obtain ⟨hr, n, hn, hk⟩ := hf
    exact h.recognized id n tag hr hn hk
  | dangling id =>
    obtain ⟨hr, hn⟩ := hf
    obtain ⟨n, hs⟩ := h.present id hr
    rw [hn] at hs
    cases hs
  | shared id =>
    rcases hf with ⟨rfl, owner, hr, ho⟩ | ⟨owners, hnd, hr, hc⟩
    · exact h.rootFree owner hr ho
    · have := h.singlyOwned owners hnd hr id
      omega
  | missingRange id range =>
    obtain ⟨hr, n, predicate, hn, hs, hrange⟩ := hf
    exact hrange (h.ranged id n range predicate hr hn hs)
  | tooDeep reported =>
    obtain ⟨-, k, id, hk, hlt⟩ := hf
    have := h.shallow k id hk
    omega
  | unbalanced => exact hf

/-- A cycle that is reached is longer than any limit. -/
theorem Acceptable.acyclic (h : p.Acceptable limit) {id : NodeId} (hr : p.Reached id) :
    ¬Relation.TransGen p.Refers id id := by
  intro hc
  have hlong : ∀ m, ∃ k, m ≤ k ∧ p.ReachedIn k id := by
    intro m
    induction m with
    | zero =>
      obtain ⟨k, hk⟩ := hr
      exact ⟨k, Nat.zero_le _, hk⟩
    | succ m ih =>
      obtain ⟨k, hm, hk⟩ := ih
      -- once more around the cycle
      obtain ⟨b, hb, hbid⟩ := Relation.TransGen.head'_iff.1 hc
      obtain ⟨j, hj⟩ := (hk.step hb).trans hbid
      exact ⟨k + 1 + j, by omega, hj⟩
  obtain ⟨k, hm, hk⟩ := hlong (limit.toNat + 1)
  have := h.shallow k id hk
  omega

end Plan

namespace Slicing

/-- A plan whose root has been cut with one level more than the limit is acceptable. -/
theorem acceptable_of_cleared {input : Input} {owners : NodeId → Option NodeId}
    (h : Cleared input owners (input.config.maxPlanDepth.toNat + 1) input.plan.root) :
    input.plan.Acceptable input.config.maxPlanDepth := by
  have settled : ∀ id, input.plan.Reached id → ∃ below n, input.plan.node? id = some n ∧
      Settled input owners below id n := by
    rintro id ⟨k, hk⟩
    obtain ⟨levels, -, hc⟩ := cleared_of_reachedIn h hk
    obtain ⟨below, n, -, hn, hs⟩ := hc.settled
    exact ⟨below, n, hn, hs⟩
  have owned : ∀ a id, input.plan.Reached a → id ∈ input.plan.ownedBy a →
      id ≠ input.plan.root ∧ owners id = some a := by
    intro a id ha hid
    obtain ⟨below, n, hn, hs⟩ := settled a ha
    rw [Plan.ownedBy_of_node? hn] at hid
    exact hs.owned id hid
  constructor
  case present =>
    intro id hr
    obtain ⟨-, n, hn, -⟩ := settled id hr
    exact ⟨n, hn⟩
  case recognized =>
    intro id n tag hr hn
    obtain ⟨below, m, hm, hs⟩ := settled id hr
    cases hm.symm.trans hn
    exact hs.recognized tag
  case ranged =>
    intro id n range predicate hr hn hscan
    obtain ⟨below, m, hm, hs⟩ := settled id hr
    cases hm.symm.trans hn
    exact Plan.isSome_range?_iff.1 (hs.ranged range predicate hscan)
  case rootFree =>
    rintro owner hr ⟨n, hn, hid⟩
    exact (owned owner _ hr (Plan.ownedBy_of_node? hn ▸ hid)).1 rfl
  case singlyOwned =>
    intro nodes hnd hr
    rw [← List.nodup_iff_count_le_one, List.nodup_flatMap]
    constructor
    · intro a ha
      obtain ⟨below, n, hn, hs⟩ := settled a (hr a ha)
      rw [Plan.ownedBy_of_node? hn]
      exact hs.nodup
    · -- two owners of one node would both be the owner that is recorded for it
      refine hnd.imp_of_mem fun {a b} ha hb hab id hida hidb => hab ?_
      have h1 := (owned a id (hr a ha) hida).2
      have h2 := (owned b id (hr b hb) hidb).2
      exact Option.some.inj (h1.symm.trans h2)
  case shallow =>
    intro k id hk
    obtain ⟨levels, hl, hc⟩ := cleared_of_reachedIn h hk
    obtain ⟨below, n, rfl, -, -⟩ := hc.settled
    omega

/-- The state is as the references allow: recorded owners are reached and own what they are
recorded for, and `depth` slices are open. -/
structure Sound (p : Plan) (depth : Nat) (s : Slicing) : Prop where
  owners : ∀ id owner, s.owners.lookup id = some owner → p.Reached owner ∧ p.Owns owner id
  depth : s.slices.depth = depth

section Faults

variable {p : Plan} {depth : Nat} {s : Slicing} {R : Fault → Prop}

theorem sound_start (p : Plan) : Sound p 1 start where
  owners _ _ h := by cases h
  depth := rfl

theorem Sound.enter (h : Sound p depth s) : Sound p (depth + 1) s.enter where
  owners := h.owners
  depth := by
    have := h.depth
    simp [Slicing.enter, OpenSlices.depth_push, this]

theorem Sound.inform (h : Sound p (depth + 1) s) (d : Decision) :
    Meets (Sound p (depth + 1)) R (s.inform d) := by
  unfold Slicing.inform
  cases hc : s.slices.contribute? d with
  | none =>
    -- with a slice open there is one that takes the contribution
    obtain ⟨⟨_ | ⟨inner, outer⟩⟩, _, _⟩ := s
    · exact absurd h.depth (by simp [OpenSlices.depth])
    · simp [OpenSlices.contribute?] at hc
  | some slices => exact ⟨h.owners, by rw [← h.depth, ← OpenSlices.depth_of_contribute? hc]⟩

theorem Sound.leave (h : Sound p (depth + 1) s) (id : NodeId) (counted : Bool) :
    Meets (Sound p depth) R (s.leave id counted) := by
  obtain ⟨⟨_ | ⟨inner, outer⟩⟩, _, _⟩ := s
  · exact absurd h.depth (by simp [OpenSlices.depth])
  · exact ⟨h.owners, by simpa [OpenSlices.depth] using h.depth⟩

variable {limit : UInt64} {owner id : NodeId}

theorem Sound.adopt (h : Sound p depth s) (hr : p.Reached owner) (ho : p.Owns owner id) :
    Meets (Sound p depth) (p.Defect limit) (s.adopt p.root owner id) := by
  unfold Slicing.adopt
  split
  · rename_i hid
    exact .inl ⟨hid, owner, hr, ho⟩
  · split
    · refine ⟨fun b a hl => ?_, h.depth⟩
      rw [List.lookup_cons] at hl
      split at hl
      · rename_i hb
        cases hl
        exact eq_of_beq hb ▸ ⟨hr, ho⟩
      · exact h.owners b a hl
    · rename_i other hl
      split
      · exact h
      · rename_i hne
        obtain ⟨hr', n', hn', hid'⟩ := h.owners id other hl
        obtain ⟨n, hn, hid⟩ := ho
        -- both owners list the node
        refine .inr ⟨[other, owner], by simpa using hne, by simp [hr, hr'], ?_⟩
        have h1 := List.count_pos_iff.2 (Plan.ownedBy_of_node? hn' ▸ hid' : id ∈ p.ownedBy other)
        have h2 := List.count_pos_iff.2 (Plan.ownedBy_of_node? hn ▸ hid : id ∈ p.ownedBy owner)
        simp only [List.flatMap_cons, List.flatMap_nil, List.append_nil, List.count_append]
        omega

theorem Sound.cutOwned {visit : NodeId → Slicing → Except Fault Slicing} {n : Node}
    {before ids : List NodeId} (h : Sound p depth s) (hr : p.Reached owner)
    (hn : p.node? owner = some n) (hids : n.owned = before.reverse ++ ids)
    (hvisit : ∀ id ∈ ids, ∀ s, Sound p depth s →
      Meets (Sound p depth) (p.Defect limit) (visit id s)) :
    Meets (Sound p depth) (p.Defect limit) (cutOwned p.root owner visit before ids s) := by
  induction ids generalizing before s with
  | nil => exact h
  | cons id ids ih =>
    rw [Slicing.cutOwned]
    split
    · rename_i hb
      -- the owner lists the node twice
      refine .inr ⟨[owner], by simp, by simpa using hr, ?_⟩
      have := List.count_pos_iff.2 hb
      simp only [List.flatMap_cons, List.flatMap_nil, List.append_nil, Plan.ownedBy_of_node? hn,
        hids, List.count_append, List.count_reverse, List.count_cons_self]
      omega
    · have ho : p.Owns owner id := ⟨n, hn, by simp [hids]⟩
      refine (h.adopt hr ho).bind fun u hu => ?_
      refine (hvisit id List.mem_cons_self u hu).bind fun v hv => ?_
      exact ih hv (by simpa using hids) fun b hb => hvisit b (List.mem_cons_of_mem _ hb)

theorem Sound.arrive {input : Input} {visit : NodeId → Slicing → Except Fault Slicing} {n : Node}
    (h : Sound input.plan (depth + 1) s) (hr : input.plan.Reached id)
    (hn : input.plan.node? id = some n)
    (hvisit : ∀ b ∈ n.runs, ∀ depth s, Sound input.plan (depth + 1) s →
      Meets (Sound input.plan (depth + 1)) (input.plan.Defect limit) (visit b s)) :
    Meets (Sound input.plan (depth + 1 + n.opensSlice.toNat)) (input.plan.Defect limit)
      (arrive input visit id s n.effect) := by
  have scan : ∀ range predicate, n.Scans range predicate →
      Meets (Sound input.plan (depth + 1 + n.opensSlice.toNat)) (input.plan.Defect limit)
        (Slicing.arrive input visit id s (.scan range predicate)) := by
    intro range predicate hs
    simp only [hs.opensSlice_eq_false, Slicing.arrive]
    cases hrange : input.plan.range? range with
    | none =>
      refine ⟨hr, n, predicate, hn, hs, fun hin => ?_⟩
      simp [← Plan.isSome_range?_iff, hrange] at hin
    | some entry => exact h.inform _
  unfold Node.effect
  cases hk : n.kind with
  | seqScan range => exact scan range n.qual (.seq hk)
  | indexScan method range condition => exact scan range condition (.index hk)
  | unrecognized tag => exact ⟨hr, n, hn, hk⟩
  | motion type =>
    simp only [Node.opensSlice, hk]
    exact (h.inform .full).map fun u hu => hu.enter
  | subPlan plan isInit args =>
    have hp := hvisit plan (by simp [Node.runs, hk])
    simp only [Node.opensSlice, hk]
    cases isInit with
    | true => exact hp (depth + 1) s.enter h.enter
    | false => exact (hp depth s h).map fun u hu => hu.enter
  | _ =>
    simp only [Node.opensSlice, hk]
    first | exact h | exact h.inform _

/-- With the levels that a path from the root leaves over, cutting keeps the state sound or meets a
defect. -/
theorem Sound.cut {input : Input} {levels k : Nat} (h : Sound input.plan (depth + 1) s)
    (hk : input.plan.ReachedIn k id) (hl : k + levels = input.config.maxPlanDepth.toNat + 1) :
    Meets (Sound input.plan (depth + 1)) (input.plan.Defect input.config.maxPlanDepth)
      (cut input levels id s) := by
  induction levels generalizing k id s depth with
  | zero => exact ⟨rfl, k, id, hk, by omega⟩
  | succ levels ih =>
    have hr : input.plan.Reached id := ⟨k, hk⟩
    rw [cut_succ]
    cases hn : input.plan.node? id with
    | none => exact ⟨hr, hn⟩
    | some n =>
      have visit : ∀ b ∈ n.references, ∀ depth s, Sound input.plan (depth + 1) s →
          Meets (Sound input.plan (depth + 1)) (input.plan.Defect input.config.maxPlanDepth)
            (Slicing.cut input levels b s) :=
        fun b hb depth s hs => ih hs (hk.step ⟨n, hn, hb⟩) (by omega)
      refine (h.arrive hr hn fun b hb => visit b (List.mem_append_right _ hb)).bind fun u hu => ?_
      refine Meets.bind (P := Sound input.plan (depth + 1 + n.opensSlice.toNat)) ?_ fun v hv => ?_
      · rw [Nat.add_right_comm] at hu ⊢
        exact hu.cutOwned hr hn rfl fun b hb s hs => visit b (List.mem_append_left _ hb) _ s hs
      · unfold depart Node.effect
        unfold Node.opensSlice at hv
        cases hkind : n.kind <;> simp only [hkind] at hv ⊢ <;> first | exact hv | exact hv.leave _ _

theorem Sound.leaveRoot {input : Input} (h : Sound input.plan 1 s) :
    Meets (Sound input.plan 0) (input.plan.Defect limit) (leaveRoot input s) := by
  unfold Slicing.leaveRoot
  cases hn : input.plan.node? input.plan.root with
  | none => exact ⟨.root, hn⟩
  | some n =>
    obtain ⟨⟨_ | ⟨inner, outer⟩⟩, owners, closed⟩ := s
    · exact absurd h.depth (by simp [OpenSlices.depth])
    have hpop : Sound input.plan 0 ⟨⟨outer⟩, owners, closed⟩ :=
      ⟨h.owners, by simpa [OpenSlices.depth] using h.depth⟩
    dsimp only
    cases n.effect with
    | motion | subPlan => exact hpop
    | _ => exact h.leave _ _

end Faults

theorem meets_run (input : Input) :
    Meets (fun _ => True) (input.plan.Defect input.config.maxPlanDepth) (run input) := by
  have hlevels : 0 + (input.config.maxPlanDepth.toNat + 1) = input.config.maxPlanDepth.toNat + 1 :=
    Nat.zero_add _
  refine ((sound_start input.plan).cut .root hlevels).bind fun s hs => ?_
  refine hs.leaveRoot.bind fun t ht => ?_
  rw [if_pos ht.depth]
  trivial

theorem acceptable_of_run {input : Input} {s : Slicing} (h : run input = .ok s) :
    input.plan.Acceptable input.config.maxPlanDepth := by
  obtain ⟨t, ht, -⟩ := cut_of_run h
  have hcleared : Cleared input (fun id => t.owners.lookup id)
      (input.config.maxPlanDepth.toNat + 1) input.plan.root := ⟨_, t, ht, fun _ _ h => h⟩
  exact acceptable_of_cleared hcleared

theorem exists_run_of_acceptable {input : Input}
    (h : input.plan.Acceptable input.config.maxPlanDepth) : ∃ s, run input = .ok s := by
  have hmeets := meets_run input
  cases hr : run input with
  | ok s => exact ⟨s, rfl⟩
  | error f =>
    rw [hr] at hmeets
    exact absurd hmeets (h.not_defect f)

end Slicing

namespace Plan

/-- A plan is annotated exactly if it is acceptable, which no plan with a cycle in reach is, and a
fault reports a violation that the plan has. -/
theorem annotate_ok_iff_acceptable (plan : Plan) (catalog : Catalog) (config : Config) :
    ((∃ a, plan.annotate catalog config = .ok a) ↔ plan.Acceptable config.maxPlanDepth) ∧
      (∀ f, plan.annotate catalog config = .error f → plan.Defect config.maxPlanDepth f) ∧
      ((∃ a, plan.annotate catalog config = .ok a) →
        ∀ id, plan.Reached id → ¬Relation.TransGen plan.Refers id id) := by
  have hok : (∃ a, plan.annotate catalog config = .ok a) →
      plan.Acceptable config.maxPlanDepth := by
    rintro ⟨a, ha⟩
    obtain ⟨s, hs, -⟩ := Slicing.run_of_annotate ha
    exact Slicing.acceptable_of_run hs
  refine ⟨⟨hok, fun h => ?_⟩, fun f hf => ?_, fun ha id hr => (hok ha).acyclic hr⟩
  · obtain ⟨s, hs⟩ := @Slicing.exists_run_of_acceptable ⟨catalog, config, plan⟩ h
    rw [annotate, hs]
    exact ⟨_, rfl⟩
  · have hrun := Slicing.meets_run ⟨catalog, config, plan⟩
    rw [Slicing.run_of_annotate_error hf] at hrun
    exact hrun

end Plan
end SliceDispatch
