import SliceDispatch.Plan
import Mathlib.Logic.Relation

namespace SliceDispatch

namespace Node

/-- The range entry that a node scans and the predicate that governs the scan: the qual of a
sequential scan, the condition before it was rewritten of the others. -/
inductive Scans (n : Node) : UInt32 → Option Expr → Prop
  | seq {range} : n.kind = .seqScan range → n.Scans range n.qual
  | index {method range condition} : n.kind = .indexScan method range condition →
      n.Scans range condition

/-- Whether a node is the root of a slice of its own. -/
def opensSlice (n : Node) : Bool :=
  match n.kind with
  | .motion _ | .subPlan _ _ _ => true
  | _ => false

def IsMotion (n : Node) : Prop := ∃ type, n.kind = .motion type

def IsSubPlan (n : Node) : Prop := ∃ plan isInit args, n.kind = .subPlan plan isInit args

def IsInitPlan (n : Node) : Prop := ∃ plan args, n.kind = .subPlan plan true args

def runs (n : Node) : List NodeId :=
  match n.kind with
  | .subPlan plan _ _ => [plan]
  | _ => []

def references (n : Node) : List NodeId := n.owned ++ n.runs

/-- The references that do not leave the slice of the node. -/
def stays (n : Node) : List NodeId :=
  match n.kind with
  | .motion _ => []
  | .subPlan plan isInit _ => if isInit then [] else [plan]
  | _ => n.owned

/-- The references that lead into the slice that the node opens. -/
def enters (n : Node) : List NodeId :=
  match n.kind with
  | .motion _ => n.owned
  | .subPlan plan isInit _ => if isInit then plan :: n.owned else n.owned
  | _ => []

theorem opensSlice_iff {n : Node} : n.opensSlice = true ↔ n.IsMotion ∨ n.IsSubPlan := by
  unfold opensSlice IsMotion IsSubPlan
  cases n.kind <;> simp

theorem IsMotion.not_isSubPlan {n : Node} (h : n.IsMotion) : ¬n.IsSubPlan := by
  obtain ⟨type, hk⟩ := h
  rintro ⟨plan, isInit, args, hk'⟩
  cases hk.symm.trans hk'

theorem stays_append_enters_perm (n : Node) : (n.stays ++ n.enters).Perm n.references := by
  unfold references runs stays enters
  cases n.kind with
  | subPlan plan isInit args => cases isInit <;> simpa using (List.perm_append_singleton _ _).symm
  | _ => simp

theorem mem_references_iff {n : Node} {id : NodeId} :
    id ∈ n.references ↔ id ∈ n.stays ∨ id ∈ n.enters := by
  rw [← n.stays_append_enters_perm.mem_iff, List.mem_append]

theorem opensSlice_of_mem_enters {n : Node} {id : NodeId} (h : id ∈ n.enters) :
    n.opensSlice = true := by
  unfold enters at h
  unfold opensSlice
  cases hk : n.kind <;> simp_all

theorem stays_of_opensSlice_eq_false {n : Node} (h : n.opensSlice = false) : n.stays = n.owned := by
  unfold opensSlice at h
  unfold stays
  cases hk : n.kind <;> simp_all

theorem Scans.opensSlice_eq_false {n : Node} {range : UInt32} {predicate : Option Expr}
    (h : n.Scans range predicate) : n.opensSlice = false := by
  unfold opensSlice
  rcases h with h | h <;> rw [h]

theorem scans_iff_effect {n : Node} {range : UInt32} {predicate : Option Expr} :
    n.Scans range predicate ↔ n.effect = .scan range predicate := by
  constructor
  · rintro (h | h) <;> simp [effect, h]
  · intro h
    unfold effect at h
    cases hk : n.kind with
    | seqScan r =>
      simp only [hk, SliceEffect.scan.injEq] at h
      obtain ⟨rfl, rfl⟩ := h
      exact .seq hk
    | indexScan m r c =>
      simp only [hk, SliceEffect.scan.injEq] at h
      obtain ⟨rfl, rfl⟩ := h
      exact .index hk
    | _ => simp [hk] at h

theorem mem_references_of_effect {n : Node} {plan : NodeId} {isInit : Bool}
    (h : n.effect = .subPlan plan isInit) : plan ∈ n.references := by
  unfold effect at h
  unfold references runs
  cases hk : n.kind <;> simp_all

end Node

/-- The slice of a visit: the one that is open from the start, or one that a node opens. -/
inductive SliceName where
  | top
  | of (opener : NodeId)
deriving DecidableEq

namespace Plan

def Owns (p : Plan) (owner id : NodeId) : Prop := ∃ n, p.node? owner = some n ∧ id ∈ n.owned

def Refers (p : Plan) (a b : NodeId) : Prop := ∃ n, p.node? a = some n ∧ b ∈ n.references

def Stays (p : Plan) (a b : NodeId) : Prop := ∃ n, p.node? a = some n ∧ b ∈ n.stays

def Enters (p : Plan) (a b : NodeId) : Prop := ∃ n, p.node? a = some n ∧ b ∈ n.enters

def OpensSlice (p : Plan) (id : NodeId) : Prop := ∃ n, p.node? id = some n ∧ n.opensSlice = true

theorem opensSlice_iff_of_node? {p : Plan} {id : NodeId} {n : Node} (hn : p.node? id = some n) :
    p.OpensSlice id ↔ n.opensSlice = true := by
  simp [OpensSlice, hn]

/-- Some path of `k` references leads from the root to `id`. -/
inductive ReachedIn (p : Plan) : Nat → NodeId → Prop
  | root : p.ReachedIn 0 p.root
  | step {k a b} : p.ReachedIn k a → p.Refers a b → p.ReachedIn (k + 1) b

def Reached (p : Plan) (id : NodeId) : Prop := ∃ k, p.ReachedIn k id

/-- Some path of references from the root leads to `id` while `slice` is the innermost open one. -/
inductive Visits (p : Plan) : SliceName → NodeId → Prop
  | root : p.Visits .top p.root
  | stay {slice a b} : p.Visits slice a → p.Stays a b → p.Visits slice b
  | enter {slice a b} : p.Visits slice a → p.Enters a b → p.Visits (.of a) b

/-- The node that the decision of a slice is recorded for. -/
def sliceRoot (p : Plan) : SliceName → NodeId
  | .top => p.root
  | .of opener => opener

variable {p : Plan} {a b id owner : NodeId}

theorem refers_iff : p.Refers a b ↔ p.Stays a b ∨ p.Enters a b := by
  constructor
  · rintro ⟨n, hn, hb⟩
    exact (Node.mem_references_iff.1 hb).imp (⟨n, hn, ·⟩) (⟨n, hn, ·⟩)
  · rintro (⟨n, hn, hb⟩ | ⟨n, hn, hb⟩)
    · exact ⟨n, hn, Node.mem_references_iff.2 (.inl hb)⟩
    · exact ⟨n, hn, Node.mem_references_iff.2 (.inr hb)⟩

theorem Owns.refers (h : p.Owns owner id) : p.Refers owner id :=
  let ⟨n, hn, hid⟩ := h
  ⟨n, hn, List.mem_append_left _ hid⟩

theorem Enters.opensSlice (h : p.Enters a b) : p.OpensSlice a :=
  let ⟨n, hn, hb⟩ := h
  ⟨n, hn, Node.opensSlice_of_mem_enters hb⟩

theorem Reached.root : p.Reached p.root := ⟨0, .root⟩

theorem Reached.step (h : p.Reached a) (hab : p.Refers a b) : p.Reached b :=
  let ⟨k, hk⟩ := h
  ⟨k + 1, hk.step hab⟩

theorem ReachedIn.trans {k : Nat} (h : p.ReachedIn k a) (hab : Relation.ReflTransGen p.Refers a b) :
    ∃ j, p.ReachedIn (k + j) b := by
  induction hab with
  | refl => exact ⟨0, h⟩
  | tail _ hbc ih =>
    obtain ⟨j, hj⟩ := ih
    exact ⟨j + 1, hj.step hbc⟩

theorem reached_iff : p.Reached id ↔ Relation.ReflTransGen p.Refers p.root id := by
  constructor
  · rintro ⟨k, hk⟩
    induction hk with
    | root => exact .refl
    | step _ hab ih => exact ih.tail hab
  · intro h
    obtain ⟨j, hj⟩ := ReachedIn.root.trans h
    exact ⟨_, hj⟩

/-- Every node that is reached is visited in some slice. -/
theorem exists_visits (h : p.Reached id) : ∃ slice, p.Visits slice id := by
  obtain ⟨k, hk⟩ := h
  induction hk with
  | root => exact ⟨.top, .root⟩
  | @step _ a b _ hab ih =>
    obtain ⟨slice, hv⟩ := ih
    rcases refers_iff.1 hab with hs | he
    · exact ⟨slice, hv.stay hs⟩
    · exact ⟨.of a, hv.enter he⟩

theorem Visits.reached {slice : SliceName} (h : p.Visits slice id) : p.Reached id := by
  induction h with
  | root => exact .root
  | stay _ hab ih => exact ih.step (refers_iff.2 (.inl hab))
  | enter _ hab ih => exact ih.step (refers_iff.2 (.inr hab))

theorem visits_top_iff : p.Visits .top id ↔ Relation.ReflTransGen p.Stays p.root id := by
  constructor
  · intro h
    generalize hs : SliceName.top = slice at h
    induction h with
    | root => exact .refl
    | stay _ hab ih => exact (ih hs).tail hab
    | enter => cases hs
  · intro h
    induction h with
    | refl => exact .root
    | tail _ hab ih => exact ih.stay hab

/-- The slice that a node opens holds what its entering references lead to, wherever the node is
visited. -/
theorem visits_of_iff {r : NodeId} : p.Visits (.of r) id ↔
    p.Reached r ∧ ∃ a, p.Enters r a ∧ Relation.ReflTransGen p.Stays a id := by
  constructor
  · -- the slice of `r` is entered from `r` only, and staying is all that keeps a walk in it
    intro h
    generalize hs : SliceName.of r = slice at h
    induction h with
    | root => cases hs
    | stay _ hbc ih =>
      obtain ⟨hr, a, ha, hab⟩ := ih hs
      exact ⟨hr, a, ha, hab.tail hbc⟩
    | enter hv hab =>
      cases hs
      exact ⟨hv.reached, _, hab, .refl⟩
  · rintro ⟨hr, a, ha, hid⟩
    obtain ⟨slice, hv⟩ := exists_visits hr
    induction hid with
    | refl => exact hv.enter ha
    | tail _ hbc ih => exact ih.stay hbc

end Plan
end SliceDispatch
