import SliceDispatch.Proofs.Acceptance
import Mathlib.Data.Set.Card

namespace SliceDispatch

open Relation

/-- A reference of a node: to a node that it owns or to the plan that it runs. A sub-plan may refer
to one node in both ways. -/
inductive Reference where
  | owned (id : NodeId)
  | run (id : NodeId)
deriving DecidableEq

namespace Reference

def target : Reference → NodeId
  | .owned id | .run id => id

def endOf (id : NodeId) (path : List Reference) : NodeId := path.foldl (fun _ r => r.target) id

end Reference

open Reference (endOf)

def Node.links (n : Node) : List Reference := n.owned.map .owned ++ n.runs.map .run

theorem Node.map_target_links (n : Node) : n.links.map Reference.target = n.references := by
  rw [links, references, List.map_append, List.map_map, List.map_map]
  exact congrArg₂ _ (List.map_id _) (List.map_id _)

theorem Node.nodup_links {n : Node} (h : n.owned.Nodup) : n.links.Nodup := by
  have hruns : n.runs.Nodup := by
    unfold runs
    cases n.kind <;> simp
  refine List.nodup_append.2 ⟨h.map fun _ _ => Reference.owned.inj,
    hruns.map fun _ _ => Reference.run.inj, ?_⟩
  rintro _ hr _ hs rfl
  obtain ⟨_, -, rfl⟩ := List.mem_map.1 hr
  obtain ⟨_, -, ⟨⟩⟩ := List.mem_map.1 hs

namespace Plan

/-- The references of a path, followed one by one, lead from `a` to `b`. -/
inductive Leads (p : Plan) : NodeId → List Reference → NodeId → Prop
  | nil {a} : p.Leads a [] a
  | cons {a b n r path} : p.node? a = some n → r ∈ n.links → p.Leads r.target path b →
      p.Leads a (r :: path) b

/-- The paths from a node that have fewer than `levels` references. -/
def paths (p : Plan) : Nat → NodeId → List (List Reference)
  | 0, _ => []
  | levels + 1, id =>
    match p.node? id with
    | none => []
    | some n => [] :: n.links.flatMap fun r => (p.paths levels r.target).map (r :: ·)

/-- The nodes at the ends of the paths from a node, one for each path. -/
def pathEnds (p : Plan) (levels : Nat) (id : NodeId) : List NodeId :=
  (p.paths levels id).map (endOf id)

variable {p : Plan} {a b : NodeId} {path : List Reference} {n : Node}

theorem pathEnds_succ (hn : p.node? a = some n) (levels : Nat) :
    p.pathEnds (levels + 1) a = a :: n.references.flatMap (p.pathEnds levels) := by
  simp only [pathEnds, paths, hn, List.map_cons, List.map_flatMap, List.map_map,
    ← n.map_target_links, List.flatMap_map]
  rfl

theorem Refers.of_mem_links {r : Reference} (hn : p.node? a = some n) (hr : r ∈ n.links) :
    p.Refers a r.target :=
  ⟨n, hn, n.map_target_links ▸ List.mem_map_of_mem hr⟩

theorem Leads.endOf_eq (h : p.Leads a path b) : endOf a path = b := by
  induction h with
  | nil => rfl
  | cons _ _ _ ih => exact ih

theorem Leads.reflTransGen (h : p.Leads a path b) : ReflTransGen p.Refers a b := by
  induction h with
  | nil => exact .refl
  | cons hn hr _ ih => exact ih.head (.of_mem_links hn hr)

theorem exists_leads (h : ReflTransGen p.Refers a b) : ∃ path, p.Leads a path b := by
  induction h using ReflTransGen.head_induction_on with
  | refl => exact ⟨[], .nil⟩
  | head hac _ ih =>
    obtain ⟨path, hpath⟩ := ih
    obtain ⟨n, hn, hc⟩ := hac
    rw [← n.map_target_links] at hc
    obtain ⟨r, hr, rfl⟩ := List.mem_map.1 hc
    exact ⟨r :: path, .cons hn hr hpath⟩

theorem Leads.eq_nil (h : p.Leads a path a) (hacyclic : ¬TransGen p.Refers a a) : path = [] := by
  cases h with
  | nil => rfl
  | cons hn hr h => exact absurd (.head' (.of_mem_links hn hr) h.reflTransGen) hacyclic

end Plan

namespace Slicing

variable {input : Input} {owners : NodeId → Option NodeId} {levels : Nat} {a b : NodeId}

/-- All paths from a node that has been cut are listed. -/
theorem leads_iff (h : Cleared input owners levels a) {path : List Reference} :
    input.plan.Leads a path b ↔ path ∈ input.plan.paths levels a ∧ endOf a path = b := by
  constructor
  · intro hpath
    refine ⟨?_, hpath.endOf_eq⟩
    induction hpath generalizing levels with
    | nil =>
      obtain ⟨below, n, rfl, hn, -⟩ := h.settled
      simp [Plan.paths, hn]
    | cons hn hr _ ih =>
      obtain ⟨below, -, rfl, -, -⟩ := h.settled
      have hpath := ih (h.of_refers (.of_mem_links hn hr))
      simp only [Plan.paths, hn, List.mem_cons, List.mem_flatMap, List.mem_map]
      exact .inr ⟨_, hr, _, hpath, rfl⟩
  · clear h
    rintro ⟨hpath, rfl⟩
    induction levels generalizing a path with
    | zero => cases hpath
    | succ levels ih =>
      rw [Plan.paths] at hpath
      cases hn : input.plan.node? a with
      | none => simp [hn] at hpath
      | some n =>
        simp only [hn, List.mem_cons, List.mem_flatMap, List.mem_map] at hpath
        rcases hpath with rfl | ⟨r, hr, path, hpath, rfl⟩
        · exact .nil
        · exact .cons hn hr (ih hpath)

theorem nodup_paths (h : Cleared input owners levels a) : (input.plan.paths levels a).Nodup := by
  induction levels generalizing a with
  | zero => exact List.nodup_nil
  | succ levels ih =>
    obtain ⟨below, n, hl, hn, hs⟩ := h.settled
    simp only [Plan.paths, hn, List.nodup_cons, List.mem_flatMap, List.mem_map, List.nodup_flatMap]
    refine ⟨by simp, fun r hr => ?_, ?_⟩
    · exact (ih (h.of_refers (.of_mem_links hn hr))).map fun _ _ => List.tail_eq_of_cons_eq
    · -- paths that begin with different references differ
      refine (Node.nodup_links hs.nodup).imp fun hne => ?_
      simp only [Function.onFun, List.disjoint_left, List.mem_map]
      rintro _ ⟨path, -, rfl⟩ ⟨path', -, heq⟩
      exact hne (List.head_eq_of_cons_eq heq).symm

open scoped Classical in
theorem encard_setOf_leads (h : Cleared input owners levels a) (P : NodeId → Prop) :
    {path | ∃ b, input.plan.Leads a path b ∧ P b}.encard =
      (input.plan.pathEnds levels a).countP (fun b => decide (P b)) := by
  have hset : {path | ∃ b, input.plan.Leads a path b ∧ P b} =
      (((input.plan.paths levels a).filter fun path => decide (P (endOf a path))).toFinset :
        Set (List Reference)) := by
    ext path
    simp [leads_iff h]
  rw [hset, Set.encard_coe_eq_coe_finsetCard,
    List.toFinset_card_of_nodup ((nodup_paths h).filter _), Plan.pathEnds, List.countP_map,
    List.countP_eq_length_filter]
  rfl

theorem count_pathEnds (h : Cleared input owners levels a) (b : NodeId) :
    ((input.plan.pathEnds levels a).count b : ℕ∞) = {path | input.plan.Leads a path b}.encard := by
  classical
  have hset : {path | input.plan.Leads a path b} =
      {path | ∃ c, input.plan.Leads a path c ∧ c = b} := by simp
  rw [hset, encard_setOf_leads h, List.count_eq_countP]
  exact congrArg _ (List.countP_congr fun c _ => by simp)

theorem mem_pathEnds_iff (h : Cleared input owners levels a) :
    b ∈ input.plan.pathEnds levels a ↔ ReflTransGen input.plan.Refers a b := by
  rw [Plan.pathEnds, List.mem_map]
  constructor
  · rintro ⟨path, hpath⟩
    exact ((leads_iff h).2 hpath).reflTransGen
  · intro hab
    obtain ⟨path, hpath⟩ := Plan.exists_leads hab
    exact ⟨path, (leads_iff h).1 hpath⟩

end Slicing
end SliceDispatch
