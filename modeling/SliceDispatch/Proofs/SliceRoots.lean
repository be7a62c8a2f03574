import SliceDispatch.Proofs.ReferencePaths
import SliceDispatch.Proofs.Slices

namespace SliceDispatch

open Relation
open Reference (endOf)

namespace Plan

def IsMotion (p : Plan) (id : NodeId) : Prop := ∃ n, p.node? id = some n ∧ n.IsMotion

def IsSubPlan (p : Plan) (id : NodeId) : Prop := ∃ n, p.node? id = some n ∧ n.IsSubPlan

/-- The slices that close with these nodes count towards the limit. -/
def IsSliceRoot (p : Plan) (id : NodeId) : Prop := p.IsMotion id ∨ id = p.root ∧ ¬p.IsSubPlan id

variable {p : Plan} {id : NodeId}

theorem opensSlice_iff : p.OpensSlice id ↔ p.IsMotion id ∨ p.IsSubPlan id := by
  simp only [OpensSlice, Node.opensSlice_iff, IsMotion, IsSubPlan, and_or_left, exists_or]

theorem IsMotion.not_isSubPlan (h : p.IsMotion id) : ¬p.IsSubPlan id := by
  obtain ⟨n, hn, hm⟩ := h
  rintro ⟨m, hm', hs⟩
  cases hn.symm.trans hm'
  exact hm.not_isSubPlan hs

theorem IsSliceRoot.not_isSubPlan (h : p.IsSliceRoot id) : ¬p.IsSubPlan id := by
  rcases h with h | ⟨-, h⟩
  · exact h.not_isSubPlan
  · exact h

theorem IsSliceRoot.root_or_opensSlice (h : p.IsSliceRoot id) : id = p.root ∨ p.OpensSlice id := by
  rcases h with h | ⟨h, -⟩
  · exact .inr (opensSlice_iff.2 (.inl h))
  · exact .inl h

end Plan

def Closing.countedRoots (cs : List Closing) : List NodeId := (cs.filter (·.counted)).map (·.root)

theorem Closing.countedRoots_append (cs ds : List Closing) :
    countedRoots (cs ++ ds) = countedRoots cs ++ countedRoots ds := by
  simp [countedRoots]

namespace Slicing

variable {input : Input} {s : Slicing}

theorem countedRoots_closing (levels : Nat) (id : NodeId) (n : Node) :
    Closing.countedRoots [input.closing levels id n] =
      match n.kind with
      | .motion _ => [id]
      | _ => [] := by
  unfold Closing.countedRoots Input.closing
  cases n.kind <;> rfl

theorem counted_iff (h : run input = .ok s) {c : Closing} (hc : c ∈ s.closed) :
    c.counted = true ↔ input.plan.IsSliceRoot c.root := by
  rcases closed_cases h hc with ⟨-, below, n, -, -, hn, ho, he⟩ | ⟨-, levels, hnot, -, rfl⟩
  · have hcounted := congrArg Closing.counted he
    rcases Node.opensSlice_iff.1 ho with ⟨type, hk⟩ | ⟨plan, isInit, args, hk⟩
    · simp only [Input.closing, hk] at hcounted
      exact iff_of_true hcounted (.inl ⟨n, hn, type, hk⟩)
    · simp only [Input.closing, hk] at hcounted
      refine iff_of_false (by simp [hcounted]) fun hroot => hroot.not_isSubPlan ?_
      exact ⟨n, hn, plan, isInit, args, hk⟩
  · rw [Plan.opensSlice_iff, not_or] at hnot
    exact iff_of_true rfl (.inr ⟨rfl, hnot.2⟩)

open scoped Classical in
/-- In a subtree there closes a slice for each path to a node that opens one. -/
theorem roots_closings_perm (input : Input) (levels : Nat) (id : NodeId) :
    ((input.closings levels id).map (·.root)).Perm
      ((input.plan.pathEnds levels id).filter fun b => decide (input.plan.OpensSlice b)) := by
  induction levels generalizing id with
  | zero => exact .refl _
  | succ levels ih =>
    cases hn : input.plan.node? id with
    | none => simp [Input.closings, Plan.pathEnds, Plan.paths, hn]
    | some n =>
      have hbelow : (((n.stays ++ n.enters).flatMap (input.closings levels)).map (·.root)).Perm
          ((n.references.flatMap (input.plan.pathEnds levels)).filter
            fun b => decide (input.plan.OpensSlice b)) := by
        rw [List.map_flatMap, List.filter_flatMap]
        exact n.stays_append_enters_perm.flatMap fun b _ => ih b
      rw [Plan.pathEnds_succ hn, List.filter_cons, Input.closings]
      simp only [hn, List.map_append, Plan.opensSlice_iff_of_node? hn, Bool.decide_eq_true]
      cases n.opensSlice with
      | true => exact (List.perm_append_singleton _ _).trans (hbelow.cons id)
      | false => simpa using hbelow

theorem exists_pathEnds_root (h : run input = .ok s) : ∃ below,
    input.plan.pathEnds (input.config.maxPlanDepth.toNat + 1) input.plan.root =
      input.plan.root :: below ∧ input.plan.root ∉ below := by
  obtain ⟨owners, n, hcleared, hn, -⟩ := closed_of_run h
  refine ⟨_, Plan.pathEnds_succ hn _, fun hmem => ?_⟩
  obtain ⟨b, hb, hroot⟩ := List.mem_flatMap.1 hmem
  have hrefers : input.plan.Refers input.plan.root b := ⟨n, hn, hb⟩
  have hback := (mem_pathEnds_iff (hcleared.of_refers hrefers)).1 hroot
  exact (acceptable_of_run h).acyclic .root (.head' hrefers hback)

open scoped Classical in
/-- Slices close once for each path to the root or to a node that opens one. -/
theorem roots_closed_perm (h : run input = .ok s) :
    (s.closed.reverse.map (·.root)).Perm
      ((input.plan.pathEnds (input.config.maxPlanDepth.toNat + 1) input.plan.root).filter
        fun b => decide (b = input.plan.root ∨ input.plan.OpensSlice b)) := by
  obtain ⟨-, n, -, hn, hclosed⟩ := closed_of_run h
  have hperm := roots_closings_perm input (input.config.maxPlanDepth.toNat + 1) input.plan.root
  have hroot := Plan.opensSlice_iff_of_node? hn
  rw [hclosed, List.map_append]
  cases ho : n.opensSlice with
  | true =>
    have hopens : ∀ b, b = input.plan.root ∨ input.plan.OpensSlice b ↔ input.plan.OpensSlice b := by
      rintro b
      refine or_iff_right_of_imp ?_
      rintro rfl
      exact hroot.2 ho
    simpa [hopens] using hperm
  | false =>
    obtain ⟨below, hends, hnot⟩ := exists_pathEnds_root h
    have hbelow : (below.filter fun b => decide (b = input.plan.root ∨ input.plan.OpensSlice b)) =
        below.filter fun b => decide (input.plan.OpensSlice b) := by
      refine List.filter_congr fun b hb => ?_
      have hne : b ≠ input.plan.root := by
        rintro rfl
        exact hnot hb
      simp [hne]
    rw [hends] at hperm ⊢
    simp only [List.filter_cons, hroot, ho, hbelow, Bool.false_eq_true, decide_false, or_false,
      decide_true, ↓reduceIte] at hperm ⊢
    exact (List.perm_append_singleton _ _).trans (hperm.cons _)

theorem countedRoots_closed [DecidablePred input.plan.IsSliceRoot] (h : run input = .ok s) :
    Closing.countedRoots s.closed.reverse =
      (s.closed.reverse.map (·.root)).filter fun b => decide (input.plan.IsSliceRoot b) := by
  rw [Closing.countedRoots, List.filter_map]
  refine congrArg (List.map _) (List.filter_congr fun c hc => ?_)
  rw [Function.comp_apply, Bool.eq_iff_iff, decide_eq_true_iff]
  exact counted_iff h (List.mem_reverse.1 hc)

open scoped Classical in
theorem countedRoots_closed_perm (h : run input = .ok s) :
    (Closing.countedRoots s.closed.reverse).Perm
      ((input.plan.pathEnds (input.config.maxPlanDepth.toNat + 1) input.plan.root).filter
        fun b => decide (input.plan.IsSliceRoot b)) := by
  rw [countedRoots_closed h]
  refine ((roots_closed_perm h).filter _).trans (.of_eq ?_)
  rw [List.filter_filter]
  refine List.filter_congr fun b _ => ?_
  rw [← Bool.decide_and, decide_eq_decide]
  exact and_iff_left_of_imp Plan.IsSliceRoot.root_or_opensSlice

theorem getLast?_countedRoots_closed (h : run input = .ok s)
    (hs : ¬input.plan.IsSubPlan input.plan.root) :
    (Closing.countedRoots s.closed.reverse).getLast? = some input.plan.root := by
  obtain ⟨-, n, -, hn, hclosed⟩ := closed_of_run h
  rw [hclosed]
  cases ho : n.opensSlice with
  | false =>
    rw [Closing.countedRoots_append]
    exact List.getLast?_concat
  | true =>
    obtain ⟨m, hm, type, hk⟩ := (Plan.opensSlice_iff.1 ⟨n, hn, ho⟩).resolve_right hs
    cases hn.symm.trans hm
    simp only [Input.closings, hn, ho, ↓reduceIte, List.append_nil, Closing.countedRoots_append,
      countedRoots_closing, hk]
    exact List.getLast?_concat

theorem count_roots_closed (h : run input = .ok s) {id : NodeId}
    (hid : id = input.plan.root ∨ input.plan.OpensSlice id) :
    ((s.closed.reverse.map (·.root)).count id : ℕ∞) =
      {path | input.plan.Leads input.plan.root path id}.encard := by
  classical
  obtain ⟨owners, -, hcleared, -, -⟩ := closed_of_run h
  rw [(roots_closed_perm h).count_eq,
    List.count_filter (p := fun b => decide (b = input.plan.root ∨ input.plan.OpensSlice b))
      (decide_eq_true hid), count_pathEnds hcleared]

theorem count_countedRoots_closed (h : run input = .ok s) {id : NodeId}
    (hid : input.plan.IsSliceRoot id) :
    ((Closing.countedRoots s.closed.reverse).count id : ℕ∞) =
      {path | input.plan.Leads input.plan.root path id}.encard := by
  classical
  rw [countedRoots_closed h,
    List.count_filter (p := fun b => decide (input.plan.IsSliceRoot b)) (decide_eq_true hid),
    count_roots_closed h hid.root_or_opensSlice]

theorem length_countedRoots_closed (h : run input = .ok s) :
    ((Closing.countedRoots s.closed.reverse).length : ℕ∞) =
      {path | ∃ id, input.plan.Leads input.plan.root path id ∧
        input.plan.IsSliceRoot id}.encard := by
  classical
  obtain ⟨owners, -, hcleared, -, -⟩ := closed_of_run h
  rw [encard_setOf_leads hcleared, (countedRoots_closed_perm h).length_eq,
    List.countP_eq_length_filter]

/-- The root is listed once, since no path leads back to it. -/
theorem count_root_countedRoots_closed (h : run input = .ok s)
    (hs : ¬input.plan.IsSubPlan input.plan.root) :
    (Closing.countedRoots s.closed.reverse).count input.plan.root = 1 := by
  have hpaths : {path | input.plan.Leads input.plan.root path input.plan.root} = {[]} := by
    ext path
    refine ⟨fun hpath => hpath.eq_nil ((acceptable_of_run h).acyclic .root), ?_⟩
    rintro rfl
    exact .nil
  have hcount := count_countedRoots_closed h (.inr ⟨rfl, hs⟩)
  rw [hpaths, Set.encard_singleton] at hcount
  exact_mod_cast hcount

end Slicing

namespace Plan

variable {plan : Plan} {catalog : Catalog} {config : Config} {a : Annotations}

/-- The nodes with decisions are the motions and sub-plans in reach and the root. The slice roots
are the motions in reach, each listed once for each path of references to it, and last the root, if
that is no sub-plan. If these are too many, then all decisions are full. -/
theorem annotate_complete (h : plan.annotate catalog config = .ok a) :
    (∀ id, (∃ d, a.decision? id = some d) ↔
      id = plan.root ∨ plan.Reached id ∧ (plan.IsMotion id ∨ plan.IsSubPlan id)) ∧
    (∀ id ∈ a.sliceRoots, plan.Reached id ∧ plan.IsSliceRoot id) ∧
    (∀ id, plan.IsSliceRoot id →
      (a.sliceRoots.count id : ℕ∞) = {path | plan.Leads plan.root path id}.encard) ∧
    (¬plan.IsSubPlan plan.root →
      a.sliceRoots.getLast? = some plan.root ∧ a.sliceRoots.count plan.root = 1) ∧
    (∀ id, plan.IsSubPlan id → id ∉ a.sliceRoots) ∧
    (a.fallback = true ↔ (config.maxDirectSlices.toNat : ℕ∞) <
      {path | ∃ id, plan.Leads plan.root path id ∧ plan.IsSliceRoot id}.encard) ∧
    (a.fallback = true → ∀ id d, a.decision? id = some d → d = .full) := by
  classical
  have hfull : a.fallback = true → ∀ id d, a.decision? id = some d → d = .full := by
    intro hf id d hd
    rcases decision?_cases h hd with ⟨-, hd⟩ | ⟨hnot, -⟩
    · exact hd
    · simp [hf] at hnot
  have hdecided := fun id => @exists_decision?_iff plan catalog config a id h
  simp only [opensSlice_iff] at hdecided
  obtain ⟨s, hs, rfl⟩ := Slicing.run_of_annotate h
  have hmem : ∀ id ∈ Closing.countedRoots s.closed.reverse,
      plan.Reached id ∧ plan.IsSliceRoot id := by
    intro id hid
    obtain ⟨owners, -, hcleared, -, -⟩ := Slicing.closed_of_run hs
    obtain ⟨hends, hroot⟩ := List.mem_filter.1 ((Slicing.countedRoots_closed_perm hs).mem_iff.1 hid)
    exact ⟨reached_iff.2 ((Slicing.mem_pathEnds_iff hcleared).1 hends), of_decide_eq_true hroot⟩
  refine ⟨hdecided, hmem, fun id hid => Slicing.count_countedRoots_closed hs hid,
    fun hroot => ⟨Slicing.getLast?_countedRoots_closed hs hroot,
      Slicing.count_root_countedRoots_closed hs hroot⟩,
    fun id hid hin => (hmem id hin).2.not_isSubPlan hid, ?_, hfull⟩
  rw [← Slicing.length_countedRoots_closed hs, Nat.cast_lt]
  exact Annotations.fallback_iff

theorem sharedPlan_complete : ∃ a, sharedPlan.annotate keyedCatalog {} = .ok a ∧
    a.sliceRoots = [⟨3⟩, ⟨3⟩, ⟨0⟩] ∧
    {path | sharedPlan.Leads ⟨0⟩ path ⟨3⟩}.encard = 2 ∧
    ∀ id d, a.decision? id = some d → d = .full := by
  obtain ⟨a, hok, hroots, hf⟩ : ∃ a, sharedPlan.annotate keyedCatalog {} = .ok a ∧
      a.sliceRoots = [⟨3⟩, ⟨3⟩, ⟨0⟩] ∧ a.fallback = true :=
    ⟨_, rfl, by decide +kernel, by decide +kernel⟩
  obtain ⟨-, -, hcount, -, -, -, hfull⟩ := annotate_complete hok
  refine ⟨a, hok, hroots, ?_, hfull hf⟩
  have hmotion : sharedPlan.IsSliceRoot ⟨3⟩ := .inl ⟨_, rfl, .gather, rfl⟩
  have h3 := hcount ⟨3⟩ hmotion
  rw [hroots] at h3
  exact h3.symm

end Plan
end SliceDispatch
