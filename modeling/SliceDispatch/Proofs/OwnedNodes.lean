import SliceDispatch.Proofs.Cutting
import Mathlib.Data.List.Lex
import Mathlib.Data.Set.Card

namespace SliceDispatch

namespace Expr

/-- The expressions right below an expression, from left to right. -/
def parts : Expr → List Expr
  | .column _ | .literal _ | .param _ | .subPlan _ => []
  | .binary _ left right => [left, right]
  | .unary _ operand => [operand]
  | .call _ args => args
  | .inList expr items _ => expr :: items
  | .and members | .or members => members

/-- The expression at a place below an expression. -/
def part? (e : Expr) : List Nat → Option Expr
  | [] => some e
  | i :: place => e.parts[i]?.bind (·.part? place)

def partOf? (es : List Expr) : List Nat → Option Expr
  | [] => none
  | i :: place => es[i]?.bind (·.part? place)

/-- The places at which the sub-plan `id` stands. -/
def places (es : List Expr) (id : NodeId) : Set (List Nat) :=
  {place | partOf? es place = some (.subPlan id)}

/-- The list has the sub-plans that stand at the places of a tree, in the order of the places: an
expression comes before what is below it, and a part before the parts to the right of it. -/
def InOrder (tree : List Nat → Option Expr) (ids : List NodeId) : Prop :=
  ∃ placed : List (List Nat × NodeId), placed.map (·.2) = ids ∧
    placed.Pairwise (fun a b => a.1 < b.1) ∧
    ∀ place id, (place, id) ∈ placed ↔ tree place = some (.subPlan id)

variable {e : Expr} {es : List Expr} {ids : List NodeId}

theorem sizeOf_lt_of_mem_parts {part : Expr} (h : part ∈ e.parts) : sizeOf part < sizeOf e := by
  cases e with
  | column | literal | param | subPlan => cases h
  | binary op left right =>
    simp only [parts, List.mem_cons, List.not_mem_nil, or_false] at h
    rcases h with rfl | rfl
    · simp
      omega
    · simp
  | unary op operand =>
    obtain rfl := List.mem_singleton.1 h
    simp
  | inList expr items negated =>
    rcases List.mem_cons.1 h with rfl | h
    · simp
      omega
    · have := List.sizeOf_lt_of_mem h
      simp
      omega
  | call _ members | and members | or members =>
    change part ∈ members at h
    have := List.sizeOf_lt_of_mem h
    simp
    omega

theorem induction_on_parts {P : Expr → Prop} (step : ∀ e, (∀ part ∈ e.parts, P part) → P e)
    (e : Expr) : P e :=
  step e fun part _ => induction_on_parts step part
termination_by sizeOf e
decreasing_by exact sizeOf_lt_of_mem_parts ‹_›

theorem subPlansAll_eq_flatMap (es : List Expr) : subPlansAll es = es.flatMap subPlans := by
  induction es with
  | nil => rfl
  | cons e es ih => rw [subPlansAll, ih, List.flatMap_cons]

theorem subPlans_cases (e : Expr) : (∃ id, e = .subPlan id) ∨
    (∀ id, e ≠ .subPlan id) ∧ e.subPlans = e.parts.flatMap subPlans := by
  cases e with
  | subPlan id => exact .inl ⟨id, rfl⟩
  | _ => exact .inr ⟨fun _ => Expr.noConfusion, by simp [subPlans, parts, subPlansAll_eq_flatMap]⟩

theorem exists_lt_length_of_partOf? {place : List Nat} {part : Expr}
    (h : partOf? es place = some part) : ∃ i rest, place = i :: rest ∧ i < es.length := by
  cases place with
  | nil => cases h
  | cons i rest =>
    refine ⟨i, rest, rfl, ?_⟩
    by_contra hge
    simp [partOf?, List.getElem?_eq_none (Nat.not_lt.1 hge)] at h

/-- The sub-plans of a list are in order if those of each of its expressions are. -/
theorem inOrder_partOf? (h : ∀ e ∈ es, InOrder e.part? e.subPlans) :
    InOrder (partOf? es) (es.flatMap subPlans) := by
  induction es using List.reverseRecOn with
  | nil =>
    refine ⟨[], rfl, .nil, fun place id => ?_⟩
    cases place <;> simp [partOf?]
  | append_singleton es e ih =>
    obtain ⟨front, hids, hlt, hmem⟩ := ih fun e he => h e (List.mem_append_left _ he)
    obtain ⟨last, hids', hlt', hmem'⟩ := h e (by simp)
    -- the last expression has the number of those before it
    refine ⟨front ++ last.map fun p => (es.length :: p.1, p.2), ?_, ?_, ?_⟩
    · simp [hids, ← hids', Function.comp_def]
    · refine List.pairwise_append.2 ⟨hlt, List.pairwise_map.2 (hlt'.imp ?_), ?_⟩
      · intro a b hab
        exact List.cons_lt_cons_iff.2 (.inr ⟨rfl, hab⟩)
      · intro a ha b hb
        obtain ⟨c, -, rfl⟩ := List.mem_map.1 hb
        obtain ⟨i, rest, hplace, hi⟩ := exists_lt_length_of_partOf? ((hmem a.1 a.2).1 ha)
        rw [hplace]
        exact List.cons_lt_cons_iff.2 (.inl hi)
    · intro place id
      rw [List.mem_append, hmem]
      cases place with
      | nil => simp [partOf?]
      | cons i place =>
        rcases Nat.lt_trichotomy i es.length with hi | rfl | hi
        · simp [partOf?, List.getElem?_append_left hi, Nat.ne_of_gt hi]
        · simp [partOf?, hmem']
        · simp [partOf?, Nat.le_of_lt hi, Nat.ne_of_lt hi, hi]

theorem inOrder_part? (e : Expr) : InOrder e.part? e.subPlans := by
  induction e using induction_on_parts with
  | step e ih =>
    rcases e.subPlans_cases with ⟨id, rfl⟩ | ⟨hne, hparts⟩
    · refine ⟨[([], id)], rfl, List.pairwise_singleton _ _, fun place id' => ?_⟩
      cases place <;> simp [part?, parts, eq_comm]
    · -- no sub-plan stands at the place of the expression itself
      rw [hparts]
      obtain ⟨placed, hids, hlt, hmem⟩ := inOrder_partOf? ih
      refine ⟨placed, hids, hlt, fun place id => (hmem place id).trans ?_⟩
      cases place with
      | nil => simp [part?, partOf?, hne id]
      | cons i place => rfl

theorem inOrder_flatMap (es : List Expr) : InOrder (partOf? es) (es.flatMap subPlans) :=
  inOrder_partOf? fun e _ => inOrder_part? e

theorem InOrder.count_eq {tree : List Nat → Option Expr} (h : InOrder tree ids) (id : NodeId) :
    (ids.count id : ℕ∞) = {place | tree place = some (.subPlan id)}.encard := by
  classical
  obtain ⟨placed, rfl, hlt, hmem⟩ := h
  have hnodup : ((placed.filter (·.2 == id)).map (·.1)).Nodup :=
    List.pairwise_map.2 ((hlt.filter _).imp fun hab => ne_of_lt hab)
  have hset : {place | tree place = some (.subPlan id)} =
      (((placed.filter (·.2 == id)).map (·.1)).toFinset : Set (List Nat)) := by
    ext place
    simp [← hmem]
  rw [hset, Set.encard_coe_eq_coe_finsetCard, List.toFinset_card_of_nodup hnodup, List.length_map,
    List.count_eq_countP, List.countP_map, List.countP_eq_length_filter]
  rfl

end Expr

/-- The expressions that a kind carries: the condition of a join or of an index scan, or the
arguments of a sub-plan. -/
inductive Kind.Carries : Kind → List Expr → Prop
  | operator (op : Operator) : Carries (.operator op) []
  | join (method : JoinMethod) (condition : Option Expr) :
      Carries (.join method condition) condition.toList
  | seqScan (range : UInt32) : Carries (.seqScan range) []
  | indexScan (method : IndexMethod) (range : UInt32) (condition : Option Expr) :
      Carries (.indexScan method range condition) condition.toList
  | unplacedScan (scan : UnplacedScan) (range : UInt32) : Carries (.unplacedScan scan range) []
  | derivedScan (scan : DerivedScan) : Carries (.derivedScan scan) []
  | motion (type : MotionType) : Carries (.motion type) []
  | subPlan (plan : NodeId) (isInit : Bool) (args : List Expr) :
      Carries (.subPlan plan isInit args) args
  | unrecognized (tag : String) : Carries (.unrecognized tag) []

theorem Kind.carries_expressions (k : Kind) : k.Carries k.expressions := by
  cases k <;> constructor

namespace Slicing

/-- The nodes of a list are adopted and visited in turn, on the way from one state to another. -/
inductive VisitsAll (root owner : NodeId) (visit : NodeId → Slicing → Except Fault Slicing) :
    List NodeId → Slicing → Slicing → Prop
  | nil {s : Slicing} : VisitsAll root owner visit [] s s
  | cons {id : NodeId} {ids : List NodeId} {s u v t : Slicing} : s.adopt root owner id = .ok u →
      visit id u = .ok v → VisitsAll root owner visit ids v t →
      VisitsAll root owner visit (id :: ids) s t

/-- The way through a list of nodes ends at `id`, after those in `done`: the node is shared, or it
cannot be visited. -/
inductive StopsAt (root owner : NodeId) (visit : NodeId → Slicing → Except Fault Slicing)
    (done : List NodeId) (id : NodeId) (s : Slicing) : Fault → Prop
  | repeated : id ∈ done → StopsAt root owner visit done id s (.shared id)
  | root : id = root → StopsAt root owner visit done id s (.shared id)
  | taken {other : NodeId} : s.owners.lookup id = some other → other ≠ owner →
      StopsAt root owner visit done id s (.shared id)
  | visit {u : Slicing} {f : Fault} : s.adopt root owner id = .ok u → visit id u = .error f →
      StopsAt root owner visit done id s f

variable {root owner id : NodeId} {visit : NodeId → Slicing → Except Fault Slicing} {s : Slicing}

theorem stopsAt_of_adopt {f : Fault} (h : s.adopt root owner id = .error f) (done : List NodeId) :
    StopsAt root owner visit done id s f := by
  unfold adopt at h
  split at h
  · rename_i hroot
    cases h
    exact .root hroot
  split at h
  · cases h
  · rename_i other hother
    split at h
    · cases h
    · rename_i hne
      cases h
      exact .taken hother hne

/-- All nodes of a list are visited, and none is listed twice, or the way through the list ends at
the first node that is not visited. -/
theorem meets_cutOwned (before ids : List NodeId) (s : Slicing) :
    Meets (fun t => (∀ id ∈ ids, id ∉ before) ∧ ids.Nodup ∧ VisitsAll root owner visit ids s t)
      (fun f => ∃ done id rest t, ids = done ++ id :: rest ∧ VisitsAll root owner visit done s t ∧
        StopsAt root owner visit (before.reverse ++ done) id t f)
      (cutOwned root owner visit before ids s) := by
  induction ids generalizing before s with
  | nil => exact ⟨List.forall_mem_nil _, .nil, .nil⟩
  | cons id ids ih =>
    rw [cutOwned]
    split
    · rename_i hbefore
      exact ⟨[], id, ids, s, rfl, .nil, .repeated (by simpa using hbefore)⟩
    rename_i hbefore
    refine Meets.bind (P := fun u => s.adopt root owner id = .ok u) ?_ fun u hadopt => ?_
    · cases hadopt : s.adopt root owner id with
      | error f => exact ⟨[], id, ids, s, rfl, .nil, stopsAt_of_adopt hadopt _⟩
      | ok u => rfl
    refine Meets.bind (P := fun v => visit id u = .ok v) ?_ fun v hvisit => ?_
    · cases hvisit : visit id u with
      | error f => exact ⟨[], id, ids, s, rfl, .nil, .visit hadopt hvisit⟩
      | ok v => rfl
    -- from here on `id` has had its turn
    apply (ih (id :: before) v).mono
    · rintro t ⟨hfresh, hnodup, hall⟩
      refine ⟨List.forall_mem_cons.2 ⟨hbefore, fun b hb hmem => ?_⟩, ?_, .cons hadopt hvisit hall⟩
      · exact hfresh b hb (List.mem_cons_of_mem _ hmem)
      · exact List.nodup_cons.2 ⟨fun hid => hfresh id hid List.mem_cons_self, hnodup⟩
    · rintro f ⟨done, b, rest, t, rfl, hdone, hstops⟩
      refine ⟨id :: done, b, rest, t, rfl, .cons hadopt hvisit hdone, ?_⟩
      simpa using hstops

end Slicing

namespace Node

/-- A node owns the sub-plans in its targets, in its qual and in what its kind carries, then its
children, then its init plans, each as often as it has a place there. Where the plan is cut, all of
them are visited up to the first that is shared or cannot be visited. -/
theorem owned_misses_none (n : Node) : ∃ es, n.kind.Carries es ∧
    (∃ targets qual own, Expr.InOrder (Expr.partOf? n.targets) targets ∧
      Expr.InOrder (Expr.partOf? n.qual.toList) qual ∧ Expr.InOrder (Expr.partOf? es) own ∧
      n.owned = targets ++ qual ++ own ++ n.children ++ n.initPlans) ∧
    (∀ id, (n.owned.count id : ℕ∞) = (Expr.places n.targets id).encard +
      (Expr.places n.qual.toList id).encard + (Expr.places es id).encard +
      n.children.count id + n.initPlans.count id) ∧
    ∀ root owner visit s, Slicing.Meets
      (fun t => n.owned.Nodup ∧ Slicing.VisitsAll root owner visit n.owned s t)
      (fun f => ∃ done id rest t, n.owned = done ++ id :: rest ∧
        Slicing.VisitsAll root owner visit done s t ∧ Slicing.StopsAt root owner visit done id t f)
      (Slicing.cutOwned root owner visit [] n.owned s) := by
  have howned : n.owned = n.targets.flatMap Expr.subPlans ++ n.qual.toList.flatMap Expr.subPlans ++
      n.kind.expressions.flatMap Expr.subPlans ++ n.children ++ n.initPlans := by
    rw [owned, expressions, List.flatMap_append, List.flatMap_append]
  refine ⟨n.kind.expressions, n.kind.carries_expressions, ?_, ?_, ?_⟩
  · exact ⟨_, _, _, Expr.inOrder_flatMap _, Expr.inOrder_flatMap _, Expr.inOrder_flatMap _, howned⟩
  · intro id
    have hcount := fun es => (Expr.inOrder_flatMap es).count_eq id
    simp only [Expr.places, ← hcount, howned, List.count_append, Nat.cast_add]
  · intro root owner visit s
    exact (Slicing.meets_cutOwned [] n.owned s).mono (fun _ => And.right) fun _ hstops => hstops

-- the sub-plan in the qual comes before the child and the init plan
example : (⟨.operator .result, some (.equals (.column ⟨none, "a", 0⟩) (.subPlan ⟨2⟩)), [], [⟨0⟩],
    [⟨1⟩]⟩ : Node).owned = [⟨2⟩, ⟨0⟩, ⟨1⟩] := rfl

end Node
end SliceDispatch
