import SliceDispatch.Slicing
import SliceDispatch.Proofs.References
import Mathlib.Data.List.Basic

namespace SliceDispatch

namespace Slicing.Input

/-- What a node itself contributes to the slice that it is visited in. -/
def contribution? (input : Input) (n : Node) : Option Decision :=
  let ofScan (range : UInt32) (predicate : Option Expr) : Option Decision :=
    (input.plan.range? range).map fun entry =>
      ScanDecision.ofEntry input.catalog input.config.combinationFactor entry predicate
  match n.kind with
  | .seqScan range => ofScan range n.qual
  | .indexScan _ range condition => ofScan range condition
  | .unplacedScan _ _ | .derivedScan _ | .motion _ => some .full
  | _ => none

theorem contribution?_cases (n : Node) :
    (∃ range predicate, n.Scans range predicate ∧ ∀ input : Input, input.contribution? n =
      (input.plan.range? range).map fun entry =>
        ScanDecision.ofEntry input.catalog input.config.combinationFactor entry predicate) ∨
    (∀ input : Input, input.contribution? n = none) ∨
    ∀ input : Input, input.contribution? n = some .full := by
  unfold contribution?
  cases hk : n.kind with
  | seqScan range => exact .inl ⟨range, n.qual, .seq hk, fun _ => rfl⟩
  | indexScan method range condition => exact .inl ⟨range, condition, .index hk, fun _ => rfl⟩
  | unplacedScan | derivedScan | motion => exact .inr (.inr fun _ => rfl)
  | _ => exact .inr (.inl fun _ => rfl)

theorem contribution?_of_scans {input : Input} {n : Node} {range : UInt32} {predicate : Option Expr}
    {entry : RangeEntry} (h : n.Scans range predicate) (hr : input.plan.range? range = some entry) :
    input.contribution? n = some
      (ScanDecision.ofEntry input.catalog input.config.combinationFactor entry predicate) := by
  unfold contribution?
  rcases h with h | h <;> simp [h, hr]

/-- What a subtree contributes to the slice that it is cut in, at most `levels` levels deep. -/
def contributions (input : Input) : Nat → NodeId → List Decision
  | 0, _ => []
  | levels + 1, id =>
    match input.plan.node? id with
    | none => []
    | some n => (input.contribution? n).toList ++ n.stays.flatMap (input.contributions levels)

/-- The slice that a node opens, when it closes. -/
def closing (input : Input) (levels : Nat) (id : NodeId) (n : Node) : Closing where
  root := id
  counted := match n.kind with
    | .motion _ => true
    | _ => false
  slice := (n.enters.flatMap (input.contributions levels)).foldl OpenSlice.merge .empty

/-- The slices that close in a subtree, in order. -/
def closings (input : Input) : Nat → NodeId → List Closing
  | 0, _ => []
  | levels + 1, id =>
    match input.plan.node? id with
    | none => []
    | some n => (n.stays ++ n.enters).flatMap (input.closings levels) ++
        if n.opensSlice then [input.closing levels id n] else []

end Slicing.Input

namespace Slicing

variable {input : Input} {visit : NodeId → Slicing → Except Fault Slicing}
variable {root owner id : NodeId} {levels : Nat} {s t u : Slicing}

theorem bind_eq_ok {ε α β : Type} {x : Except ε α} {f : α → Except ε β} {b : β} :
    x >>= f = .ok b ↔ ∃ a, x = .ok a ∧ f a = .ok b := by
  cases x <;> simp [bind, Except.bind]

theorem map_eq_ok {ε α β : Type} {x : Except ε α} {f : α → β} {b : β} :
    f <$> x = .ok b ↔ ∃ a, x = .ok a ∧ f a = b := by
  cases x <;> simp [Functor.map, Except.map]

/-- Whether a result satisfies `Q`, or the fault in its place `R`. -/
def Meets {ε α : Type} (Q : α → Prop) (R : ε → Prop) : Except ε α → Prop
  | .ok a => Q a
  | .error e => R e

theorem Meets.bind {ε α β : Type} {P : α → Prop} {Q : β → Prop} {R : ε → Prop} {x : Except ε α}
    {f : α → Except ε β} (h : Meets P R x) (k : ∀ a, P a → Meets Q R (f a)) :
    Meets Q R (x >>= f) := by
  cases x with
  | error e => exact h
  | ok a => exact k a h

theorem Meets.mono {ε α : Type} {P Q : α → Prop} {R S : ε → Prop} {x : Except ε α}
    (h : Meets P R x) (hok : ∀ a, P a → Q a) (herror : ∀ e, R e → S e) : Meets Q S x := by
  cases x with
  | error e => exact herror e h
  | ok a => exact hok a h

theorem Meets.map {ε α β : Type} {P : α → Prop} {Q : β → Prop} {R : ε → Prop} {x : Except ε α}
    {f : α → β} (h : Meets P R x) (k : ∀ a, P a → Q (f a)) : Meets Q R (f <$> x) := by
  cases x with
  | error e => exact h
  | ok a => exact k a h

/-- What a node does before the nodes that it owns are cut. -/
def arrive (input : Input) (visit : NodeId → Slicing → Except Fault Slicing) (id : NodeId)
    (s : Slicing) : SliceEffect → Except Fault Slicing
  | .relay => pure s
  | .scan range predicate =>
    match input.plan.range? range with
    | none => .error (.missingRange id range)
    | some entry => s.inform
        (ScanDecision.ofEntry input.catalog input.config.combinationFactor entry predicate)
  | .everywhere => s.inform .full
  | .motion => enter <$> s.inform .full
  | .subPlan plan true => visit plan s.enter
  | .subPlan plan false => enter <$> visit plan s
  | .unrecognized tag => .error (.unrecognized id tag)

def depart (id : NodeId) (s : Slicing) : SliceEffect → Except Fault Slicing
  | .motion => s.leave id true
  | .subPlan _ _ => s.leave id false
  | _ => pure s

theorem cut_succ (input : Input) (levels : Nat) (id : NodeId) (s : Slicing) :
    cut input (levels + 1) id s =
      match input.plan.node? id with
      | none => .error (.dangling id)
      | some n =>
        arrive input (cut input levels) id s n.effect >>= fun s =>
          cutOwned input.plan.root id (cut input levels) [] n.owned s >>= fun s =>
            s.depart id n.effect := by
  rw [cut]
  cases input.plan.node? id with
  | none => rfl
  | some n =>
    dsimp only
    cases n.effect with
    | subPlan plan isInit => cases isInit <;> simp [arrive, depart]
    | scan range predicate =>
      cases h : input.plan.range? range with
      | none => simp only [arrive, h]; rfl
      | some entry => simp [arrive, depart, h]
    | unrecognized tag => rfl
    | _ => simp [arrive, depart]

def informIf : Option Decision → Slicing → Except Fault Slicing
  | none, s => pure s
  | some d, s => s.inform d

/-- The ways in which a node is cut. -/
inductive Passes (input : Input) (levels : Nat) (id : NodeId) (n : Node) (s t : Slicing) : Prop
  | stay {u : Slicing} : n.opensSlice = false →
      (∀ range predicate, n.Scans range predicate → (input.plan.range? range).isSome) →
      (∀ tag, n.kind ≠ .unrecognized tag) →
      s.informIf (input.contribution? n) = .ok u →
      cutOwned input.plan.root id (cut input levels) [] n.owned u = .ok t →
      Passes input levels id n s t
  | motion {type : MotionType} {u v : Slicing} : n.kind = .motion type → s.inform .full = .ok u →
      cutOwned input.plan.root id (cut input levels) [] n.owned u.enter = .ok v →
      v.leave id true = .ok t → Passes input levels id n s t
  | initPlan {plan : NodeId} {args : List Expr} {u v : Slicing} : n.kind = .subPlan plan true args →
      cut input levels plan s.enter = .ok u →
      cutOwned input.plan.root id (cut input levels) [] n.owned u = .ok v →
      v.leave id false = .ok t → Passes input levels id n s t
  | plan {plan : NodeId} {args : List Expr} {u v : Slicing} : n.kind = .subPlan plan false args →
      cut input levels plan s = .ok u →
      cutOwned input.plan.root id (cut input levels) [] n.owned u.enter = .ok v →
      v.leave id false = .ok t → Passes input levels id n s t

theorem informIf_of_arrive {n : Node} (hn : n.opensSlice = false)
    (h : arrive input visit id s n.effect = .ok u) :
    s.informIf (input.contribution? n) = .ok u ∧
      (∀ range predicate, n.Scans range predicate → (input.plan.range? range).isSome) ∧
      ∀ tag, n.kind ≠ .unrecognized tag := by
  simp only [Node.scans_iff_effect]
  unfold Node.opensSlice at hn
  unfold Node.effect at h ⊢
  unfold Input.contribution?
  cases hk : n.kind with
  | motion | subPlan => simp [hk] at hn
  | unrecognized tag => simp [hk, arrive] at h
  | seqScan range | indexScan method range condition =>
    simp only [hk, arrive] at h
    cases hr : input.plan.range? range with
    | none => simp [hr] at h
    | some entry => simp_all [informIf]
  | _ => simpa [hk, arrive, informIf] using h

theorem passes_of_cut (h : cut input (levels + 1) id s = .ok t) :
    ∃ n, input.plan.node? id = some n ∧ Passes input levels id n s t := by
  rw [cut_succ] at h
  cases hn : input.plan.node? id with
  | none => simp [hn] at h
  | some n =>
    refine ⟨n, rfl, ?_⟩
    simp only [hn, bind_eq_ok] at h
    obtain ⟨u, hu, v, hv, ht⟩ := h
    by_cases hs : n.opensSlice = true
    · unfold Node.opensSlice at hs
      unfold Node.effect at hu ht
      cases hk : n.kind with
      | motion type =>
        simp only [hk, arrive, depart, map_eq_ok] at hu ht
        obtain ⟨w, hw, rfl⟩ := hu
        exact .motion hk hw hv ht
      | subPlan plan isInit args =>
        cases isInit with
        | true =>
          simp only [hk, arrive, depart] at hu ht
          exact .initPlan hk hu hv ht
        | false =>
          simp only [hk, arrive, depart, map_eq_ok] at hu ht
          obtain ⟨w, hw, rfl⟩ := hu
          exact .plan hk hw hv ht
      | _ => simp [hk] at hs
    · simp only [Bool.not_eq_true] at hs
      obtain ⟨hi, hr, hk⟩ := informIf_of_arrive hs hu
      -- there is no slice of its own to close
      have hd : depart id v n.effect = .ok v := by
        unfold Node.opensSlice at hs
        unfold Node.effect
        cases hk : n.kind <;> first | rfl | simp [hk] at hs
      rw [hd] at ht
      cases ht
      exact .stay hs hr hk hi hv

/-- From `s` to `t` the innermost slice took the contributions `ds`, the slices `cs` closed, and the
slices around the innermost one stayed as they were. -/
structure Extends (s : Slicing) (ds : List Decision) (cs : List Closing) (t : Slicing) : Prop where
  slices : ∀ {inner outer}, s.slices = ⟨inner :: outer⟩ →
    t.slices = ⟨ds.foldl OpenSlice.merge inner :: outer⟩
  closed : t.closed = cs.reverse ++ s.closed

theorem Extends.refl (s : Slicing) : Extends s [] [] s := ⟨fun h => h, rfl⟩

theorem Extends.trans {ds es : List Decision} {cs bs : List Closing} (h : Extends s ds cs t)
    (k : Extends t es bs u) : Extends s (ds ++ es) (cs ++ bs) u where
  slices hs := by rw [k.slices (h.slices hs), List.foldl_append]
  closed := by rw [k.closed, h.closed, List.reverse_append, List.append_assoc]

theorem extends_inform {d : Decision} (h : s.inform d = .ok t) : Extends s [d] [] t := by
  unfold inform at h
  cases hc : s.slices.contribute? d with
  | none => simp [hc] at h
  | some slices =>
    simp only [hc, Except.ok.injEq] at h
    subst h
    refine ⟨fun hs => ?_, rfl⟩
    simp only [OpenSlices.contribute?, hs, Option.some.injEq] at hc
    exact hc.symm

theorem extends_informIf {d : Option Decision} (h : s.informIf d = .ok t) :
    Extends s d.toList [] t := by
  cases d with
  | none =>
    cases h
    exact .refl s
  | some d => exact extends_inform h

/-- A slice that is entered and left takes all contributions in between for itself. -/
theorem extends_leave {ds : List Decision} {cs : List Closing} {counted : Bool}
    (h : Extends s.enter ds cs t) (hl : t.leave id counted = .ok u) :
    Extends s [] (cs ++ [⟨id, counted, ds.foldl OpenSlice.merge .empty⟩]) u := by
  have ht := @h.slices .empty s.slices.slices rfl
  simp only [leave, OpenSlices.pop?, ht, Except.ok.injEq] at hl
  subst hl
  refine ⟨fun hs => hs, ?_⟩
  rw [h.closed]
  simp [enter]

theorem owners_adopt_cases (h : s.adopt root owner id = .ok t) : id ≠ root ∧
    (s.owners.lookup id = none ∧ t = { s with owners := (id, owner) :: s.owners } ∨
      s.owners.lookup id = some owner ∧ t = s) := by
  unfold adopt at h
  split at h
  · cases h
  · rename_i hid
    refine ⟨hid, ?_⟩
    split at h
    · rename_i hl
      cases h
      exact .inl ⟨hl, rfl⟩
    · rename_i other hl
      split at h
      · rename_i ho
        cases h
        exact .inr ⟨ho ▸ hl, rfl⟩
      · cases h

theorem extends_adopt (h : s.adopt root owner id = .ok t) : Extends s [] [] t := by
  obtain ⟨-, ⟨-, rfl⟩ | ⟨-, rfl⟩⟩ := owners_adopt_cases h
  · exact ⟨fun hs => hs, rfl⟩
  · exact .refl _

theorem cutOwned_cons {before ids : List NodeId}
    (h : cutOwned root owner visit before (id :: ids) s = .ok t) :
    id ∉ before ∧ ∃ u v, s.adopt root owner id = .ok u ∧ visit id u = .ok v ∧
      cutOwned root owner visit (id :: before) ids v = .ok t := by
  rw [cutOwned] at h
  split at h
  · cases h
  · rename_i hb
    obtain ⟨u, hu, h⟩ := bind_eq_ok.1 h
    obtain ⟨v, hv, h⟩ := bind_eq_ok.1 h
    exact ⟨hb, u, v, hu, hv, h⟩

theorem extends_cutOwned {ds : NodeId → List Decision} {cs : NodeId → List Closing}
    {before ids : List NodeId} (h : cutOwned root owner visit before ids s = .ok t)
    (hvisit : ∀ id s t, visit id s = .ok t → Extends s (ds id) (cs id) t) :
    Extends s (ids.flatMap ds) (ids.flatMap cs) t := by
  induction ids generalizing before s with
  | nil =>
    cases h
    exact .refl _
  | cons id ids ih =>
    obtain ⟨-, u, v, hu, hv, ht⟩ := cutOwned_cons h
    exact ((extends_adopt hu).trans (hvisit _ _ _ hv)).trans (ih ht)

/-- A subtree contributes the same and closes the same slices wherever it is cut. -/
theorem extends_cut (h : cut input levels id s = .ok t) :
    Extends s (input.contributions levels id) (input.closings levels id) t := by
  induction levels generalizing id s t with
  | zero => cases h
  | succ levels ih =>
    obtain ⟨n, hn, hp⟩ := passes_of_cut h
    simp only [Input.contributions, Input.closings, hn]
    cases hp with
    | stay hs _ _ hu ht =>
      -- only nodes that open a slice enter something
      have he : n.enters = [] := by
        by_contra hne
        obtain ⟨b, hb⟩ := List.exists_mem_of_ne_nil _ hne
        simp [Node.opensSlice_of_mem_enters hb] at hs
      have hc := (extends_informIf hu).trans (extends_cutOwned ht fun _ _ _ => ih)
      simpa [Node.stays_of_opensSlice_eq_false hs, he, hs] using hc
    | motion hk hu hv ht =>
      have hc := (extends_inform hu).trans (extends_leave (extends_cutOwned hv fun _ _ _ => ih) ht)
      simpa [Node.stays, Node.enters, Node.opensSlice, Input.contribution?, Input.closing, hk]
        using hc
    | initPlan hk hu hv ht =>
      have hc := extends_leave ((ih hu).trans (extends_cutOwned hv fun _ _ _ => ih)) ht
      simpa [Node.stays, Node.enters, Node.opensSlice, Input.contribution?, Input.closing, hk]
        using hc
    | plan hk hu hv ht =>
      have hc := (ih hu).trans (extends_leave (extends_cutOwned hv fun _ _ _ => ih) ht)
      simpa [Node.stays, Node.enters, Node.opensSlice, Input.contribution?, Input.closing, hk]
        using hc

theorem cut_of_run (h : run input = .ok t) : ∃ s,
    cut input (input.config.maxPlanDepth.toNat + 1) input.plan.root start = .ok s ∧
      leaveRoot input s = .ok t := by
  obtain ⟨s, hs, h⟩ := bind_eq_ok.1 h
  obtain ⟨u, hu, h⟩ := bind_eq_ok.1 h
  split at h
  · cases h
    exact ⟨s, hs, hu⟩
  · cases h

variable {plan : Plan} {catalog : Catalog} {config : Config}

theorem run_of_annotate {a : Annotations} (h : plan.annotate catalog config = .ok a) : ∃ s,
    run ⟨catalog, config, plan⟩ = .ok s ∧
      a = .ofClosings config catalog.segments s.closed.reverse := by
  obtain ⟨s, hs, rfl⟩ := map_eq_ok.1 h
  exact ⟨s, hs, rfl⟩

theorem run_of_annotate_error {f : Fault} (h : plan.annotate catalog config = .error f) :
    run ⟨catalog, config, plan⟩ = .error f := by
  unfold Plan.annotate at h
  cases hr : run ⟨catalog, config, plan⟩ with
  | error e => simpa [hr, Except.map] using h
  | ok s => simp [hr, Except.map] at h

end Slicing
end SliceDispatch
