import SliceDispatch.Proofs.Lockstep
import SliceDispatch.Proofs.RenamedNodes
import SliceDispatch.Proofs.Slices
import Mathlib.Data.List.Find
import Mathlib.Data.Set.Function

namespace SliceDispatch

variable {f : NodeId → NodeId}

namespace Plan

/-- `q` has all nodes that `p` reaches under new names, and misses those that `p` misses. What else
is in `q` is left open. -/
structure RenamedBy (f : NodeId → NodeId) (p q : Plan) : Prop where
  injOn : Set.InjOn f {id | p.Reached id}
  root : q.root = f p.root
  node? : ∀ {id}, p.Reached id → q.node? (f id) = (p.node? id).map (Node.rename f)
  ranges : q.ranges = p.ranges

/-- The catalogs have equally many segments, and distribute the tables alike that `p` scans. -/
structure SameTables (p : Plan) (catalog catalog' : Catalog) : Prop where
  segments : catalog'.segments = catalog.segments
  distribution? : ∀ {id n range predicate entry table}, p.Reached id → p.node? id = some n →
    n.Scans range predicate → p.range? range = some entry → entry.table = some table →
    catalog.distribution? table = catalog'.distribution? table

theorem RenamedBy.eq_iff {p q : Plan} (h : p.RenamedBy f q) {a b : NodeId} (ha : p.Reached a)
    (hb : p.Reached b) : f a = f b ↔ a = b :=
  h.injOn.eq_iff ha hb

theorem RenamedBy.range? {p q : Plan} (h : p.RenamedBy f q) (range : UInt32) :
    q.range? range = p.range? range := by
  rw [Plan.range?, h.ranges, Plan.range?]

end Plan

def Fault.rename (f : NodeId → NodeId) : Fault → Fault
  | .unrecognized node tag => .unrecognized (f node) tag
  | .dangling node => .dangling (f node)
  | .shared node => .shared (f node)
  | .missingRange node range => .missingRange (f node) range
  | fault => fault

def Closing.rename (f : NodeId → NodeId) (c : Closing) : Closing := { c with root := f c.root }

namespace Slicing

/-- `t` is `s` with all nodes renamed, which are nodes that `p` reaches. -/
structure Renamed (f : NodeId → NodeId) (p : Plan) (s t : Slicing) : Prop where
  slices : t.slices = s.slices
  owners : t.owners = s.owners.map (Prod.map f f)
  closed : t.closed = s.closed.map (Closing.rename f)
  reached_owners : ∀ pair ∈ s.owners, p.Reached pair.1 ∧ p.Reached pair.2
  reached_closed : ∀ c ∈ s.closed, p.Reached c.root

def Mirrors (f : NodeId → NodeId) (p : Plan) (x y : Except Fault Slicing) : Prop :=
  Tracks (fun _ => False) (Renamed f p) (x.mapError (Fault.rename f)) y

variable {p q : Plan} {s t : Slicing} {x y : Except Fault Slicing}
  {visit visit' : NodeId → Slicing → Except Fault Slicing} {root owner id : NodeId}

theorem Mirrors.bind {g k : Slicing → Except Fault Slicing} (h : Mirrors f p x y)
    (hgk : ∀ {s t}, Renamed f p s t → Mirrors f p (g s) (k t)) :
    Mirrors f p (x >>= g) (y >>= k) := by
  have hbind : (x >>= g).mapError (Fault.rename f) =
      x.mapError (Fault.rename f) >>= fun s => (g s).mapError (Fault.rename f) := by
    cases x <;> rfl
  rw [Mirrors, hbind]
  exact Tracks.bind h fun _ _ => hgk

theorem Mirrors.map {g : Slicing → Slicing} (h : Mirrors f p x y)
    (hg : ∀ {s t}, Renamed f p s t → Renamed f p (g s) (g t)) :
    Mirrors f p (g <$> x) (g <$> y) := by
  have hmap : (g <$> x).mapError (Fault.rename f) = g <$> x.mapError (Fault.rename f) := by
    cases x <;> rfl
  rw [Mirrors, hmap]
  exact Tracks.map h fun _ _ => hg

theorem lookup_map_prodMap {owners : List (NodeId × NodeId)} {S : Set NodeId} (hf : Set.InjOn f S)
    (howners : ∀ pair ∈ owners, pair.1 ∈ S) (hid : id ∈ S) :
    (owners.map (Prod.map f f)).lookup (f id) = (owners.lookup id).map f := by
  induction owners with
  | nil => rfl
  | cons pair owners ih =>
    obtain ⟨hpair, howners⟩ := List.forall_mem_cons.1 howners
    have hkey : (f id == f pair.1) = (id == pair.1) := by
      rw [Bool.eq_iff_iff, beq_iff_eq, beq_iff_eq, hf.eq_iff hid hpair]
    rw [List.map_cons, List.lookup_cons, List.lookup_cons, ih howners]
    simp only [Prod.map_fst, Prod.map_snd, hkey]
    cases id == pair.1 <;> rfl

namespace Renamed

theorem start (f : NodeId → NodeId) (p : Plan) : Renamed f p start start :=
  ⟨rfl, rfl, rfl, List.forall_mem_nil _, List.forall_mem_nil _⟩

theorem inform (h : Renamed f p s t) (d : Decision) : Mirrors f p (s.inform d) (t.inform d) := by
  unfold Slicing.inform
  rw [h.slices]
  cases s.slices.contribute? d with
  | none => exact .fault
  | some slices => exact .ok ⟨rfl, h.owners, h.closed, h.reached_owners, h.reached_closed⟩

theorem enter (h : Renamed f p s t) : Renamed f p s.enter t.enter :=
  ⟨by rw [Slicing.enter, h.slices, Slicing.enter], h.owners, h.closed, h.reached_owners,
    h.reached_closed⟩

theorem leave (h : Renamed f p s t) (hid : p.Reached id) (counted : Bool) :
    Mirrors f p (s.leave id counted) (t.leave (f id) counted) := by
  unfold Slicing.leave
  rw [h.slices]
  cases s.slices.pop? with
  | none => exact .fault
  | some popped =>
    refine .ok ⟨rfl, h.owners, ?_, h.reached_owners, ?_⟩
    · simp [h.closed, Closing.rename]
    · exact List.forall_mem_cons.2 ⟨hid, h.reached_closed⟩

theorem adopt (h : Renamed f p s t) (hf : Set.InjOn f {id | p.Reached id}) (hroot : p.Reached root)
    (howner : p.Reached owner) (hid : p.Reached id) :
    Mirrors f p (s.adopt root owner id) (t.adopt (f root) (f owner) (f id)) := by
  have hlookup : t.owners.lookup (f id) = (s.owners.lookup id).map f := by
    rw [h.owners]
    exact lookup_map_prodMap hf (fun pair hpair => (h.reached_owners pair hpair).1) hid
  simp only [Slicing.adopt, hlookup, hf.eq_iff hid hroot]
  split
  · exact .fault
  cases hl : s.owners.lookup id with
  | none =>
    refine .ok ⟨h.slices, ?_, h.closed, ?_, h.reached_closed⟩
    · simp [h.owners]
    · exact List.forall_mem_cons.2 ⟨⟨hid, howner⟩, h.reached_owners⟩
  | some other =>
    obtain ⟨before, after, howners, -⟩ := List.lookup_eq_some_iff.1 hl
    have hother : p.Reached other := (h.reached_owners (id, other) (by simp [howners])).2
    simp only [Option.map_some, hf.eq_iff hother howner]
    split
    · exact .ok h
    · exact .fault

end Renamed

theorem mirrors_cutOwned (h : p.RenamedBy f q)
    (hvisit : ∀ {id s t}, p.Reached id → Renamed f p s t →
      Mirrors f p (visit id s) (visit' (f id) t))
    (howner : p.Reached owner) {before ids : List NodeId} (hbefore : ∀ id ∈ before, p.Reached id)
    (hids : ∀ id ∈ ids, p.Reached id) (hst : Renamed f p s t) :
    Mirrors f p (cutOwned p.root owner visit before ids s)
      (cutOwned (f p.root) (f owner) visit' (before.map f) (ids.map f) t) := by
  induction ids generalizing before s t with
  | nil => exact .ok hst
  | cons id ids ih =>
    obtain ⟨hid, hids⟩ := List.forall_mem_cons.1 hids
    have hmem : f id ∈ before.map f ↔ id ∈ before := by
      rw [List.mem_map]
      constructor
      · rintro ⟨b, hb, heq⟩
        rwa [← (h.eq_iff (hbefore b hb) hid).1 heq]
      · exact fun hb => ⟨id, hb, rfl⟩
    rw [List.map_cons, cutOwned, cutOwned]
    simp only [hmem]
    split
    · exact .fault
    · refine (hst.adopt h.injOn .root howner hid).bind fun huv => ?_
      refine (hvisit hid huv).bind fun hst => ?_
      exact ih (List.forall_mem_cons.2 ⟨hid, hbefore⟩) hids hst

variable {catalog catalog' : Catalog} {config : Config} {n : Node}

theorem mirrors_scan (h : p.RenamedBy f q) (hc : p.SameTables catalog catalog')
    (hid : p.Reached id) (hn : p.node? id = some n) {range : UInt32} {predicate : Option Expr}
    (hs : n.Scans range predicate) (hst : Renamed f p s t) :
    Mirrors f p (arrive ⟨catalog, config, p⟩ visit id s (.scan range predicate))
      (arrive ⟨catalog', config, q⟩ visit' (f id) t
        (.scan range (predicate.map (Expr.rename f)))) := by
  simp only [arrive, h.range?]
  cases hr : p.range? range with
  | none => exact .fault
  | some entry =>
    have hd := ScanDecision.ofEntry_rename f (fun _ => hc.distribution? hid hn hs hr)
      config.combinationFactor predicate
    simp only [hd]
    exact hst.inform _

theorem mirrors_arrive (h : p.RenamedBy f q) (hc : p.SameTables catalog catalog')
    (hvisit : ∀ {id s t}, p.Reached id → Renamed f p s t →
      Mirrors f p (visit id s) (visit' (f id) t))
    (hid : p.Reached id) (hn : p.node? id = some n) (hst : Renamed f p s t) :
    Mirrors f p (arrive ⟨catalog, config, p⟩ visit id s n.effect)
      (arrive ⟨catalog', config, q⟩ visit' (f id) t (n.effect.rename f)) := by
  cases he : n.effect with
  | relay => exact .ok hst
  | scan range predicate => exact mirrors_scan h hc hid hn (Node.scans_iff_effect.2 he) hst
  | everywhere => exact hst.inform .full
  | motion => exact (hst.inform .full).map fun hst => hst.enter
  | subPlan plan isInit =>
    have hplan : p.Reached plan := hid.step ⟨n, hn, Node.mem_references_of_effect he⟩
    cases isInit with
    | true => exact hvisit hplan hst.enter
    | false => exact (hvisit hplan hst).map fun hst => hst.enter
  | unrecognized tag => exact .fault

theorem mirrors_depart (hid : p.Reached id) (effect : SliceEffect) (hst : Renamed f p s t) :
    Mirrors f p (s.depart id effect) (t.depart (f id) (effect.rename f)) := by
  cases effect with
  | motion | subPlan => exact hst.leave hid _
  | _ => exact .ok hst

/-- Cutting a node that is reached mirrors cutting it under its new name. -/
theorem mirrors_cut (h : p.RenamedBy f q) (hc : p.SameTables catalog catalog') (levels : Nat)
    (hid : p.Reached id) (hst : Renamed f p s t) :
    Mirrors f p (cut ⟨catalog, config, p⟩ levels id s)
      (cut ⟨catalog', config, q⟩ levels (f id) t) := by
  induction levels generalizing id s t with
  | zero => exact .fault
  | succ levels ih =>
    rw [cut_succ, cut_succ]
    simp only [h.node? hid]
    cases hn : p.node? id with
    | none => exact .fault
    | some n =>
      have howned : ∀ b ∈ n.owned, p.Reached b := fun b hb =>
        hid.step (Plan.Owns.refers ⟨n, hn, hb⟩)
      simp only [Option.map_some, Node.effect_rename, Node.owned_rename, h.root]
      refine (mirrors_arrive h hc ih hid hn hst).bind fun hst => ?_
      refine (mirrors_cutOwned h ih hid (List.forall_mem_nil _) howned hst).bind fun hst => ?_
      exact mirrors_depart hid n.effect hst

theorem mirrors_leaveRoot (h : p.RenamedBy f q) (hst : Renamed f p s t) :
    Mirrors f p (leaveRoot ⟨catalog, config, p⟩ s) (leaveRoot ⟨catalog', config, q⟩ t) := by
  unfold leaveRoot
  simp only [h.root, h.node? .root]
  cases p.node? p.root with
  | none => exact .fault
  | some n =>
    simp only [Option.map_some, Node.effect_rename]
    cases n.effect with
    | motion | subPlan =>
      simp only [SliceEffect.rename, hst.slices]
      cases s.slices.pop? with
      | none => exact .fault
      | some popped =>
        exact .ok ⟨rfl, hst.owners, hst.closed, hst.reached_owners, hst.reached_closed⟩
    | _ => exact hst.leave .root true

theorem mirrors_run (h : p.RenamedBy f q) (hc : p.SameTables catalog catalog') :
    Mirrors f p (run ⟨catalog, config, p⟩) (run ⟨catalog', config, q⟩) := by
  unfold run
  simp only [h.root]
  refine (mirrors_cut h hc _ .root (.start f p)).bind fun hst => ?_
  refine (mirrors_leaveRoot h hst).bind fun hst => ?_
  rw [hst.slices]
  split
  · exact .ok hst
  · exact .fault

end Slicing

namespace Annotations

variable {config : Config} {segments : UInt64} {cs : List Closing}

theorem sliceRoots_map_rename :
    (ofClosings config segments (cs.map (Closing.rename f))).sliceRoots =
      (ofClosings config segments cs).sliceRoots.map f := by
  simp only [ofClosings, List.filter_map, List.map_map]
  rfl

theorem fallback_map_rename :
    (ofClosings config segments (cs.map (Closing.rename f))).fallback =
      (ofClosings config segments cs).fallback := by
  rw [Bool.eq_iff_iff, fallback_iff, fallback_iff, sliceRoots_map_rename, List.length_map]

theorem decision?_map_rename {S : Set NodeId} (hf : Set.InjOn f S) (hcs : ∀ c ∈ cs, c.root ∈ S)
    {id : NodeId} (hid : id ∈ S) :
    (ofClosings config segments (cs.map (Closing.rename f))).decision? (f id) =
      (ofClosings config segments cs).decision? id := by
  have hfind : cs.reverse.find? ((·.root = f id) ∘ Closing.rename f) =
      cs.reverse.find? (·.root = id) := by
    refine List.find?_congr fun c hc => ?_
    simp [Closing.rename, hf.eq_iff (hcs c (List.mem_reverse.1 hc)) hid]
  rw [decision?_ofClosings, decision?_ofClosings, ← List.map_reverse, List.find?_map, hfind,
    Option.map_map]
  refine congrArg (Option.map · _) (funext fun c => ?_)
  simp only [Function.comp_apply, guarded, fallback_map_rename]
  rfl

theorem decision?_map_rename_iff {S : Set NodeId} (hf : Set.InjOn f S) (hcs : ∀ c ∈ cs, c.root ∈ S)
    {id : NodeId} {d : Decision} :
    (ofClosings config segments (cs.map (Closing.rename f))).decision? id = some d ↔
      ∃ i, f i = id ∧ (ofClosings config segments cs).decision? i = some d := by
  constructor
  · intro h
    obtain ⟨c, hc, rfl, -⟩ := exists_closing_of_decision? h
    obtain ⟨c, hmem, rfl⟩ := List.mem_map.1 hc
    refine ⟨c.root, rfl, ?_⟩
    rwa [← decision?_map_rename hf hcs (hcs c hmem)]
  · rintro ⟨i, rfl, h⟩
    obtain ⟨c, hc, rfl, -⟩ := exists_closing_of_decision? h
    rwa [decision?_map_rename hf hcs (hcs c hc)]

end Annotations

namespace Plan

variable {p q : Plan} {catalog catalog' : Catalog}

/-- A plan under new names, between any other nodes and with a catalog that may differ on tables
which are not scanned, has the same annotations or the same fault, under the new names. -/
theorem annotate_of_renamed (h : p.RenamedBy f q) (hc : p.SameTables catalog catalog')
    (config : Config) :
    (∃ fault, p.annotate catalog config = .error fault ∧
      q.annotate catalog' config = .error (fault.rename f)) ∨
    ∃ a b, p.annotate catalog config = .ok a ∧ q.annotate catalog' config = .ok b ∧
      (∀ id d, b.decision? id = some d ↔ ∃ i, f i = id ∧ a.decision? i = some d) ∧
      b.sliceRoots = a.sliceRoots.map f ∧ b.fallback = a.fallback := by
  have hrun : Slicing.Mirrors f p (Slicing.run ⟨catalog, config, p⟩)
      (Slicing.run ⟨catalog', config, q⟩) := Slicing.mirrors_run h hc
  unfold annotate
  generalize Slicing.run ⟨catalog, config, p⟩ = x at hrun ⊢
  generalize Slicing.run ⟨catalog', config, q⟩ = y at hrun ⊢
  cases x with
  | error fault =>
    cases hrun with
    | excused hf => exact hf.elim
    | fault => exact .inl ⟨fault, rfl, rfl⟩
  | ok s =>
    cases hrun with
    | @ok _ t hst =>
      have hclosed : t.closed.reverse = s.closed.reverse.map (Closing.rename f) := by
        rw [hst.closed, List.map_reverse]
      have hreached : ∀ c ∈ s.closed.reverse, c.root ∈ {id | p.Reached id} := fun c hmem =>
        hst.reached_closed c (List.mem_reverse.1 hmem)
      refine .inr ⟨_, _, rfl, rfl, ?_⟩
      dsimp only
      rw [hclosed, hc.segments]
      exact ⟨fun _ _ => Annotations.decision?_map_rename_iff h.injOn hreached,
        Annotations.sliceRoots_map_rename, Annotations.fallback_map_rename⟩

def fromSeven (id : NodeId) : NodeId := ⟨7 - id.index⟩

/-- The shared plan in reverse order, behind a node that has no rule and one that is its own
child. -/
def reversedPlan : Plan where
  nodes := List.toArray (
    { kind := .unrecognized "Gap" } ::
    { kind := .operator .sort, children := [⟨1⟩] } ::
    (sharedPlan.nodes.toList.map (Node.rename fromSeven)).reverse)
  root := ⟨7⟩
  ranges := sharedPlan.ranges

theorem sharedPlan_reached {id : NodeId} (h : sharedPlan.Reached id) :
    id ∈ [(⟨0⟩ : NodeId), ⟨1⟩, ⟨2⟩, ⟨3⟩, ⟨4⟩, ⟨5⟩] := by
  obtain ⟨k, hk⟩ := h
  induction hk with
  | root => exact List.mem_cons_self
  | step _ hab ih =>
    have hclosed : ∀ a ∈ [(⟨0⟩ : NodeId), ⟨1⟩, ⟨2⟩, ⟨3⟩, ⟨4⟩, ⟨5⟩], ∀ n ∈ sharedPlan.node? a,
        ∀ b ∈ n.references, b ∈ [(⟨0⟩ : NodeId), ⟨1⟩, ⟨2⟩, ⟨3⟩, ⟨4⟩, ⟨5⟩] := by
      decide +kernel
    obtain ⟨n, hn, hb⟩ := hab
    exact hclosed _ ih n hn _ hb

theorem sharedPlan_renamedBy : sharedPlan.RenamedBy fromSeven reversedPlan where
  injOn a _ b _ h := by
    simp only [fromSeven, NodeId.mk.injEq] at h
    cases a
    cases b
    simp_all
  root := rfl
  node? h := by
    have hmem := sharedPlan_reached h
    simp only [List.mem_cons, List.not_mem_nil, or_false] at hmem
    rcases hmem with rfl | rfl | rfl | rfl | rfl | rfl <;> rfl
  ranges := rfl

theorem sharedPlan_sameTables :
    sharedPlan.SameTables keyedCatalog (keyedTables.add ⟨"public", "other"⟩ (.random 9)) where
  segments := rfl
  distribution? := by
    intro id n range predicate entry table _ _ _ hr ht
    have hmem : entry ∈ sharedPlan.ranges := by
      unfold Plan.range? at hr
      split at hr
      · cases hr
      · exact Array.mem_of_getElem? hr
    obtain rfl : entry = .relation ⟨"public", "t"⟩ "t" := by simpa [sharedPlan] using hmem
    cases ht
    rfl

theorem reversedPlan_annotations : ∃ a b,
    sharedPlan.annotate keyedCatalog { maxDirectSlices := 5 } = .ok a ∧
      reversedPlan.annotate (keyedTables.add ⟨"public", "other"⟩ (.random 9))
        { maxDirectSlices := 5 } = .ok b ∧
      a.decision? ⟨3⟩ = some (.exactly [0]) ∧ b.decision? ⟨4⟩ = some (.exactly [0]) ∧
      a.sliceRoots = [⟨3⟩, ⟨3⟩, ⟨0⟩] ∧ b.sliceRoots = [⟨4⟩, ⟨4⟩, ⟨7⟩] := by
  obtain ⟨a, ha, hd, hroots⟩ : ∃ a,
      sharedPlan.annotate keyedCatalog { maxDirectSlices := 5 } = .ok a ∧
        a.decision? ⟨3⟩ = some (.exactly [0]) ∧ a.sliceRoots = [⟨3⟩, ⟨3⟩, ⟨0⟩] :=
    ⟨_, rfl, by decide +kernel, by decide +kernel⟩
  rcases annotate_of_renamed sharedPlan_renamedBy sharedPlan_sameTables
    { maxDirectSlices := 5 } with ⟨fault, hfault, -⟩ | ⟨a', b, ha', hb, hdecisions, hroots', -⟩
  · cases ha.symm.trans hfault
  · cases ha.symm.trans ha'
    refine ⟨a, b, ha, hb, hd, (hdecisions ⟨4⟩ _).2 ⟨⟨3⟩, rfl, hd⟩, hroots, ?_⟩
    rw [hroots', hroots]
    rfl

end Plan
end SliceDispatch
