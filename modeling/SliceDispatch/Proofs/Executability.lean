import SliceDispatch.Proofs.Jumps
import SliceDispatch.Proofs.NamedSegments
import SliceDispatch.Proofs.Slices

namespace SliceDispatch

theorem Placement.segment_lt (values : List Scalar) (families : List HashFamily)
    {segments : UInt64} (h : 0 < segments.toNat) :
    (segment values families segments).toNat < segments.toNat := by
  have hlt : (segment values families segments).toNat < max 1 segments.toNat :=
    Jump.bucket_lt _ _
  rwa [Nat.max_eq_right h] at hlt

namespace ScanDecision

variable {segments factor : UInt64} {qualifier : String} {p : Expr}

/-- What a scan of a relation with so many segments may decide. -/
inductive Within (segments : UInt64) : Decision → Prop
  | full : Within segments .full
  | noRows : Within segments .noRows
  | exactly {ids : List SegmentId} : ids ≠ [] → (∀ i ∈ ids, i.toNat < segments.toNat) →
      Within segments (.exactly ids)

theorem Within.named {d : Decision} (h : Within segments d) {known : SegmentSet}
    (hknown : d.segments = some known) :
    (∃ i, i ∈ known) ∧ ∀ i ∈ known, i.toNat < segments.toNat := by
  cases h with
  | full | noRows => cases hknown
  | @exactly ids hne hlt =>
    cases hknown
    obtain ⟨i, hi⟩ := List.exists_mem_of_ne_nil ids hne
    exact ⟨⟨i, Decision.mem_ofList.2 hi⟩, fun i hi => hlt i (Decision.mem_ofList.1 hi)⟩

theorem namedSegment?_lt {e : Expr} {i : SegmentId} (h : namedSegment? segments e = some i) :
    i.toNat < segments.toNat := by
  obtain ⟨n, -, -, hpos, hlt, rfl⟩ := namedSegment?_eq_some_iff.1 h
  have hresidue := toNat_toUInt32_toUInt64 n
  omega

theorem within_namedSegments? {ids : List SegmentId}
    (h : namedSegments? qualifier segments p = some ids) : Within segments (.exactly ids) := by
  obtain ⟨values, -, hpos, -, hids⟩ := namedSegments?_eq_some_iff.1 h
  refine .exactly ?_ (forall_mem_of_mapM_eq_some hids fun _ _ => namedSegment?_lt)
  rintro rfl
  cases mapM_eq_some_iff.1 hids
  exact Nat.lt_irrefl 0 hpos

theorem within_ofKeys (keys : List KeyColumn) :
    Within segments (ofKeys factor qualifier keys segments p) := by
  simp only [ofKeys_eq]
  split
  · exact .full
  rename_i lists _
  split
  · exact .noRows
  rename_i hzero
  split
  · exact .full
  rename_i hcap
  split
  · exact .full
  rename_i values hvalues
  obtain rfl := mapM_mapM_literal?_eq_some_iff.1 hvalues
  rw [combinations_map_map] at hzero hcap
  -- without segments the cap would be zero
  have hpos : 0 < segments.toNat := by
    refine Nat.pos_of_ne_zero fun h => hcap ?_
    simp [boundedProduct, h]
  refine .exactly ?_ fun i hi => ?_
  · simpa [tuples] using hzero
  · obtain ⟨values, -, rfl⟩ := List.mem_map.1 hi
    exact Placement.segment_lt _ _ hpos

theorem within_ofDistribution (d : Distribution) :
    Within d.segments (ofDistribution factor qualifier d p) := by
  simp only [ofDistribution_eq]
  split
  · rename_i ids hids
    split at hids
    · exact within_namedSegments? hids
    · cases hids
  split
  · exact within_ofKeys d.keys
  · exact .full

theorem within_ofEntry {catalog : Catalog} {entry : RangeEntry} {predicate : Option Expr} :
    ofEntry catalog factor entry predicate = .full ∨
      ∃ d, distribution? catalog entry = some d ∧
        Within d.segments (ofEntry catalog factor entry predicate) := by
  simp only [ofEntry_eq]
  split
  · rename_i d p hd
    exact .inr ⟨d, hd, within_ofDistribution d⟩
  · exact .inl rfl

end ScanDecision

/-- Some scan in reach of the root reads a relation with the distribution `d`. -/
def Plan.ScansRelation (p : Plan) (catalog : Catalog) (d : Distribution) : Prop :=
  ∃ id n range predicate entry, p.Reached id ∧ p.node? id = some n ∧ n.Scans range predicate ∧
    p.range? range = some entry ∧ ScanDecision.distribution? catalog entry = some d

/-- What a node in reach contributes is full or within the segments of a relation that it scans. -/
theorem Slicing.Input.within_contribution? {input : Input} {id : NodeId} {n : Node} {d : Decision}
    (hr : input.plan.Reached id) (hn : input.plan.node? id = some n)
    (hd : input.contribution? n = some d) :
    d = .full ∨ ∃ spread, input.plan.ScansRelation input.catalog spread ∧
      ScanDecision.Within spread.segments d := by
  rcases contribution?_cases n with ⟨range, predicate, hs, hscan⟩ | hnone | hfull
  · rw [hscan] at hd
    obtain ⟨entry, hentry, rfl⟩ := Option.map_eq_some_iff.1 hd
    refine ScanDecision.within_ofEntry.imp_right ?_
    rintro ⟨spread, hspread, hwithin⟩
    exact ⟨spread, ⟨id, n, range, predicate, entry, hr, hn, hs, hentry, hspread⟩, hwithin⟩
  · rw [hnone] at hd
    cases hd
  · rw [hfull] at hd
    exact .inl (Option.some.inj hd).symm

theorem Plan.SliceHolds.reached {p : Plan} {r id : NodeId} (h : p.SliceHolds r id)
    (hr : p.Reached r) : p.Reached id := by
  have walk : ∀ {a b}, p.Reached a → Relation.ReflTransGen p.Stays a b → p.Reached b := by
    intro a b ha hab
    induction hab with
    | refl => exact ha
    | tail _ hbc ih => exact ih.step (refers_iff.2 (.inl hbc))
  rcases h with ⟨a, ha, hid⟩ | ⟨-, hid⟩
  · exact walk (hr.step (refers_iff.2 (.inr ha))) hid
  · exact walk hr hid

namespace Plan

variable {plan : Plan} {catalog : Catalog} {config : Config} {a : Annotations} {id : NodeId}
  {d : Decision}

/-- A recorded decision is full, or it names segments, of which there are some. Each of them is a
segment of a relation that the plan scans, or the one for slices without rows, which exists. -/
theorem decision?_executable (h : plan.annotate catalog config = .ok a)
    (hd : a.decision? id = some d) :
    (d = .full ∨ ∃ known : SegmentSet, d = ⟨true, some known⟩ ∧ (∃ i, i ∈ known) ∧
      ∀ i ∈ known, i = Placement.fallback catalog.segments ∨
        ∃ spread, plan.ScansRelation catalog spread ∧ i.toNat < spread.segments.toNat) ∧
      (Placement.fallback catalog.segments).toNat < max 1 catalog.segments.toNat := by
  refine ⟨?_, Jump.bucket_lt _ _⟩
  rcases decision?_cases h hd with ⟨-, rfl⟩ | ⟨-, hsettles⟩
  · exact .inl rfl
  have hr : plan.Reached id := by
    rcases (exists_decision?_iff h).1 ⟨d, hd⟩ with rfl | ⟨hr, -⟩
    · exact .root
    · exact hr
  have within : ∀ e ∈ Slicing.Input.sliceContributions ⟨catalog, config, plan⟩ id,
      e = .full ∨ ∃ spread, plan.ScansRelation catalog spread ∧
        ScanDecision.Within spread.segments e := by
    rintro e ⟨x, n, hx, hn, he⟩
    exact Slicing.Input.within_contribution? (hx.reached hr) hn he
  cases hsettles with
  | uninformed | full => exact .inl rfl
  | noRows =>
    refine .inr ⟨_, rfl, ⟨_, Decision.mem_ofList.2 List.mem_cons_self⟩, fun i hi => .inl ?_⟩
    exact List.mem_singleton.1 (Decision.mem_ofList.1 hi)
  | @segments e known hdirect he hsome hknown =>
    have named : ∀ {e : Decision}, e ∈ Slicing.Input.sliceContributions ⟨catalog, config, plan⟩ id →
        ∀ {s}, e.segments = some s → (∃ i, i ∈ s) ∧
          ∀ i ∈ s, ∃ spread, plan.ScansRelation catalog spread ∧ i.toNat < spread.segments.toNat := by
      intro e he s hs
      rcases within e he with rfl | ⟨spread, hreads, hwithin⟩
      · cases hs
      · obtain ⟨hsome, hlt⟩ := hwithin.named hs
        exact ⟨hsome, fun i hi => ⟨spread, hreads, hlt i hi⟩⟩
    obtain ⟨s, hs⟩ := Option.isSome_iff_exists.1 hsome
    obtain ⟨i, hi⟩ := (named he hs).1
    refine .inr ⟨known, rfl, ⟨i, (hknown i).2 ⟨e, he, s, hs, hi⟩⟩, fun i hi => .inr ?_⟩
    obtain ⟨e, he, s, hs, hi⟩ := (hknown i).1 hi
    exact (named he hs).2 i hi

theorem sharedPlan_executable : ∃ a,
    sharedPlan.annotate keyedCatalog { maxDirectSlices := 5 } = .ok a ∧
      a.decision? ⟨3⟩ = some (.exactly [0]) ∧
      ∃ spread, sharedPlan.ScansRelation keyedCatalog spread ∧
        (0 : SegmentId).toNat < spread.segments.toNat := by
  obtain ⟨a, hok, hd⟩ : ∃ a, sharedPlan.annotate keyedCatalog { maxDirectSlices := 5 } = .ok a ∧
      a.decision? ⟨3⟩ = some (.exactly [0]) :=
    ⟨_, rfl, by decide +kernel⟩
  refine ⟨a, hok, hd, ?_⟩
  obtain ⟨hfull | ⟨known, hknown, -, hnamed⟩, -⟩ := decision?_executable hok hd
  · cases hfull
  cases hknown
  -- the segment is not the one for slices without rows
  exact (hnamed 0 (Decision.mem_ofList.2 List.mem_cons_self)).resolve_left (by decide +kernel)

end Plan
end SliceDispatch
