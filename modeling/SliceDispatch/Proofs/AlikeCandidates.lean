import SliceDispatch.Proofs.CandidateLists
import SliceDispatch.Proofs.KeyCombinations
import SliceDispatch.Proofs.KeyHash
import SliceDispatch.Proofs.Knowledge

namespace SliceDispatch

/-- The lists hold equal values, each equally often. -/
def SameValues (vs ws : List Scalar) : Prop :=
  (vs.map Scalar.canonical).Perm (ws.map Scalar.canonical)

namespace SameValues

variable {vs ws : List Scalar}

theorem length_eq (h : SameValues vs ws) : vs.length = ws.length := by
  simpa using List.Perm.length_eq h

theorem eq_nil_iff (h : SameValues vs ws) : vs = [] ↔ ws = [] := by
  rw [← List.length_eq_zero_iff, h.length_eq, List.length_eq_zero_iff]

theorem exists_same (h : SameValues vs ws) {v : Scalar} (hv : v ∈ vs) :
    ∃ w ∈ ws, v.same w = true := by
  obtain ⟨w, hw, heq⟩ := List.mem_map.1 (List.Perm.mem_iff h |>.1 (List.mem_map_of_mem hv))
  exact ⟨w, hw, Scalar.same_iff_canonical_eq.2 heq.symm⟩

end SameValues

namespace Candidates

variable {as bs : List Expr} {vs ws : List Scalar}

/-- Lists of candidates that the decision of a scan cannot tell apart: of parameters it only matters
that there are some, and of constants only which values they have. -/
inductive ListAlike : List Expr → List Expr → Prop
  | parameters {as bs : List Expr} : as.all Expr.isConstant = false →
      bs.all Expr.isConstant = false → ListAlike as bs
  | constants {vs ws : List Scalar} : SameValues vs ws →
      ListAlike (vs.map .literal) (ws.map .literal)

inductive Alike : Candidates → Candidates → Prop
  | unconstrained : Alike .unconstrained .unconstrained
  | among {as bs : List Expr} : ListAlike as bs → Alike (.among as) (.among bs)

theorem ListAlike.eq_nil_iff (h : ListAlike as bs) : as = [] ↔ bs = [] := by
  cases h with
  | parameters ha hb =>
    constructor <;> rintro rfl
    · cases ha
    · cases hb
  | constants hsame => rw [List.map_eq_nil_iff, List.map_eq_nil_iff, hsame.eq_nil_iff]

theorem exists_literals (h : as.all Expr.isConstant = true) :
    ∃ vs : List Scalar, as = vs.map .literal := by
  induction as with
  | nil => exact ⟨[], rfl⟩
  | cons e es ih =>
    simp only [List.all_cons, Bool.and_eq_true] at h
    obtain ⟨vs, rfl⟩ := ih h.2
    cases e with
    | literal v => exact ⟨v :: vs, rfl⟩
    | _ => simp [Expr.isConstant] at h

theorem mem_literalsIn_map {v : Scalar} :
    v ∈ literalsIn (vs.map .literal) ↔ v.canonical ∈ vs.map Scalar.canonical := by
  change (vs.map Expr.literal).contains (.literal v) = true ↔ _
  simp only [List.contains_iff_exists_mem_beq, List.mem_map, exists_exists_and_eq_and]
  refine exists_congr fun w => and_congr_right fun _ => ?_
  exact Scalar.same_iff_canonical_eq.trans eq_comm

theorem mem_canonical_of_subset {v : Scalar}
    (h : literalsIn (vs.map .literal) ⊆ literalsIn (ws.map .literal))
    (hv : v ∈ vs.map Scalar.canonical) : v ∈ ws.map Scalar.canonical := by
  obtain ⟨u, hu, rfl⟩ := List.mem_map.1 hv
  exact mem_literalsIn_map.1 (h (mem_literalsIn_map.2 (List.mem_map_of_mem hu)))

theorem nodup_canonical (h : (among (vs.map .literal)).Distinct) :
    (vs.map Scalar.canonical).Nodup := by
  have hpairwise := List.pairwise_map.1 h
  refine List.pairwise_map.2 (hpairwise.imp fun {a b} hab heq => ?_)
  have hsame : a.same b = true := Scalar.same_iff_canonical_eq.2 heq
  exact Bool.false_ne_true (hab.symm.trans hsame)

theorem sameValues_of_literalsIn_eq (hv : (among (vs.map .literal)).Distinct)
    (hw : (among (ws.map .literal)).Distinct)
    (h : literalsIn (vs.map .literal) = literalsIn (ws.map .literal)) : SameValues vs ws :=
  (List.perm_ext_iff_of_nodup (nodup_canonical hv) (nodup_canonical hw)).2 fun _ =>
    ⟨mem_canonical_of_subset h.subset, mem_canonical_of_subset h.superset⟩

/-- Candidates without repetition that say the same are alike. -/
theorem alike_of_knowledge_eq {a b : Candidates} (ha : a.Distinct) (hb : b.Distinct)
    (h : a.knowledge = b.knowledge) : a.Alike b := by
  cases a with
  | unconstrained =>
    cases b with
    | unconstrained => exact .unconstrained
    | among bs => cases hc : bs.all Expr.isConstant <;> simp [knowledge, hc] at h
  | among as =>
    cases b with
    | unconstrained => cases hc : as.all Expr.isConstant <;> simp [knowledge, hc] at h
    | among bs =>
      refine .among ?_
      cases hca : as.all Expr.isConstant with
      | false =>
        cases hcb : bs.all Expr.isConstant with
        | false => exact .parameters hca hcb
        | true => simp [knowledge, hca, hcb] at h
      | true =>
        cases hcb : bs.all Expr.isConstant with
        | false => simp [knowledge, hca, hcb] at h
        | true =>
          simp only [knowledge, hca, hcb, ↓reduceIte, Knowledge.constants.injEq] at h
          obtain ⟨vs, rfl⟩ := exists_literals hca
          obtain ⟨ws, rfl⟩ := exists_literals hcb
          exact .constants (sameValues_of_literalsIn_eq ha hb h)

end Candidates

theorem Decision.exactly_congr {as bs : List SegmentId} (h : ∀ i, i ∈ as ↔ i ∈ bs) :
    exactly as = exactly bs := by
  have hset : (Std.ExtTreeSet.ofList as : SegmentSet) = .ofList bs := by
    apply Std.ExtTreeSet.ext_mem
    intro i
    rw [mem_ofList, mem_ofList, h]
  rw [exactly, hset, exactly]

namespace ScanDecision

open Candidates (Alike ListAlike ofPredicate)

variable {qualifier : String} {segments factor : UInt64} {p q : Expr} {keys : List KeyColumn}
  {vss wss : List (List Scalar)} {ass bss : List (List Expr)}

theorem exists_perm_of_mapM {α β : Type} {f : α → Option β} {as bs : List α} {xs : List β}
    (hp : bs.Perm as) (h : as.mapM f = some xs) : ∃ ys, bs.mapM f = some ys ∧ ys.Perm xs := by
  obtain ⟨ys, hys, hperm⟩ := List.perm_comp_forall₂ hp (mapM_eq_some_iff.1 h)
  exact ⟨ys, mapM_eq_some_iff.2 hys, hperm⟩

theorem map_exactly_mapM_of_perm {α : Type} {f : α → Option SegmentId} {as bs : List α}
    (hp : as.Perm bs) : (as.mapM f).map Decision.exactly = (bs.mapM f).map Decision.exactly := by
  cases ha : as.mapM f with
  | none =>
    cases hb : bs.mapM f with
    | none => rfl
    | some ys =>
      obtain ⟨xs, hxs, -⟩ := exists_perm_of_mapM hp hb
      cases ha.symm.trans hxs
  | some xs =>
    obtain ⟨ys, hys, hperm⟩ := exists_perm_of_mapM hp.symm ha
    rw [hys]
    exact congrArg some (Decision.exactly_congr fun i => hperm.symm.mem_iff)

theorem mapM_eq_none {β : Type} {f : Expr → Option β} {es : List Expr}
    (hf : ∀ e : Expr, e.isConstant = false → f e = none) (h : es.all Expr.isConstant = false) :
    es.mapM f = none := by
  obtain ⟨e, he, hc⟩ := List.all_eq_false.1 h
  cases hm : es.mapM f with
  | none => rfl
  | some bs =>
    obtain ⟨b, -, hb⟩ := exists_mem_of_mapM_eq_some hm he
    cases (hf e (Bool.not_eq_true _ ▸ hc)).symm.trans hb

theorem namedSegment?_eq_none {e : Expr} (h : e.isConstant = false) :
    namedSegment? segments e = none := by
  cases e <;> first | rfl | cases h

theorem literal?_eq_none {e : Expr} (h : e.isConstant = false) : literal? e = none := by
  cases e <;> first | rfl | cases h

theorem mapM_namedSegment?_literals (vs : List Scalar) :
    (vs.map Expr.literal).mapM (namedSegment? segments) =
      (vs.map Scalar.canonical).mapM fun v => namedSegment? segments (.literal v) := by
  rw [List.mapM_map, List.mapM_map]
  congr 1
  funext v
  cases v <;> rfl

theorem map_exactly_namedSegments?
    (h : (ofPredicate (.segmentId qualifier) .integer p).Alike
      (ofPredicate (.segmentId qualifier) .integer q)) :
    (namedSegments? qualifier segments p).map Decision.exactly =
      (namedSegments? qualifier segments q).map Decision.exactly := by
  unfold namedSegments?
  generalize ofPredicate (.segmentId qualifier) .integer p = a at h
  generalize ofPredicate (.segmentId qualifier) .integer q = b at h
  cases h with
  | unconstrained => rfl
  | among hlist =>
    cases hlist with
    | parameters ha hb =>
      simp only [mapM_eq_none (fun _ => namedSegment?_eq_none) ha,
        mapM_eq_none (fun _ => namedSegment?_eq_none) hb, ite_self]
    | constants hsame =>
      simp only [List.isEmpty_iff, List.map_eq_nil_iff, List.length_map, hsame.length_eq,
        hsame.eq_nil_iff, mapM_namedSegment?_literals]
      split
      · rfl
      · exact map_exactly_mapM_of_perm hsame

theorem keyCandidates?_alike
    (h : ∀ column family, (ofPredicate column family p).Alike (ofPredicate column family q))
    (keys : List KeyColumn) :
    keyCandidates? qualifier p keys = none ∧ keyCandidates? qualifier q keys = none ∨
      ∃ as bs, keyCandidates? qualifier p keys = some as ∧
        keyCandidates? qualifier q keys = some bs ∧ List.Forall₂ ListAlike as bs := by
  induction keys with
  | nil => exact .inr ⟨[], [], rfl, rfl, .nil⟩
  | cons key keys ih =>
    have hkey := h (keyColumn qualifier key) key.family
    simp only [keyCandidates?]
    generalize ofPredicate (keyColumn qualifier key) key.family p = a at hkey
    generalize ofPredicate (keyColumn qualifier key) key.family q = b at hkey
    cases hkey with
    | unconstrained => exact .inl ⟨rfl, rfl⟩
    | among hlist =>
      rcases ih with ⟨hp, hq⟩ | ⟨ass, bss, hp, hq, hall⟩
      · simp [hp, hq]
      · exact .inr ⟨_, _, by simp [hp], by simp [hq], .cons hlist hall⟩

theorem nil_mem_iff_of_alike (h : List.Forall₂ ListAlike ass bss) : [] ∈ ass ↔ [] ∈ bss := by
  induction h with
  | nil => rfl
  | cons hlist _ ih => rw [List.mem_cons, List.mem_cons, ih, eq_comm, hlist.eq_nil_iff, eq_comm]

/-- Alike lists either hold parameters or have the same values. -/
theorem mapM_literal?_alike (h : List.Forall₂ ListAlike ass bss) :
    ass.mapM (·.mapM literal?) = none ∧ bss.mapM (·.mapM literal?) = none ∨
      ∃ vss wss : List (List Scalar), ass = vss.map (·.map .literal) ∧
        bss = wss.map (·.map .literal) ∧ List.Forall₂ SameValues vss wss := by
  induction h with
  | nil => exact .inr ⟨[], [], rfl, rfl, .nil⟩
  | cons hlist _ ih =>
    cases hlist with
    | parameters ha hb =>
      have hna := mapM_eq_none (fun _ => literal?_eq_none) ha
      have hnb := mapM_eq_none (fun _ => literal?_eq_none) hb
      exact .inl ⟨by simp [List.mapM_cons, hna], by simp [List.mapM_cons, hnb]⟩
    | @constants vs ws hsame =>
      rcases ih with ⟨ha, hb⟩ | ⟨vss, wss, rfl, rfl, hall⟩
      · exact .inl ⟨by simp [List.mapM_cons, ha], by simp [List.mapM_cons, hb]⟩
      · exact .inr ⟨vs :: vss, ws :: wss, rfl, rfl, .cons hsame hall⟩

theorem combinations_eq_of_sameValues (h : List.Forall₂ SameValues vss wss) :
    combinations vss = combinations wss := by
  have hlengths : vss.map List.length = wss.map List.length := by
    induction h with
    | nil => rfl
    | cons hsame _ ih => rw [List.map_cons, List.map_cons, ih, hsame.length_eq]
  rw [combinations_eq_min, combinations_eq_min, hlengths]

/-- For each choice from lists of values there is an equal choice from lists of the same values. -/
theorem exists_same_choice {vs : List Scalar} (h : List.Forall₂ SameValues vss wss)
    (hvs : List.Forall₂ (· ∈ ·) vs vss) :
    ∃ ws, List.Forall₂ (· ∈ ·) ws wss ∧
      List.Forall₂ (fun a b : Scalar => a.same b = true) vs ws := by
  induction h generalizing vs with
  | nil =>
    cases hvs
    exact ⟨[], .nil, .nil⟩
  | cons hsame _ ih =>
    obtain - | ⟨hv, hvs⟩ := hvs
    obtain ⟨ws, hmem, hall⟩ := ih hvs
    obtain ⟨w, hw, hvw⟩ := hsame.exists_same hv
    exact ⟨w :: ws, .cons hw hmem, .cons hvw hall⟩

theorem segment_mem_of_sameValues {families : List HashFamily} {i : SegmentId}
    (h : List.Forall₂ SameValues vss wss) (hcount : combinations vss < maxCount)
    (hi : i ∈ (tuples vss).map fun vs => Placement.segment vs families segments) :
    i ∈ (tuples wss).map fun vs => Placement.segment vs families segments := by
  obtain ⟨vs, hvs, rfl⟩ := List.mem_map.1 hi
  obtain ⟨ws, hws, hsame⟩ := exists_same_choice h ((mem_tuples_iff hcount).1 hvs)
  rw [Placement.segment_eq_of_same hsame]
  rw [combinations_eq_of_sameValues h] at hcount
  exact List.mem_map_of_mem ((mem_tuples_iff hcount).2 hws)

theorem ofKeys_eq_of_alike
    (h : ∀ column family, (ofPredicate column family p).Alike (ofPredicate column family q)) :
    ofKeys factor qualifier keys segments p = ofKeys factor qualifier keys segments q := by
  simp only [ofKeys_eq]
  rcases keyCandidates?_alike h keys with ⟨hp, hq⟩ | ⟨ass, bss, hp, hq, hall⟩
  · rw [hp, hq]
  have hzero : combinations ass = 0 ↔ combinations bss = 0 := by
    rw [combinations_eq_zero_iff, combinations_eq_zero_iff, nil_mem_iff_of_alike hall]
  simp only [hp, hq, hzero]
  split
  · rfl
  rcases mapM_literal?_alike hall with ⟨hnone, hnone'⟩ | ⟨vss, wss, rfl, rfl, hsame⟩
  · -- with parameters around, the number of combinations does not matter
    simp only [hnone, hnone', ite_self]
  simp only [combinations_map_map, combinations_eq_of_sameValues hsame,
    mapM_mapM_literal?_eq_some_iff.2 rfl]
  split
  · rfl
  rename_i hcap
  have hcount : combinations wss < maxCount := combinations_lt_maxCount hcap
  have hsame' : List.Forall₂ SameValues wss vss := hsame.flip.imp fun _ _ => List.Perm.symm
  refine Decision.exactly_congr fun i => ⟨?_, segment_mem_of_sameValues hsame' hcount⟩
  exact segment_mem_of_sameValues hsame (by rwa [combinations_eq_of_sameValues hsame])

theorem ofDistribution_eq_of_alike
    (h : ∀ column family, (ofPredicate column family p).Alike (ofPredicate column family q))
    (d : Distribution) :
    ofDistribution factor qualifier d p = ofDistribution factor qualifier d q := by
  have hkeys := @ofKeys_eq_of_alike qualifier d.segments factor p q d.keys h
  have hnamed := @map_exactly_namedSegments? qualifier d.segments p q
    (h (.segmentId qualifier) .integer)
  simp only [ofDistribution_eq, hkeys]
  cases d.isPartitioned with
  | false => rfl
  | true =>
    simp only [↓reduceIte]
    cases hp : namedSegments? qualifier d.segments p with
    | none =>
      cases hq : namedSegments? qualifier d.segments q with
      | none => rfl
      | some bs => simp [hp, hq] at hnamed
    | some as =>
      cases hq : namedSegments? qualifier d.segments q with
      | none => simp [hp, hq] at hnamed
      | some bs => simpa [hp, hq] using hnamed

/-- Predicates that say the same about all columns decide a scan alike. -/
theorem ofEntry_eq_of_told_eq
    (h : ∀ column family, Candidates.told column family p = Candidates.told column family q)
    (catalog : Catalog) (factor : UInt64) (entry : RangeEntry) :
    ofEntry catalog factor entry (some p) = ofEntry catalog factor entry (some q) := by
  simp only [ofEntry_eq]
  cases distribution? catalog entry with
  | none => rfl
  | some d =>
    apply ofDistribution_eq_of_alike
    intro column family
    exact Candidates.alike_of_knowledge_eq (Candidates.distinct_ofPredicate p)
      (Candidates.distinct_ofPredicate q) (h column family)

end ScanDecision
end SliceDispatch
