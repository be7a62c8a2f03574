import SliceDispatch.Proofs.Executability
import SliceDispatch.Proofs.KeyEnumeration
import SliceDispatch.Proofs.KeyPredicates
import Mathlib.Data.Set.Card

namespace SliceDispatch

/-- How many values a set has, equal ones counted once. -/
noncomputable def Scalar.count (s : Set Scalar) : ℕ∞ := (Scalar.canonical '' s).encard

namespace ScanDecision

open Candidates (ofPredicate told)

variable {qualifier : String} {segments factor : UInt64} {terms : List (KeyColumn × Expr)}
  {column : Column} {family : HashFamily} {p : Expr} {vs : List Scalar} {s : Set Scalar}
  {values : List (List Scalar)} {sets : List (Set Scalar)}

/-- The list holds the values of the set, and each of them once, up to equality. -/
structure Lists (vs : List Scalar) (s : Set Scalar) : Prop where
  nodup : (vs.map Scalar.canonical).Nodup
  mem_iff : ∀ v, v ∈ s ↔ v.canonical ∈ vs.map Scalar.canonical

theorem Lists.eq_nil_iff (h : Lists vs s) : vs = [] ↔ s = ∅ := by
  rw [Set.eq_empty_iff_forall_notMem]
  constructor
  · rintro rfl v hv
    exact List.not_mem_nil ((h.mem_iff v).1 hv)
  · intro hempty
    refine List.eq_nil_iff_forall_not_mem.2 fun v hv => ?_
    exact hempty v ((h.mem_iff v).2 (List.mem_map_of_mem hv))

theorem Lists.count_eq (h : Lists vs s) : Scalar.count s = vs.length := by
  have himage : Scalar.canonical '' s = {w | w ∈ vs.map Scalar.canonical} := by
    ext w
    constructor
    · rintro ⟨v, hv, rfl⟩
      exact (h.mem_iff v).1 hv
    · intro hw
      obtain ⟨v, -, rfl⟩ := List.mem_map.1 hw
      exact ⟨v, (h.mem_iff v).2 hw, rfl⟩
  rw [Scalar.count, himage, Candidates.encard_of_nodup h.nodup, List.length_map]

/-- The candidates are the values that the predicate leaves. -/
theorem exists_lists_of_told (h : told column family p = .constants s) :
    ∃ vs, ofPredicate column family p = .among (vs.map .literal) ∧ Lists vs s := by
  obtain ⟨vs, heq, rfl⟩ := Candidates.exists_values_of_knowledge h
  refine ⟨vs, heq, Candidates.nodup_canonical ?_, fun _ => Candidates.mem_literalsIn_map⟩
  rw [← heq]
  exact Candidates.distinct_ofPredicate p

def valuesOf (env : Environment) (term : KeyColumn × Expr) : Set Scalar :=
  env.satisfying term.1.column.name term.2

/-- Key columns of different names with one predicate each. -/
structure KeyTerms (qualifier : String) (terms : List (KeyColumn × Expr)) : Prop where
  ne_nil : terms ≠ []
  names : terms.Pairwise fun t u => t.1.column.name ≠ u.1.column.name
  ids : ∀ t ∈ terms, t.1.column.name ≠ "gp_segment_id"
  predicates : ∀ t ∈ terms, KeyPredicate qualifier t.1 t.2

/-- What a conjunction of terms says about a key column is what the term of that column says, unless
another term is contradictory. -/
theorem told_terms (h : KeyTerms qualifier terms) (env : Environment)
    {t : KeyColumn × Expr} (ht : t ∈ terms) :
    told (keyColumn qualifier t.1) t.1.family (.and (terms.map (·.2))) =
        .constants (valuesOf env t) ∨
      ∅ ∈ terms.map (valuesOf env) ∧
        told (keyColumn qualifier t.1) t.1.family (.and (terms.map (·.2))) = .constants ∅ := by
  have hown := Candidates.told_keyColumn (h.predicates t ht) env
  have : Std.Symm fun t u : KeyColumn × Expr => t.1.column.name ≠ u.1.column.name :=
    ⟨fun _ _ => Ne.symm⟩
  have hother : ∀ u ∈ terms, u = t ∨ u.1.column.name ≠ (keyColumn qualifier t.1).name := by
    intro u hu
    by_cases hut : u = t
    · exact .inl hut
    · exact .inr (h.names.forall hu ht hut)
  rw [Candidates.told_and, List.map_map]
  refine (Knowledge.foldl_meet_of_mem (List.mem_map.2 ⟨t, ht, hown⟩) ?_).imp_right
    (And.imp_left ?_)
  · refine List.forall_mem_map.2 fun u hu => ?_
    rcases hother u hu with rfl | hname
    · exact .inl hown
    · exact .inr (Candidates.isTrivial_told (h.predicates u hu) hname)
  · intro hempty
    obtain ⟨u, hu, htold⟩ := List.mem_map.1 hempty
    refine List.mem_map.2 ⟨u, hu, ?_⟩
    rcases hother u hu with rfl | hname
    · exact Knowledge.constants.inj (hown.symm.trans htold)
    · exact Candidates.satisfying_eq_empty (h.predicates u hu) hname htold env

theorem keyAnswers_map (p : Expr) : keyAnswers qualifier (terms.map (·.1)) p =
    terms.map fun t => ofPredicate (keyColumn qualifier t.1) t.1.family p :=
  List.map_map

/-- What a conjunction of terms says about a key column is a list of values. -/
theorem exists_lists_of_term (h : KeyTerms qualifier terms) (env : Environment)
    {t : KeyColumn × Expr} (ht : t ∈ terms) : ∃ vs : List Scalar,
      ofPredicate (keyColumn qualifier t.1) t.1.family (.and (terms.map (·.2))) =
        .among (vs.map .literal) ∧
      (Lists vs (valuesOf env t) ∨ ∅ ∈ terms.map (valuesOf env) ∧ vs = []) := by
  rcases told_terms h env ht with htold | ⟨hempty, htold⟩
  · obtain ⟨vs, heq, hvs⟩ := exists_lists_of_told htold
    exact ⟨vs, heq, .inl hvs⟩
  · obtain ⟨vs, heq, hvs⟩ := exists_lists_of_told htold
    exact ⟨vs, heq, .inr ⟨hempty, hvs.eq_nil_iff.2 rfl⟩⟩

theorem byKeys_noRows (h : KeyTerms qualifier terms) {env : Environment}
    (hempty : ∅ ∈ terms.map (valuesOf env)) : ByKeys factor segments (terms.map (·.1.family))
      (keyAnswers qualifier (terms.map (·.1)) (.and (terms.map (·.2)))) .noRows := by
  have hanswer := fun t ht => exists_lists_of_term h env (t := t) ht
  rw [keyAnswers_map]
  have hknown : .unconstrained ∉ terms.map fun t =>
      ofPredicate (keyColumn qualifier t.1) t.1.family (.and (terms.map (·.2))) := by
    intro hu
    obtain ⟨t, ht, heq⟩ := List.mem_map.1 hu
    obtain ⟨vs, hvs, -⟩ := hanswer t ht
    cases hvs.symm.trans heq
  obtain ⟨lists, hlists⟩ := exists_lists hknown
  refine .unsatisfiable hlists ?_
  obtain ⟨t, ht, hvalues⟩ := List.mem_map.1 hempty
  obtain ⟨vs, heq, hvs⟩ := hanswer t ht
  have hnil : vs = [] := hvs.elim (fun hlist => hlist.eq_nil_iff.2 hvalues) And.right
  have hmem : Candidates.among [] ∈ lists.map .among := by
    rw [← hlists]
    refine List.mem_map.2 ⟨t, ht, ?_⟩
    rw [heq, hnil, List.map_nil]
  obtain ⟨list, hlist, heq⟩ := List.mem_map.1 hmem
  cases heq
  exact hlist

theorem exists_values_of_terms (h : KeyTerms qualifier terms) {env : Environment}
    (hsome : ∅ ∉ terms.map (valuesOf env)) : ∃ values : List (List Scalar),
      keyAnswers qualifier (terms.map (·.1)) (.and (terms.map (·.2))) =
        values.map (fun list => .among (list.map .literal)) ∧
      List.Forall₂ Lists values (terms.map (valuesOf env)) := by
  rw [keyAnswers_map]
  have hanswer : ∀ t ∈ terms, ∃ vs : List Scalar,
      ofPredicate (keyColumn qualifier t.1) t.1.family (.and (terms.map (·.2))) =
        .among (vs.map .literal) ∧ Lists vs (valuesOf env t) := by
    intro t ht
    obtain ⟨vs, heq, hvs⟩ := exists_lists_of_term h env ht
    exact ⟨vs, heq, hvs.elim id fun hnil => absurd hnil.1 hsome⟩
  -- from here on the whole predicate stays as it is, while its terms are taken one by one
  generalize Expr.and (terms.map (·.2)) = p at hanswer ⊢
  clear h hsome
  induction terms with
  | nil => exact ⟨[], rfl, .nil⟩
  | cons t terms ih =>
    obtain ⟨ht, hrest⟩ := List.forall_mem_cons.1 hanswer
    obtain ⟨vs, heq, hvs⟩ := ht
    obtain ⟨values, heqs, hvalues⟩ := ih hrest
    refine ⟨vs :: values, ?_, .cons hvs hvalues⟩
    rw [List.map_cons, List.map_cons, heq, heqs]

theorem nil_mem_iff_of_lists (h : List.Forall₂ Lists values sets) : [] ∈ values ↔ ∅ ∈ sets := by
  induction h with
  | nil => simp
  | cons hlist _ ih => rw [List.mem_cons, List.mem_cons, ih, eq_comm, hlist.eq_nil_iff, eq_comm]

theorem prod_count_eq (h : List.Forall₂ Lists values sets) :
    (sets.map Scalar.count).prod = ((values.map List.length).prod : ℕ) := by
  induction h with
  | nil => rfl
  | cons hlist _ ih =>
    rw [List.map_cons, List.map_cons, List.prod_cons, List.prod_cons, ih, hlist.count_eq,
      Nat.cast_mul]

theorem tooMany_iff_le (h : segments.toNat * factor.toNat < 2 ^ 64) :
    TooMany factor segments values ↔
      segments.toNat * factor.toNat ≤ (values.map List.length).prod := by
  have hmax : segments.toNat * factor.toNat ≤ maxCount := Nat.le_pred_of_lt h
  rw [TooMany, Nat.min_eq_left hmax, le_min_iff]
  exact and_iff_left hmax

theorem Lists.exists_same (h : Lists vs s) {v : Scalar} (hv : v ∈ s) :
    ∃ w ∈ vs, w.same v = true := by
  obtain ⟨w, hw, heq⟩ := List.mem_map.1 ((h.mem_iff v).1 hv)
  exact ⟨w, hw, Scalar.same_iff_canonical_eq.2 heq⟩

theorem Lists.mem_of_mem (h : Lists vs s) {v : Scalar} (hv : v ∈ vs) : v ∈ s :=
  (h.mem_iff v).2 (List.mem_map_of_mem hv)

theorem exists_choice_of_lists (h : List.Forall₂ Lists values sets)
    (hvs : List.Forall₂ (· ∈ ·) vs sets) : ∃ ws, List.Forall₂ (· ∈ ·) ws values ∧
      List.Forall₂ (fun a b : Scalar => a.same b = true) ws vs := by
  induction h generalizing vs with
  | nil =>
    cases hvs
    exact ⟨[], .nil, .nil⟩
  | cons hlist _ ih =>
    obtain - | ⟨hv, hvs⟩ := hvs
    obtain ⟨ws, hmem, hsame⟩ := ih hvs
    obtain ⟨w, hw, hwv⟩ := hlist.exists_same hv
    exact ⟨w :: ws, .cons hw hmem, .cons hwv hsame⟩

theorem forall₂_mem_of_lists (h : List.Forall₂ Lists values sets)
    (hvs : List.Forall₂ (· ∈ ·) vs values) : List.Forall₂ (· ∈ ·) vs sets := by
  induction h generalizing vs with
  | nil =>
    cases hvs
    exact .nil
  | cons hlist _ ih =>
    obtain - | ⟨hv, hvs⟩ := hvs
    exact .cons (hlist.mem_of_mem hv) (ih hvs)

theorem mem_segments_iff_of_lists (h : List.Forall₂ Lists values sets) (families : List HashFamily)
    (i : SegmentId) :
    i ∈ (values.sections.map fun vs => Placement.segment vs families segments) ↔
      ∃ vs, List.Forall₂ (· ∈ ·) vs sets ∧ Placement.segment vs families segments = i := by
  simp only [List.mem_map, List.mem_sections]
  constructor
  · rintro ⟨vs, hvs, rfl⟩
    exact ⟨vs, forall₂_mem_of_lists h hvs, rfl⟩
  · rintro ⟨vs, hvs, rfl⟩
    obtain ⟨ws, hws, hsame⟩ := exists_choice_of_lists h hvs
    exact ⟨ws, hws, Placement.segment_eq_of_same hsame families segments⟩

/-- Terms of columns that have other names do not name segments. -/
theorem namedSegments?_terms (h : KeyTerms qualifier terms) :
    namedSegments? qualifier segments (.and (terms.map (·.2))) = none := by
  have htold : (told (.segmentId qualifier) .integer (.and (terms.map (·.2)))).IsTrivial := by
    rw [Candidates.told_and, List.map_map]
    refine Knowledge.isTrivial_foldl .meet (.inl rfl) (List.forall_mem_map.2 fun t ht => ?_)
    exact Candidates.isTrivial_told (h.predicates t ht) (h.ids t ht)
  rcases htold with hany | hnone
  · rw [told] at hany
    rw [namedSegments?]
    cases hc : ofPredicate (.segmentId qualifier) .integer (.and (terms.map (·.2))) with
    | unconstrained => rfl
    | among es =>
      rw [hc, Candidates.knowledge] at hany
      split at hany <;> cases hany
  · obtain ⟨vs, heq, hvs⟩ := exists_lists_of_told hnone
    rw [namedSegments?, heq, hvs.eq_nil_iff.2 rfl]
    exact if_pos (.inl rfl)

theorem byKeys_full {families : List HashFamily} {answers : List Candidates}
    (h : answers = values.map fun list => .among (list.map .literal)) (hnil : [] ∉ values)
    (hmany : TooMany factor segments values) : ByKeys factor segments families answers .full := by
  rw [tooMany_iff, ← combinations_map_map Expr.literal, ← tooMany_iff] at hmany
  exact .tooMany (h.trans List.map_map.symm) (by simpa using hnil) hmany

variable {catalog : Catalog} {entry : RangeEntry} {table : Table}

/-- A scan under a conjunction of terms is decided by the key columns alone. -/
theorem ofEntry_terms (hkind : entry.kind = .relation)
    (hforced : entry.forcedRandom = false) (htable : entry.table = some table)
    (hd : catalog.distribution? table = some (.hashed (terms.map (·.1)) segments))
    (hterms : KeyTerms entry.qualifier terms) {d : Decision}
    (hby : ByKeys factor segments (terms.map (·.1.family))
      (keyAnswers entry.qualifier (terms.map (·.1)) (.and (terms.map (·.2)))) d) :
    ofEntry catalog factor entry (some (.and (terms.map (·.2)))) = d := by
  have hfamilies : terms.map (·.1.family) = (terms.map (·.1)).map (·.family) := List.map_map.symm
  rw [hfamilies] at hby
  rw [ofEntry_eq_ofKeys hkind hforced htable hd (by simpa using hterms.ne_nil)
    (namedSegments?_terms hterms)]
  exact ofKeys_eq_of_byKeys hby

/-- A scan of a hashed table under a conjunction of terms, one for each key column, has no rows
exactly when no value makes one of the terms true. Else it is dispatched to what the combinations of
the values that make the terms true hash to, if they are fewer than the cap. -/
theorem ofEntry_exact_on_keys (hkind : entry.kind = .relation)
    (hforced : entry.forcedRandom = false) (htable : entry.table = some table)
    (hd : catalog.distribution? table = some (.hashed (terms.map (·.1)) segments))
    (hterms : KeyTerms entry.qualifier terms)
    (hcap : segments.toNat * factor.toNat < 2 ^ 64) (env : Environment) :
    let sets := terms.map (valuesOf env)
    let decision := ofEntry catalog factor entry (some (.and (terms.map (·.2))))
    (decision = .noRows ↔ ∅ ∈ sets) ∧
      (∅ ∉ sets →
        ((sets.map Scalar.count).prod < (segments.toNat * factor.toNat : ℕ) →
          ∃ known, decision = ⟨true, some known⟩ ∧ ∀ i, i ∈ known ↔
            ∃ vs, List.Forall₂ (· ∈ ·) vs sets ∧
              Placement.segment vs (terms.map (·.1.family)) segments = i) ∧
        (¬(sets.map Scalar.count).prod < (segments.toNat * factor.toNat : ℕ) →
          decision = .full)) := by
  intro sets decision
  have hdecision : ∀ d, ByKeys factor segments _ _ d → decision = d :=
    fun d => ofEntry_terms hkind hforced htable hd hterms
  by_cases hempty : ∅ ∈ sets
  · have hnoRows : decision = .noRows := hdecision _ (byKeys_noRows hterms hempty)
    exact ⟨iff_of_true hnoRows hempty, fun hsome => absurd hempty hsome⟩
  obtain ⟨values, hanswers, hlists⟩ := exists_values_of_terms hterms hempty
  have hnil : [] ∉ values := mt (nil_mem_iff_of_lists hlists).1 hempty
  have hlt : (sets.map Scalar.count).prod < (segments.toNat * factor.toNat : ℕ) ↔
      ¬TooMany factor segments values := by
    rw [tooMany_iff_le hcap, prod_count_eq hlists, Nat.cast_lt, Nat.not_le]
  rw [hlt]
  by_cases hmany : TooMany factor segments values
  · have hfull : decision = .full := hdecision _ (byKeys_full hanswers hnil hmany)
    rw [hfull]
    exact ⟨iff_of_false (by decide) hempty, fun _ => ⟨fun h => absurd hmany h, fun _ => rfl⟩⟩
  · have hexactly := hdecision _ (.product hanswers hnil hmany)
    rw [hexactly]
    refine ⟨iff_of_false (fun h => ?_) hempty, fun _ => ⟨fun _ => ⟨_, rfl, fun i => ?_⟩, fun h =>
      absurd hmany h⟩⟩
    · cases h
    · rw [Decision.mem_ofList]
      exact mem_segments_iff_of_lists hlists _ i

def measures : Catalog :=
  (StoredCatalog.empty 4).add ⟨"public", "measures"⟩
    (.hashed [⟨⟨none, "sensor", 0⟩, .text⟩, ⟨⟨none, "value", 1⟩, .float⟩] 4)

/-- `sensor = 'a' OR 'b' = m.sensor` and `value IN (0.0, -0.0, NULL, NaN, NaN)` with two kinds of
NaN -/
def zerosAndNaNs : List (KeyColumn × Expr) :=
  [(⟨⟨none, "sensor", 0⟩, .text⟩,
    .or [.equals (.column ⟨none, "sensor", 0⟩) (.literal (.text "a")),
      .equals (.literal (.text "b")) (.column ⟨some "m", "sensor", 0⟩)]),
  (⟨⟨none, "value", 1⟩, .float⟩,
    .oneOf (.column ⟨none, "value", 1⟩) ([.double .zero, .double .negZero, .null,
      .double .quietNaN, .double ⟨0xfff0000000000001⟩].map .literal))]

theorem keyTerms_zerosAndNaNs : KeyTerms "m" zerosAndNaNs where
  ne_nil := by decide
  names := by decide
  ids := by decide
  predicates := by
    refine List.forall_mem_cons.2 ⟨.or (List.forall_mem_cons.2
      ⟨?_, List.forall_mem_singleton.2 ?_⟩), List.forall_mem_singleton.2 ?_⟩
    · exact .columnEquals ⟨rfl, .inl rfl⟩ rfl
    · exact .equalsColumn ⟨rfl, .inr rfl⟩ rfl
    · exact .oneOf ⟨rfl, .inl rfl⟩ (by decide)

theorem ofEntry_zerosAndNaNs :
    let entry : RangeEntry := .relation ⟨"public", "measures"⟩ "m"
    let sets := zerosAndNaNs.map (valuesOf ⟨fun _ => .null, fun _ => .null, fun _ => .null⟩)
    let decision := fun factor =>
      ofEntry measures factor entry (some (.and (zerosAndNaNs.map (·.2))))
    KeyTerms "m" zerosAndNaNs ∧ ∅ ∉ sets ∧
      (sets.map Scalar.count).prod < (8 : ℕ) ∧ decision 2 = .exactly [0, 1, 2] ∧
      ¬(sets.map Scalar.count).prod < (4 : ℕ) ∧ decision 1 = .full := by
  intro entry sets decision
  have hexact := fun factor hcap => @ofEntry_exact_on_keys 4 factor zerosAndNaNs measures entry
    ⟨"public", "measures"⟩ rfl rfl rfl rfl keyTerms_zerosAndNaNs hcap
    ⟨fun _ => .null, fun _ => .null, fun _ => .null⟩
  obtain ⟨hnone, htwo⟩ := hexact 2 (by decide)
  have hone := (hexact 1 (by decide)).2
  have hdirect : decision 2 = .exactly [0, 1, 2] := by decide +kernel
  have hfull : decision 1 = .full := by decide +kernel
  have hsome : ∅ ∉ sets := by
    rw [← hnone]
    decide +kernel
  refine ⟨keyTerms_zerosAndNaNs, hsome, ?_, hdirect, ?_, hfull⟩
  · by_contra hmany
    cases hdirect.symm.trans ((htwo hsome).2 hmany)
  · intro hfew
    obtain ⟨known, heq, -⟩ := (hone hsome).1 hfew
    cases hfull.symm.trans heq

end ScanDecision
end SliceDispatch