import SliceDispatch.Proofs.AlikeCandidates
import SliceDispatch.Proofs.ScanSoundness
import Mathlib.Data.List.Sections

namespace SliceDispatch.ScanDecision

/-- What the predicate says about the key columns, in order. -/
def keyAnswers (qualifier : String) (keys : List KeyColumn) (p : Expr) : List Candidates :=
  keys.map fun key => Candidates.ofPredicate (keyColumn qualifier key) key.family p

/-- There are as many combinations as the cap, both counted up to the largest count. -/
def TooMany {α : Type} (factor segments : UInt64) (lists : List (List α)) : Prop :=
  min (segments.toNat * factor.toNat) maxCount ≤ min (lists.map List.length).prod maxCount

/-- The decision of a scan by what its predicate says about the key columns. -/
inductive ByKeys (factor segments : UInt64) (families : List HashFamily)
    (answers : List Candidates) : Decision → Prop
  | unconstrained : .unconstrained ∈ answers → ByKeys factor segments families answers .full
  | unsatisfiable {lists : List (List Expr)} : answers = lists.map .among → [] ∈ lists →
      ByKeys factor segments families answers .noRows
  | tooMany {lists : List (List Expr)} : answers = lists.map .among → [] ∉ lists →
      TooMany factor segments lists → ByKeys factor segments families answers .full
  | parameter {lists : List (List Expr)} {list : List Expr} {e : Expr} :
      answers = lists.map .among → [] ∉ lists → list ∈ lists → e ∈ list → e.isConstant = false →
      ByKeys factor segments families answers .full
  | product {values : List (List Scalar)} :
      answers = values.map (fun list => .among (list.map .literal)) → [] ∉ values →
      ¬TooMany factor segments values → ByKeys factor segments families answers
        (.exactly (values.sections.map fun tuple => Placement.segment tuple families segments))

/-- The tuple of a number, as far as no list is empty and no digit lies outside of its list. -/
def tuple? (number : Nat) : List (List Scalar) → Option (List Scalar)
  | [] => some []
  | list :: lists => do
    guard (list.length ≠ 0)
    let value ← list[number % list.length]?
    let values ← tuple? (number / list.length) lists
    return value :: values

variable {factor segments : UInt64} {qualifier : String} {keys : List KeyColumn} {p : Expr}

theorem tuple?_eq_some {lists : List (List Scalar)} (h : [] ∉ lists) (number : Nat) :
    tuple? number lists = some (tuple number lists) := by
  induction lists generalizing number with
  | nil => rfl
  | cons list lists ih =>
    rw [List.mem_cons, not_or] at h
    have hpos : 0 < list.length := List.length_pos_iff.2 (Ne.symm h.1)
    have hlt : number % list.length < list.length := Nat.mod_lt _ hpos
    simp [tuple?, tuple, ih h.2, hlt, Nat.ne_of_gt hpos]

theorem keyCandidates?_eq_none_iff :
    keyCandidates? qualifier p keys = none ↔ .unconstrained ∈ keyAnswers qualifier keys p := by
  induction keys with
  | nil => simp [keyCandidates?, keyAnswers]
  | cons key keys ih =>
    rw [keyCandidates?, keyAnswers, List.map_cons, List.mem_cons, ← keyAnswers, ← ih]
    cases Candidates.ofPredicate (keyColumn qualifier key) key.family p <;> simp

theorem keyCandidates?_eq_some_iff_keyAnswers {lists : List (List Expr)} :
    keyCandidates? qualifier p keys = some lists ↔
      keyAnswers qualifier keys p = lists.map .among := by
  rw [keyCandidates?_eq_some_iff, keyAnswers, ← List.forall₂_eq_eq_eq, List.forall₂_map_left_iff,
    List.forall₂_map_right_iff]

theorem tooMany_iff {α : Type} {lists : List (List α)} : TooMany factor segments lists ↔
    boundedProduct segments.toNat factor.toNat ≤ combinations lists := by
  rw [TooMany, combinations_eq_min, boundedProduct]

theorem mapM_mapM_literal?_eq_none {lists : List (List Expr)} {list : List Expr} {e : Expr}
    (hlist : list ∈ lists) (he : e ∈ list) (hc : e.isConstant = false) :
    lists.mapM (·.mapM literal?) = none := by
  have hnone : list.mapM literal? = none :=
    mapM_eq_none (fun _ => literal?_eq_none) (List.all_eq_false.2 ⟨e, he, by simp [hc]⟩)
  cases hm : lists.mapM (·.mapM literal?) with
  | none => rfl
  | some values =>
    obtain ⟨vs, -, hvs⟩ := exists_mem_of_mapM_eq_some hm hlist
    cases hnone.symm.trans hvs

theorem mem_tuples_iff_mem_sections {lists : List (List Scalar)}
    (h : combinations lists < maxCount) {vs : List Scalar} :
    vs ∈ tuples lists ↔ vs ∈ lists.sections := by
  rw [mem_tuples_iff h, List.mem_sections]

theorem ofKeys_eq_of_byKeys {d : Decision}
    (h : ByKeys factor segments (keys.map (·.family)) (keyAnswers qualifier keys p) d) :
    ofKeys factor qualifier keys segments p = d := by
  cases h with
  | unconstrained hu => rw [ofKeys_eq, keyCandidates?_eq_none_iff.2 hu]
  | unsatisfiable hlists hnil =>
    rw [ofKeys_eq, keyCandidates?_eq_some_iff_keyAnswers.2 hlists]
    exact if_pos (combinations_eq_zero_iff.2 hnil)
  | tooMany hlists hnil hcap =>
    rw [ofKeys_eq, keyCandidates?_eq_some_iff_keyAnswers.2 hlists]
    dsimp only
    rw [if_neg (combinations_ne_zero hnil), if_pos (tooMany_iff.1 hcap)]
  | parameter hlists hnil hlist he hc =>
    rw [ofKeys_eq, keyCandidates?_eq_some_iff_keyAnswers.2 hlists]
    dsimp only
    rw [if_neg (combinations_ne_zero hnil), mapM_mapM_literal?_eq_none hlist he hc]
    exact ite_self _
  | @product values hvalues hnil hcap =>
    rw [ofKeys_eq, keyCandidates?_eq_some_iff_keyAnswers.2 (hvalues.trans List.map_map.symm)]
    dsimp only
    rw [tooMany_iff] at hcap
    rw [combinations_map_map, if_neg (combinations_ne_zero hnil), if_neg hcap,
      mapM_mapM_literal?_eq_some_iff.2 rfl]
    refine Decision.exactly_congr fun id => ?_
    simp only [List.mem_map, mem_tuples_iff_mem_sections (combinations_lt_maxCount hcap)]

theorem exists_lists {answers : List Candidates} (h : .unconstrained ∉ answers) :
    ∃ lists : List (List Expr), answers = lists.map .among := by
  induction answers with
  | nil => exact ⟨[], rfl⟩
  | cons answer answers ih =>
    rw [List.mem_cons, not_or] at h
    obtain ⟨lists, rfl⟩ := ih h.2
    cases answer with
    | unconstrained => exact absurd rfl h.1
    | among list => exact ⟨list :: lists, rfl⟩

theorem exists_values {lists : List (List Expr)}
    (h : ∀ list ∈ lists, list.all Expr.isConstant = true) :
    ∃ values : List (List Scalar), lists = values.map (·.map .literal) := by
  induction lists with
  | nil => exact ⟨[], rfl⟩
  | cons list lists ih =>
    obtain ⟨hlist, hlists⟩ := List.forall_mem_cons.1 h
    obtain ⟨vs, rfl⟩ := Candidates.exists_literals hlist
    obtain ⟨values, rfl⟩ := ih hlists
    exact ⟨vs :: values, rfl⟩

theorem exists_byKeys (factor segments : UInt64) (families : List HashFamily)
    (answers : List Candidates) : ∃ d, ByKeys factor segments families answers d := by
  by_cases hu : .unconstrained ∈ answers
  · exact ⟨_, .unconstrained hu⟩
  obtain ⟨lists, rfl⟩ := exists_lists hu
  by_cases hnil : [] ∈ lists
  · exact ⟨_, .unsatisfiable rfl hnil⟩
  by_cases hcap : TooMany factor segments lists
  · exact ⟨_, .tooMany rfl hnil hcap⟩
  by_cases hconstant : ∀ list ∈ lists, list.all Expr.isConstant = true
  · obtain ⟨values, rfl⟩ := exists_values hconstant
    rw [tooMany_iff, combinations_map_map, ← tooMany_iff] at hcap
    exact ⟨_, .product List.map_map (by simpa using hnil) hcap⟩
  · simp only [not_forall, Bool.not_eq_true, List.all_eq_false] at hconstant
    obtain ⟨list, hlist, e, he, hc⟩ := hconstant
    exact ⟨_, .parameter rfl hnil hlist he hc⟩

variable {catalog : Catalog} {entry : RangeEntry} {table : Table}

theorem ofEntry_eq_ofKeys (hkind : entry.kind = .relation) (hforced : entry.forcedRandom = false)
    (htable : entry.table = some table)
    (hd : catalog.distribution? table = some (.hashed keys segments)) (hkeys : keys ≠ [])
    (hnamed : namedSegments? entry.qualifier segments p = none) :
    ofEntry catalog factor entry (some p) = ofKeys factor entry.qualifier keys segments p := by
  have hdist : distribution? catalog entry = some (.hashed keys segments) := by
    simp [distribution?, hkind, hforced, htable, hd]
  simp [ofEntry_eq, hdist, ofDistribution_eq, Distribution.isPartitioned, Distribution.segments,
    hnamed, Distribution.isHashPartitioned, Distribution.keys, hkeys]

/-- A scan of a hashed table whose predicate does not name segments is decided by its key columns.
Where their values are enumerated, the count of combinations is the product of the lengths of the
lists, every number decodes to a tuple, and every tuple of the Cartesian product has a number. -/
theorem ofEntry_enumerates_product (hkind : entry.kind = .relation)
    (hforced : entry.forcedRandom = false) (htable : entry.table = some table)
    (hd : catalog.distribution? table = some (.hashed keys segments)) (hkeys : keys ≠ [])
    (hnamed : namedSegments? entry.qualifier segments p = none) (factor : UInt64) :
    (∀ d, ofEntry catalog factor entry (some p) = d ↔
      ByKeys factor segments (keys.map (·.family)) (keyAnswers entry.qualifier keys p) d) ∧
    ∀ values : List (List Scalar),
      keyAnswers entry.qualifier keys p = values.map (fun list => .among (list.map .literal)) →
      [] ∉ values → ¬TooMany factor segments values →
      combinations values = (values.map List.length).prod ∧
        (∀ number, tuple? number values = some (tuple number values)) ∧
        ∀ vs ∈ values.sections, ∃ number < combinations values, tuple? number values = some vs := by
  constructor
  · intro d
    rw [ofEntry_eq_ofKeys hkind hforced htable hd hkeys hnamed]
    constructor
    · -- the decision by the key columns is the only one
      rintro rfl
      obtain ⟨d, hby⟩ := exists_byKeys factor segments (keys.map (·.family))
        (keyAnswers entry.qualifier keys p)
      rwa [ofKeys_eq_of_byKeys hby]
    · exact ofKeys_eq_of_byKeys
  · intro values _ hnil hcap
    have hlt := combinations_lt_maxCount (mt tooMany_iff.2 hcap)
    refine ⟨combinations_eq_prod hlt, tuple?_eq_some hnil, fun vs hvs => ?_⟩
    obtain ⟨number, hnumber, rfl⟩ := List.mem_map.1 ((mem_tuples_iff_mem_sections hlt).2 hvs)
    exact ⟨number, List.mem_range.1 hnumber, tuple?_eq_some hnil number⟩

/-- `region IN ('eu', 'us') AND o.number IN (NULL, 1, 2, 1)` -/
def fourOrders : Expr :=
  .and [.oneOf (.column ⟨none, "region", 0⟩) [.literal (.text "eu"), .literal (.text "us")],
    .oneOf (.column ⟨some "o", "number", 1⟩)
      [.literal .null, .literal (.int 1), .literal (.int 2), .literal (.int 1)]]

theorem fourOrders_enumerated :
    ofEntry orders 3 (.relation ⟨"public", "orders"⟩ "o") (some fourOrders) =
        .exactly ([[.text "eu", .text "us"], [.int 1, .int 2]].sections.map fun tuple =>
          Placement.segment tuple [.text, .integer] 4) ∧
      ofEntry orders 1 (.relation ⟨"public", "orders"⟩ "o") (some fourOrders) = .full := by
  have hd : orders.distribution? ⟨"public", "orders"⟩ = some (.hashed
      [⟨⟨none, "region", 0⟩, .text⟩, ⟨⟨none, "number", 1⟩, .integer⟩] 4) := rfl
  have hnamed : namedSegments? "o" 4 fourOrders = none := rfl
  have hby := fun factor => (@ofEntry_enumerates_product 4 _ fourOrders orders
    (.relation ⟨"public", "orders"⟩ "o") _ rfl rfl rfl hd (by simp) hnamed factor).1
  constructor
  · refine (hby 3 _).2 (.product rfl (by simp) ?_)
    simp [TooMany, maxCount]
  · refine (hby 1 _).2 (@ByKeys.tooMany 1 4 _ _ [[.literal (.text "eu"), .literal (.text "us")],
      [.literal (.int 1), .literal (.int 2)]] rfl (by simp) ?_)
    simp [TooMany, maxCount]

end SliceDispatch.ScanDecision
