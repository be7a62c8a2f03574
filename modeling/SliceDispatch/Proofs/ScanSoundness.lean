import SliceDispatch.Proofs.CandidateSoundness
import SliceDispatch.Proofs.KeyHash
import SliceDispatch.Proofs.NamedSegments

namespace SliceDispatch

structure Row where
  segment : SegmentId
  value : String → Scalar
  value_segmentId : value "gp_segment_id" = .int segment.toUInt64.toInt64

/-- The row lies where the distribution puts it. -/
def Distribution.Places (row : Row) : Distribution → Prop
  | .hashed keys segments => keys ≠ [] → row.segment =
    Placement.segment (keys.map (row.value ·.column.name)) (keys.map (·.family)) segments
  | _ => True

/-- The row lies where the distribution of the entry's relation puts it; it may lie anywhere if the
entry disregards the distribution or has none. -/
def RangeEntry.Places (catalog : Catalog) (row : Row) (entry : RangeEntry) : Prop :=
  ∀ table d, entry.kind = .relation → entry.forcedRandom = false → entry.table = some table →
    catalog.distribution? table = some d → d.Places row

/-- The columns of the entry, qualified by it or not at all, are those of the row. -/
def Evaluation.Reads (ev : Evaluation) (entry : RangeEntry) (row : Row) : Prop :=
  ∀ c : Column, c.qualifier = none ∨ c.qualifier = some entry.qualifier →
    ev.value (.column c) = row.value c.name

def Environment.ofRow (row : Row) (param : UInt32 → Scalar) (other : Expr → Scalar) : Environment :=
  ⟨(row.value ·.name), param, other⟩

theorem Environment.reads_ofRow (row : Row) (param : UInt32 → Scalar) (other : Expr → Scalar)
    (entry : RangeEntry) : (ofRow row param other).evaluation.Reads entry row :=
  fun _ _ => rfl

/-- The decision dispatches to the segment. -/
def Decision.Covers (d : Decision) (segment : SegmentId) : Prop :=
  d.isFull = true ∨ ∃ known, d.segments = some known ∧ segment ∈ known

theorem Decision.covers_full (segment : SegmentId) : full.Covers segment := .inl rfl

theorem Decision.covers_exactly {segments : List SegmentId} {segment : SegmentId}
    (h : segment ∈ segments) : (exactly segments).Covers segment :=
  .inr ⟨_, rfl, mem_ofList.2 h⟩

theorem Decision.not_covers_noRows (segment : SegmentId) : ¬noRows.Covers segment := by
  rintro (h | ⟨_, h, -⟩) <;> cases h

namespace ScanDecision

variable {catalog : Catalog} {entry : RangeEntry} {row : Row} {ev : Evaluation}
  {p : Expr} {segments : UInt64}

theorem denotes_of_reads (h : ev.Reads entry row) (c : Column)
    (hc : c.qualifier = some entry.qualifier) : ev.Denotes c (row.value c.name) := by
  rintro c' hagrees
  simp only [Column.agrees, hc, Bool.and_eq_true, beq_iff_eq] at hagrees
  rw [← hagrees.1]
  apply h
  cases hq : c'.qualifier with
  | none => exact .inl rfl
  | some q =>
    right
    simpa [hq] using hagrees.2

theorem segment_mem_namedSegments? {ids : List SegmentId} (hreads : ev.Reads entry row)
    (hholds : ev.Holds p) (h : namedSegments? entry.qualifier segments p = some ids) :
    row.segment ∈ ids := by
  obtain ⟨values, hvalues, -, -, hids⟩ := namedSegments?_eq_some_iff.1 h
  have hadm : (Candidates.ofPredicate (.segmentId entry.qualifier) .integer p).Admits ev
      (.int row.segment.toUInt64.toInt64) := by
    have hd := denotes_of_reads hreads (.segmentId entry.qualifier) rfl
    rw [← row.value_segmentId]
    exact Candidates.admits_ofPredicate hd hholds
  rw [hvalues] at hadm
  obtain ⟨e, he, hstands⟩ := hadm
  obtain ⟨id, hid, hnamed⟩ := exists_mem_of_mapM_eq_some hids he
  -- no list would be named if the candidate were a parameter
  obtain ⟨n, rfl, -, -, -, rfl⟩ := namedSegment?_eq_some_iff.1 hnamed
  cases hstands with
  | literal hsame =>
    have hn : n = row.segment.toUInt64.toInt64 := by simpa [Scalar.same] using hsame
    simpa [hn] using hid

theorem stands_of_keyCandidates? {keys : List KeyColumn} {lists : List (List Expr)}
    (hreads : ev.Reads entry row) (hholds : ev.Holds p)
    (h : keyCandidates? entry.qualifier p keys = some lists) :
    List.Forall₂ (fun key list => ∃ e ∈ list, ev.Stands (row.value key.column.name) e)
      keys lists := by
  apply (keyCandidates?_eq_some_iff.1 h).imp
  intro key list hlist
  have hd := denotes_of_reads hreads (keyColumn entry.qualifier key) rfl
  have hadm : (Candidates.ofPredicate (keyColumn entry.qualifier key) key.family p).Admits ev
      (row.value key.column.name) := Candidates.admits_ofPredicate hd hholds
  rwa [hlist] at hadm

theorem nil_notMem_of_forall₂ {α β : Type} {P : α → β → Prop} {keys : List α}
    {lists : List (List β)} (h : List.Forall₂ (fun key list => ∃ e ∈ list, P key e) keys lists) :
    [] ∉ lists := by
  induction h with
  | nil => exact List.not_mem_nil
  | cons hkey _ ih =>
    obtain ⟨e, he, -⟩ := hkey
    rw [List.mem_cons, not_or]
    exact ⟨(List.ne_nil_of_mem he).symm, ih⟩

/-- Some choice of candidates equals the values that literal candidates stand for. -/
theorem exists_choice {α : Type} {value : α → Scalar} {keys : List α} {lists : List (List Scalar)}
    (h : List.Forall₂ (fun key list => ∃ e ∈ list.map Expr.literal, ev.Stands (value key) e)
      keys lists) :
    ∃ choice, List.Forall₂ (· ∈ ·) choice lists ∧
      List.Forall₂ (fun a b : Scalar => a.same b = true) choice (keys.map value) := by
  induction h with
  | nil => exact ⟨[], .nil, .nil⟩
  | cons hkey _ ih =>
    obtain ⟨choice, hmem, hsame⟩ := ih
    obtain ⟨_, he, hstands⟩ := hkey
    obtain ⟨v, hv, rfl⟩ := List.mem_map.1 he
    cases hstands with
    | literal hvs => exact ⟨v :: choice, .cons hv hmem, .cons hvs hsame⟩

theorem covers_ofKeys {keys : List KeyColumn} (hreads : ev.Reads entry row) (hholds : ev.Holds p)
    (hplaced : row.segment = Placement.segment (keys.map (row.value ·.column.name))
      (keys.map (·.family)) segments) (factor : UInt64) :
    (ofKeys factor entry.qualifier keys segments p).Covers row.segment := by
  simp only [ofKeys_eq]
  cases hl : keyCandidates? entry.qualifier p keys with
  | none => exact Decision.covers_full _
  | some lists =>
    have hstands := stands_of_keyCandidates? hreads hholds hl
    have hne : combinations lists ≠ 0 := combinations_ne_zero (nil_notMem_of_forall₂ hstands)
    simp only [hne, ↓reduceIte]
    split
    · exact Decision.covers_full _
    rename_i hcap
    cases hv : lists.mapM (·.mapM literal?) with
    | none => exact Decision.covers_full _
    | some values =>
      obtain rfl := mapM_mapM_literal?_eq_some_iff.1 hv
      -- below the cap the count is exact, so that the tuples are all choices
      rw [combinations_map_map] at hcap
      rw [List.forall₂_map_right_iff] at hstands
      have hcount : combinations values < maxCount := combinations_lt_maxCount hcap
      obtain ⟨choice, hmem, hsame⟩ := exists_choice hstands
      apply Decision.covers_exactly
      rw [hplaced, ← Placement.segment_eq_of_same hsame]
      exact List.mem_map_of_mem ((mem_tuples_iff hcount).2 hmem)

theorem covers_ofDistribution {d : Distribution} (hplaced : d.Places row)
    (hreads : ev.Reads entry row) (hholds : ev.Holds p) (factor : UInt64) :
    (ofDistribution factor entry.qualifier d p).Covers row.segment := by
  simp only [ofDistribution_eq]
  split
  · rename_i ids hids
    split at hids
    · exact Decision.covers_exactly (segment_mem_namedSegments? hreads hholds hids)
    · cases hids
  split
  · rename_i hhash
    cases d with
    | hashed keys segments =>
      have hkeys : keys ≠ [] := by
        simpa [Distribution.isHashPartitioned, Distribution.keys] using hhash
      exact covers_ofKeys hreads hholds (hplaced hkeys) factor
    | random | replicated => cases hhash
  · exact Decision.covers_full _

theorem covers_ofEntry {predicate : Option Expr} (hplaced : entry.Places catalog row)
    (hreads : ev.Reads entry row) (hholds : ∀ p ∈ predicate, ev.Holds p) (factor : UInt64) :
    (ofEntry catalog factor entry predicate).Covers row.segment := by
  simp only [ofEntry_eq]
  split
  · rename_i d p hd
    apply covers_ofDistribution _ hreads (hholds p rfl)
    unfold distribution? at hd
    split at hd
    · rename_i hkind
      obtain ⟨table, htable, hd⟩ := Option.bind_eq_some_iff.1 hd
      exact hplaced table d hkind.1 (by simpa using hkind.2) htable hd
    · cases hd
  · exact Decision.covers_full _

/-- A scan is dispatched to every segment where a row lies that its predicate is true of. If it is
decided that there are no rows, then there is no such row. -/
theorem ofEntry_misses_no_row {predicate : Option Expr} (hplaced : entry.Places catalog row)
    (hreads : ev.Reads entry row) (hholds : ∀ p ∈ predicate, ev.Holds p) (factor : UInt64) :
    (ofEntry catalog factor entry predicate).Covers row.segment ∧
      ofEntry catalog factor entry predicate ≠ .noRows := by
  have hcovers := covers_ofEntry hplaced hreads hholds factor
  refine ⟨hcovers, fun h => ?_⟩
  rw [h] at hcovers
  exact Decision.not_covers_noRows _ hcovers

def orders : Catalog :=
  (StoredCatalog.empty 4).add ⟨"public", "orders"⟩
    (.hashed [⟨⟨none, "region", 0⟩, .text⟩, ⟨⟨none, "number", 1⟩, .integer⟩] 4)

/-- `o.region = 'eu' AND number IN (1, 2)` -/
def twoOrders : Expr :=
  .and [.equals (.column ⟨some "o", "region", 0⟩) (.literal (.text "eu")),
    .oneOf (.column ⟨none, "number", 1⟩) [.literal (.int 1), .literal (.int 2)]]

def orderRow : Row where
  segment := Placement.segment [.text "eu", .int 2] [.text, .integer] 4
  value name :=
    if name = "gp_segment_id" then
      .int (Placement.segment [.text "eu", .int 2] [.text, .integer] 4).toUInt64.toInt64
    else if name = "region" then .text "eu"
    else .int 2
  value_segmentId := rfl

theorem ofEntry_misses_no_order :
    ofEntry orders 3 (.relation ⟨"public", "orders"⟩ "o") (some twoOrders) = .exactly [0, 3] ∧
      (ofEntry orders 3 (.relation ⟨"public", "orders"⟩ "o") (some twoOrders)).Covers
        orderRow.segment ∧
      ofEntry orders 3 (.relation ⟨"public", "orders"⟩ "o") (some twoOrders) ≠ .noRows := by
  have hplaced : (RangeEntry.relation ⟨"public", "orders"⟩ "o").Places orders orderRow := by
    rintro table d - - ⟨⟩ hd
    cases hd
    exact fun _ => rfl
  have hreads := Environment.reads_ofRow orderRow (fun _ => .null) (fun _ => .null)
    (.relation ⟨"public", "orders"⟩ "o")
  refine ⟨by decide +kernel, ofEntry_misses_no_row hplaced hreads ?_ 3⟩
  rintro p ⟨⟩
  decide +kernel

end ScanDecision
end SliceDispatch
