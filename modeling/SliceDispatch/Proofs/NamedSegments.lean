import SliceDispatch.Proofs.CandidateLists
import SliceDispatch.Proofs.KeyCombinations

namespace SliceDispatch

def SegmentSet.values (s : SegmentSet) : Set Int := {z | ∃ i ∈ s, (i.toNat : Int) = z}

namespace SegmentSet

variable {s : SegmentSet}

theorem toNat_mem_values {i : SegmentId} : (i.toNat : Int) ∈ s.values ↔ i ∈ s := by
  constructor
  · rintro ⟨j, hj, hji⟩
    rwa [← UInt32.toNat_inj.1 (Int.ofNat_inj.1 hji)]
  · exact fun hi => ⟨i, hi, rfl⟩

theorem lt_of_mem_values {z : Int} (h : z ∈ s.values) : z < 2 ^ 32 := by
  obtain ⟨i, -, rfl⟩ := h
  exact_mod_cast i.toNat_lt

theorem values_injective : Function.Injective values := by
  intro s t h
  apply Std.ExtTreeSet.ext_mem
  intro i
  rw [← toNat_mem_values, h, toNat_mem_values]

end SegmentSet

namespace ScanDecision

variable {qualifier : String} {segments : UInt64} {p : Expr} {numbers : List Int64}
  {ids : List SegmentId}

/-- What lies between zero and the signed reading of a count lies below the count. Counts from
`2 ^ 63` on have a negative reading, so that nothing lies there. -/
theorem between_toInt64_iff {n : Int64} : 0 ≤ n ∧ n < segments.toInt64 ↔
    segments.toNat < 2 ^ 63 ∧ 0 ≤ n.toInt ∧ n.toInt < segments.toNat := by
  rw [Int64.le_iff_toInt_le, Int64.lt_iff_toInt_lt]
  have hn : n.toInt = _ := BitVec.toInt_eq_toNat_cond n.toBitVec
  have hsegments : segments.toInt64.toInt = _ := BitVec.toInt_eq_toNat_cond segments.toBitVec
  have hnlt : n.toBitVec.toNat < 2 ^ 64 := n.toBitVec.isLt
  have hlt : segments.toBitVec.toNat < 2 ^ 64 := segments.toBitVec.isLt
  have hzero : (0 : Int64).toInt = 0 := rfl
  change _ ↔ segments.toBitVec.toNat < _ ∧ _ ∧ _ < (segments.toBitVec.toNat : Int)
  split at hn <;> split at hsegments <;> omega

/-- In the width of a segment id a number keeps its residue. -/
theorem toNat_toUInt32_toUInt64 (n : Int64) :
    (n.toUInt64.toUInt32.toNat : Int) = n.toInt % 2 ^ 32 := by
  have hn : n.toInt = _ := BitVec.toInt_eq_toNat_cond n.toBitVec
  have hnarrow : n.toUInt64.toUInt32.toNat = n.toBitVec.toNat % 2 ^ 32 := rfl
  split at hn <;> omega

/-- An expression names a segment exactly if it is a number below the count. -/
theorem namedSegment?_eq_some_iff {e : Expr} {id : SegmentId} :
    namedSegment? segments e = some id ↔ ∃ n : Int64, e = .literal (.int n) ∧
      segments.toNat < 2 ^ 63 ∧ 0 ≤ n.toInt ∧ n.toInt < segments.toNat ∧
      n.toUInt64.toUInt32 = id := by
  constructor
  · intro h
    unfold namedSegment? at h
    split at h
    · rename_i n
      split at h
      · rename_i hbetween
        obtain ⟨hsegments, hpos, hlt⟩ := between_toInt64_iff.1 hbetween
        exact ⟨n, rfl, hsegments, hpos, hlt, Option.some.inj h⟩
      · cases h
    · cases h
  · rintro ⟨n, rfl, hsegments, hpos, hlt, rfl⟩
    exact if_pos (between_toInt64_iff.2 ⟨hsegments, hpos, hlt⟩)

theorem namedSegments?_eq_some_iff : namedSegments? qualifier segments p = some ids ↔
    ∃ values, Candidates.ofPredicate (.segmentId qualifier) .integer p = .among values ∧
      0 < values.length ∧ values.length < segments.toNat ∧
      values.mapM (namedSegment? segments) = some ids := by
  unfold namedSegments?
  cases Candidates.ofPredicate (.segmentId qualifier) .integer p with
  | unconstrained => simp
  | among values =>
    have hcount : ¬(values.isEmpty ∨ segments.toNat ≤ values.length) ↔
        0 < values.length ∧ values.length < segments.toNat := by
      rw [not_or, List.isEmpty_iff, ← List.length_eq_zero_iff]
      omega
    dsimp only
    constructor
    · intro h
      split at h
      · cases h
      · rename_i hnot
        obtain ⟨hpos, hlt⟩ := hcount.1 hnot
        exact ⟨values, rfl, hpos, hlt, h⟩
    · rintro ⟨_, ⟨⟩, hpos, hlt, h⟩
      rwa [if_neg (hcount.2 ⟨hpos, hlt⟩)]

/-- The predicate leaves just these numbers for the segment-id column. They are numbers of segments,
but not as many as there are. -/
structure Pins (qualifier : String) (segments : UInt64) (p : Expr) (numbers : List Int64) :
    Prop where
  candidates : Candidates.ofPredicate (.segmentId qualifier) .integer p =
    .among (numbers.map fun n => .literal (.int n))
  nodup : numbers.Nodup
  pos : 0 < numbers.length
  lt : numbers.length < segments.toNat
  range : ∀ n ∈ numbers, 0 ≤ n.toInt ∧ n.toInt < segments.toNat

/-- What is left of a number in the width of a segment id. -/
def residue (n : Int64) : Int := n.toInt % 2 ^ 32

theorem residue_eq_of_lt {n : Int64} (hpos : 0 ≤ n.toInt) (hlt : n.toInt < 2 ^ 32) :
    residue n = n.toInt :=
  Int.emod_eq_of_lt hpos hlt

theorem mapM_namedSegment?_eq_some_iff {values : List Expr} (hsegments : segments.toNat < 2 ^ 63) :
    values.mapM (namedSegment? segments) = some ids ↔ ∃ numbers : List Int64,
      values = numbers.map (fun n => .literal (.int n)) ∧
      (∀ n ∈ numbers, 0 ≤ n.toInt ∧ n.toInt < segments.toNat) ∧
      ids = numbers.map (·.toUInt64.toUInt32) := by
  rw [mapM_eq_some_iff]
  constructor
  · intro h
    induction h with
    | nil => exact ⟨[], rfl, List.forall_mem_nil _, rfl⟩
    | cons hnamed _ ih =>
      obtain ⟨n, rfl, -, hpos, hlt, rfl⟩ := namedSegment?_eq_some_iff.1 hnamed
      obtain ⟨numbers, rfl, hrange, rfl⟩ := ih
      exact ⟨n :: numbers, rfl, List.forall_mem_cons.2 ⟨⟨hpos, hlt⟩, hrange⟩, rfl⟩
  · rintro ⟨numbers, rfl, hrange, rfl⟩
    apply List.forall₂_map_left_iff.2
    apply List.forall₂_map_right_iff.2
    apply List.forall₂_same.2
    intro n hn
    obtain ⟨hpos, hlt⟩ := hrange n hn
    exact namedSegment?_eq_some_iff.2 ⟨n, rfl, hsegments, hpos, hlt, rfl⟩

theorem nodup_of_candidates
    (h : Candidates.ofPredicate (.segmentId qualifier) .integer p =
      .among (numbers.map fun n => .literal (.int n))) : numbers.Nodup := by
  have hdistinct : (Candidates.ofPredicate (.segmentId qualifier) .integer p).Distinct :=
    Candidates.distinct_ofPredicate p
  rw [h] at hdistinct
  apply (List.pairwise_map.1 hdistinct).imp
  rintro n _ hne rfl
  exact Bool.false_ne_true (hne.symm.trans BEq.rfl)

/-- A predicate names segments exactly if it pins the segment-id column, and they are what is left of
the numbers in the width of an id. -/
theorem namedSegments?_eq_some_iff_pins : namedSegments? qualifier segments p = some ids ↔
    segments.toNat < 2 ^ 63 ∧
      ∃ numbers, Pins qualifier segments p numbers ∧ ids = numbers.map (·.toUInt64.toUInt32) := by
  rw [namedSegments?_eq_some_iff]
  constructor
  · rintro ⟨values, hvalues, hpos, hlt, hids⟩
    -- some candidate names a segment, so that the count has no negative reading
    have hsegments : segments.toNat < 2 ^ 63 := by
      obtain ⟨e, he⟩ := List.exists_mem_of_length_pos hpos
      obtain ⟨id, -, hid⟩ := exists_mem_of_mapM_eq_some hids he
      obtain ⟨-, -, hsegments, -⟩ := namedSegment?_eq_some_iff.1 hid
      exact hsegments
    obtain ⟨numbers, rfl, hrange, rfl⟩ := (mapM_namedSegment?_eq_some_iff hsegments).1 hids
    rw [List.length_map] at hpos hlt
    exact ⟨hsegments, numbers, ⟨hvalues, nodup_of_candidates hvalues, hpos, hlt, hrange⟩, rfl⟩
  · rintro ⟨hsegments, numbers, hpins, rfl⟩
    refine ⟨_, hpins.candidates, ?_, ?_, ?_⟩
    · rw [List.length_map]
      exact hpins.pos
    · rw [List.length_map]
      exact hpins.lt
    · exact (mapM_namedSegment?_eq_some_iff hsegments).2 ⟨numbers, rfl, hpins.range, rfl⟩

theorem values_ofList_map (numbers : List Int64) :
    (Std.ExtTreeSet.ofList (numbers.map (·.toUInt64.toUInt32)) : SegmentSet).values =
      residue '' {n | n ∈ numbers} := by
  ext z
  constructor
  · rintro ⟨i, hi, rfl⟩
    obtain ⟨n, hn, rfl⟩ := List.mem_map.1 (Decision.mem_ofList.1 hi)
    exact ⟨n, hn, (toNat_toUInt32_toUInt64 n).symm⟩
  · rintro ⟨n, hn, rfl⟩
    exact ⟨_, Decision.mem_ofList.2 (List.mem_map_of_mem hn), toNat_toUInt32_toUInt64 n⟩

theorem map_exactly_namedSegments?_eq_some_iff {s : SegmentSet} :
    (namedSegments? qualifier segments p).map Decision.exactly = some ⟨true, some s⟩ ↔
      segments.toNat < 2 ^ 63 ∧
      ∃ numbers, Pins qualifier segments p numbers ∧ s.values = residue '' {n | n ∈ numbers} := by
  rw [Option.map_eq_some_iff]
  simp only [namedSegments?_eq_some_iff_pins]
  constructor
  · rintro ⟨_, ⟨hsegments, numbers, hpins, rfl⟩, ⟨⟩⟩
    exact ⟨hsegments, numbers, hpins, values_ofList_map numbers⟩
  · rintro ⟨hsegments, numbers, hpins, hs⟩
    refine ⟨_, ⟨hsegments, numbers, hpins, rfl⟩, ?_⟩
    have hset : (Std.ExtTreeSet.ofList (numbers.map (·.toUInt64.toUInt32)) : SegmentSet) = s := by
      apply SegmentSet.values_injective
      rw [hs, values_ofList_map]
    rw [Decision.exactly, hset]

namespace Pins

theorem unique {more : List Int64} (h : Pins qualifier segments p numbers)
    (hmore : Pins qualifier segments p more) : numbers = more := by
  have hlits := Candidates.among.inj (h.candidates.symm.trans hmore.candidates)
  apply List.map_injective_iff.2 _ hlits
  rintro m _ ⟨⟩
  rfl

theorem residues_eq_iff (h : Pins qualifier segments p numbers) {s : SegmentSet}
    (hs : s.values = residue '' {n | n ∈ numbers}) :
    s.values = Int64.toInt '' {n | n ∈ numbers} ↔ ∀ n ∈ numbers, n.toInt < 2 ^ 32 := by
  constructor
  · intro heq n hn
    apply SegmentSet.lt_of_mem_values (s := s)
    rw [heq]
    exact Set.mem_image_of_mem _ hn
  · intro hlt
    rw [hs]
    exact Set.image_congr fun n hn => residue_eq_of_lt (h.range n hn).1 (hlt n hn)

theorem encard_residues_iff (h : Pins qualifier segments p numbers) :
    (residue '' {n | n ∈ numbers}).encard = numbers.length ↔
      Set.InjOn residue {n | n ∈ numbers} := by
  rw [← Candidates.encard_of_nodup h.nodup]
  exact ⟨(List.finite_toSet numbers).injOn_of_encard_image_eq, Set.InjOn.encard_image⟩

theorem lt_of_segments_le (h : Pins qualifier segments p numbers)
    (hsegments : segments.toNat ≤ 2 ^ 32) : ∀ n ∈ numbers, n.toInt < 2 ^ 32 := by
  intro n hn
  have hlt := (h.range n hn).2
  omega

theorem injOn_residue_of_lt (h : Pins qualifier segments p numbers)
    (hlt : ∀ n ∈ numbers, n.toInt < 2 ^ 32) : Set.InjOn residue {n | n ∈ numbers} := by
  intro m hm n hn hmn
  rw [residue_eq_of_lt (h.range m hm).1 (hlt m hm),
    residue_eq_of_lt (h.range n hn).1 (hlt n hn)] at hmn
  exact Int64.toInt_inj.1 hmn

end Pins

/-- A predicate names a set of segments exactly if it pins the segment-id column, among fewer than
`2 ^ 63` segments, to numbers that leave the ids of the set as residues. The ids are the numbers
exactly if all of these are below `2 ^ 32`, and they are as many exactly if no two have the same
residue; both is so among at most `2 ^ 32` segments. -/
theorem named_iff_pinned (qualifier : String) (segments : UInt64) (p : Expr) (s : SegmentSet) :
    (namedSegments? qualifier segments p).map Decision.exactly = some ⟨true, some s⟩ ↔
      segments.toNat < 2 ^ 63 ∧
      ∃ numbers, Pins qualifier segments p numbers ∧ s.values = residue '' {n | n ∈ numbers} ∧
        (s.values = Int64.toInt '' {n | n ∈ numbers} ↔ ∀ n ∈ numbers, n.toInt < 2 ^ 32) ∧
        (s.values.encard = numbers.length ↔ Set.InjOn residue {n | n ∈ numbers}) ∧
        (segments.toNat ≤ 2 ^ 32 →
          s.values = Int64.toInt '' {n | n ∈ numbers} ∧ s.values.encard = numbers.length) := by
  rw [map_exactly_namedSegments?_eq_some_iff]
  refine and_congr_right fun _ => exists_congr fun numbers => and_congr_right fun hpins => ?_
  constructor
  · intro hs
    have hexact := hpins.residues_eq_iff hs
    have hcount := hs ▸ hpins.encard_residues_iff
    refine ⟨hs, hexact, hcount, fun hsegments => ?_⟩
    have hlt := hpins.lt_of_segments_le hsegments
    exact ⟨hexact.2 hlt, hcount.2 (hpins.injOn_residue_of_lt hlt)⟩
  · rintro ⟨hs, -⟩
    exact hs

/-- `gp_segment_id IN (1, 4294967297)` -/
def farNumbers : Expr :=
  .oneOf (.column ⟨none, "gp_segment_id", 4294967288⟩)
    [.literal (.int 1), .literal (.int 4294967297)]

/-- Among `2 ^ 33` segments the second number is cut to the first. One segment is named instead of
two, and the numbers are not those of the predicate. -/
theorem farNumbers_collapse :
    Pins "r" 8589934592 farNumbers [1, 4294967297] ∧
      ofEntry ((StoredCatalog.empty 8589934592).add ⟨"public", "r"⟩ (.random 8589934592)) 3
        (.relation ⟨"public", "r"⟩ "r") (some farNumbers) = .exactly [1] ∧
      ∃ s : SegmentSet,
        (namedSegments? "r" 8589934592 farNumbers).map Decision.exactly = some ⟨true, some s⟩ ∧
        s.values = {1} ∧
        ¬∃ numbers, Pins "r" 8589934592 farNumbers numbers ∧
          s.values = Int64.toInt '' {n | n ∈ numbers} := by
  have hrange : ∀ n ∈ [(1 : Int64), 4294967297],
      0 ≤ n.toInt ∧ n.toInt < (8589934592 : UInt64).toNat :=
    List.forall_mem_cons.2 ⟨by decide, List.forall_mem_singleton.2 (by decide)⟩
  have hpins : Pins "r" 8589934592 farNumbers [1, 4294967297] :=
    ⟨rfl, by decide, by decide, by decide, hrange⟩
  have hvalues := values_ofList_map [1, 4294967297]
  have hone : ∀ n ∈ [1, 4294967297], residue n = 1 :=
    List.forall_mem_cons.2 ⟨rfl, List.forall_mem_singleton.2 rfl⟩
  refine ⟨hpins, by decide +kernel, _, rfl, hvalues.trans ?_, ?_⟩
  · refine Set.eq_singleton_iff_unique_mem.2 ⟨⟨1, List.mem_cons_self, rfl⟩, ?_⟩
    rintro _ ⟨n, hn, rfl⟩
    exact hone n hn
  · -- the predicate pins no other numbers, and of these one is no id
    rintro ⟨numbers, hnumbers, hs⟩
    obtain rfl := hnumbers.unique hpins
    have hlt := (hpins.residues_eq_iff hvalues).1 hs 4294967297 (by simp)
    exact absurd hlt (by decide)

end ScanDecision
end SliceDispatch
