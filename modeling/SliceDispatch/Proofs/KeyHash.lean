import SliceDispatch.Placement
import Mathlib.Data.List.Forall2
import Mathlib.Data.UInt

namespace SliceDispatch

theorem testBit_byte (word : UInt64) {i k : Nat} (hi : i < 8) (hk : k < 8) :
    (word >>> (8 * UInt64.ofNat i)).toUInt8.toNat.testBit k = word.toNat.testBit (8 * i + k) := by
  have hshift : (8 * UInt64.ofNat i).toNat % 64 = 8 * i := by
    rw [UInt64.toNat_mul, UInt64.toNat_ofNat']
    change 8 * (i % 2 ^ 64) % 2 ^ 64 % 64 = _
    omega
  rw [UInt64.toNat_toUInt8, UInt64.toNat_shiftRight, hshift, Nat.testBit_mod_two_pow,
    Nat.testBit_shiftRight, decide_eq_true hk, Bool.true_and]

theorem littleEndian_injective {count : Nat} (hcount : count ≤ 8) {x y : UInt64}
    (hx : x.toNat < 2 ^ (8 * count)) (hy : y.toNat < 2 ^ (8 * count))
    (h : littleEndian count x = littleEndian count y) : x = y := by
  have hbytes : ∀ i < count,
      (x >>> (8 * UInt64.ofNat i)).toUInt8 = (y >>> (8 * UInt64.ofNat i)).toUInt8 := by
    simpa [littleEndian] using h
  apply UInt64.toNat_inj.1
  apply Nat.eq_of_testBit_eq
  intro j
  by_cases hj : j < 8 * count
  · -- the bit is one of the byte that its place falls into
    have hi : j / 8 < count := Nat.div_lt_of_lt_mul hj
    have hk : j % 8 < 8 := Nat.mod_lt _ (by decide)
    rw [← Nat.div_add_mod j 8, ← testBit_byte x (Nat.lt_of_lt_of_le hi hcount) hk, hbytes _ hi,
      testBit_byte y (Nat.lt_of_lt_of_le hi hcount) hk]
  · have hle : 2 ^ (8 * count) ≤ 2 ^ j := Nat.pow_le_pow_right (by decide) (Nat.le_of_not_lt hj)
    rw [Nat.testBit_lt_two_pow (Nat.lt_of_lt_of_le hx hle),
      Nat.testBit_lt_two_pow (Nat.lt_of_lt_of_le hy hle)]

namespace Scalar

variable {a b : Scalar}

theorem bytes?_canonical (a : Scalar) : a.canonical.bytes? = a.bytes? := by
  cases a <;> simp [canonical, bytes?, Binary64.canonical_canonical]

theorem ctorIdx_canonical (a : Scalar) : a.canonical.ctorIdx = a.ctorIdx := by
  cases a <;> rfl

theorem same_of_bytes?_eq (hkind : a.ctorIdx = b.ctorIdx) (h : a.bytes? = b.bytes?) :
    a.same b = true := by
  cases a <;> cases b <;> try cases hkind
  case null.null => rfl
  case bool.bool x y =>
    cases x <;> cases y <;> simp [bytes?] at h <;> rfl
  case int.int x y =>
    have hword := littleEndian_injective (Nat.le_refl 8) (UInt64.toNat_lt _) (UInt64.toNat_lt _)
      (Option.some.inj h)
    cases x
    cases y
    simpa [same] using hword
  case double.double x y =>
    have hbits := littleEndian_injective (Nat.le_refl 8) (UInt64.toNat_lt _) (UInt64.toNat_lt _)
      (Option.some.inj h)
    exact Binary64.same_iff_canonical_eq.2 (congrArg Binary64.mk hbits)
  case text.text x y =>
    have hbytes : x.toUTF8 = y.toUTF8 := Option.some.inj h
    rw [String.toUTF8_eq_toByteArray, String.toUTF8_eq_toByteArray,
      String.toByteArray_inj] at hbytes
    simpa [same] using hbytes
  case date.date x y =>
    have hlt : ∀ days : Int32, days.toUInt32.toUInt64.toNat < 2 ^ (8 * 4) :=
      fun days => days.toUInt32.toNat_lt
    have hword := UInt32.toUInt64_inj.1
      (littleEndian_injective (by decide) (hlt x) (hlt y) (Option.some.inj h))
    cases x
    cases y
    simpa [same] using hword

theorem same_iff_bytes?_eq : a.same b = true ↔ a.ctorIdx = b.ctorIdx ∧ a.bytes? = b.bytes? := by
  constructor
  · intro h
    have hcanonical := same_iff_canonical_eq.1 h
    constructor
    · rw [← ctorIdx_canonical a, hcanonical, ctorIdx_canonical]
    · rw [← bytes?_canonical a, hcanonical, bytes?_canonical]
  · rintro ⟨hkind, h⟩
    exact same_of_bytes?_eq hkind h

theorem bytes?_double_eq_iff {x y : Binary64} : (double x).bytes? = (double y).bytes? ↔
    x.isNaN = true ∧ y.isNaN = true ∨ x.isZero = true ∧ y.isZero = true ∨ x = y := by
  have hsame : (double x).same (double y) = true ↔ (double x).bytes? = (double y).bytes? := by
    rw [same_iff_bytes?_eq]
    exact and_iff_right rfl
  rw [← hsame]
  change x.same y = true ↔ _
  cases x
  cases y
  simp [Binary64.same, or_assoc]

end Scalar

namespace Placement

variable {values values' : List Scalar} {families families' : List HashFamily}
  {keys keys' : List (Scalar × HashFamily)}

/-- The key values that are not NULL, with their families. -/
def present (values : List Scalar) (families : List HashFamily) : List (Scalar × HashFamily) :=
  (values.zip families).filter fun key => decide (key.1 ≠ .null)

/-- Two key values are equal and hashed with one family. -/
def Agree (key key' : Scalar × HashFamily) : Prop := key.1.same key'.1 = true ∧ key.2 = key'.2

variable (hash : ByteHash)

theorem fold_eq_of_agree {key key' : Scalar × HashFamily} (hkey : Agree key key') (h : UInt64) :
    fold hash h key = fold hash h key' := by
  obtain ⟨hsame, hfamily⟩ := hkey
  rw [fold, (Scalar.same_iff_bytes?_eq.1 hsame).2, hfamily, fold]

theorem foldl_fold_eq_of_agree (hkeys : List.Forall₂ Agree keys keys') (h : UInt64) :
    keys.foldl (fold hash) h = keys'.foldl (fold hash) h := by
  induction hkeys generalizing h with
  | nil => rfl
  | cons hkey _ ih => rw [List.foldl_cons, List.foldl_cons, fold_eq_of_agree hash hkey, ih]

theorem foldl_fold_present (h : UInt64) :
    (present values families).foldl (fold hash) h = (values.zip families).foldl (fold hash) h := by
  rw [present, List.foldl_filter]
  congr
  funext h key
  obtain ⟨value, family⟩ := key
  cases value <;> rfl

theorem segmentBy_eq_of_agree
    (h : List.Forall₂ Agree (present values families) (present values' families'))
    (segments : UInt64) :
    segmentBy hash values families segments = segmentBy hash values' families' segments := by
  rw [segmentBy, ← foldl_fold_present, foldl_fold_eq_of_agree hash h, foldl_fold_present, segmentBy]

theorem forall₂_agree_zip {as bs : List Scalar}
    (hab : List.Forall₂ (fun a b : Scalar => a.same b = true) as bs) (families : List HashFamily) :
    List.Forall₂ Agree (as.zip families) (bs.zip families) := by
  induction hab generalizing families with
  | nil => exact .nil
  | cons hab _ ih =>
    cases families with
    | nil => exact .nil
    | cons family families => exact .cons ⟨hab, rfl⟩ (ih families)

/-- The segment of a row depends on its key values up to equality. -/
theorem segment_eq_of_same {as bs : List Scalar}
    (hab : List.Forall₂ (fun a b : Scalar => a.same b = true) as bs) (families : List HashFamily)
    (segments : UInt64) : segment as families segments = segment bs families segments := by
  rw [segment, segment, segmentBy, segmentBy,
    foldl_fold_eq_of_agree _ (forall₂_agree_zip hab families)]

theorem present_insert_null {before after : List Scalar} {families families' : List HashFamily}
    (h : before.length = families.length) (family : HashFamily) :
    present (before ++ .null :: after) (families ++ family :: families') =
      present (before ++ after) (families ++ families') := by
  rw [present, present, List.zip_append h, List.zip_append h]
  simp

/-- Bytes tell key values apart just as equality does, and the segment depends only on which key
values there are beside the NULLs. This is so whatever function hashes the bytes. -/
theorem segment_respects_equality :
    (∀ a b : Scalar, a.same b = true ↔ a.ctorIdx = b.ctorIdx ∧ a.bytes? = b.bytes?) ∧
    (∀ x y : Binary64, (Scalar.double x).bytes? = (Scalar.double y).bytes? ↔
      x.isNaN = true ∧ y.isNaN = true ∨ x.isZero = true ∧ y.isZero = true ∨ x = y) ∧
    segmentBy Xxh3.hash = segment ∧
    ∀ (hash : ByteArray → UInt64 → UInt64) (segments : UInt64),
      (∀ values values' families families',
        List.Forall₂ Agree (present values families) (present values' families') →
        segmentBy hash values families segments = segmentBy hash values' families' segments) ∧
      ∀ (before after : List Scalar) (families families' : List HashFamily) (family : HashFamily),
        before.length = families.length →
        segmentBy hash (before ++ .null :: after) (families ++ family :: families') segments =
          segmentBy hash (before ++ after) (families ++ families') segments := by
  refine ⟨fun _ _ => Scalar.same_iff_bytes?_eq, fun _ _ => Scalar.bytes?_double_eq_iff,
    rfl, fun hash segments => ⟨?_, ?_⟩⟩
  · intro values values' families families' h
    exact segmentBy_eq_of_agree hash h segments
  · intro before after families families' family h
    rw [segmentBy, ← foldl_fold_present, present_insert_null h, foldl_fold_present, segmentBy]

theorem segment_zeros_and_NaNs :
    (Scalar.double .negZero).bytes? = (Scalar.double .zero).bytes? ∧
    (Scalar.double ⟨0xfff0000000000001⟩).bytes? = (Scalar.double .quietNaN).bytes? ∧
    segment [.double .negZero, .null, .text "eu"] [.float, .integer, .text] 1000 =
      segment [.null, .double .zero, .text "eu", .int 7] [.date, .float, .text] 1000 ∧
    segment [.text "eu", .null] [.text, .bool] 1000 = segment [.text "eu"] [.text] 1000 := by
  obtain ⟨-, hdouble, hxxh3, hsegment⟩ := segment_respects_equality
  refine ⟨(hdouble _ _).2 (.inr (.inl ⟨rfl, rfl⟩)), (hdouble _ _).2 (.inl ⟨rfl, rfl⟩), ?_, ?_⟩
  · rw [← hxxh3]
    refine (hsegment _ _).1 _ _ _ _ (.cons ⟨rfl, rfl⟩ (.cons ⟨?_, rfl⟩ .nil))
    decide
  · rw [← hxxh3]
    exact (hsegment _ _).2 [.text "eu"] [] [.text] [] .bool rfl

end Placement
end SliceDispatch
