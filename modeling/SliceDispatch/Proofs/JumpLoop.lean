import SliceDispatch.Proofs.Jumps
import Mathlib.Logic.Function.Iterate

namespace SliceDispatch

namespace Jump

/-- The signed word nearest a number; the largest word stands for all numbers above it. -/
def signedWord (x : Nat) : Int64 := Int64.ofNat (min x (2 ^ 63 - 1))

/-- How far `successor` buckets stretch under a draw of the generator. -/
def reach (successor : Nat) (key : UInt64) : Nat :=
  let product := (Rounding.nearest successor 1).mul (stretch key)
  (Rounding.nearest product.num product.den).floor

structure Loop where
  key : UInt64
  /-- The bucket of the last jump, and before the first jump none. -/
  bucket : Int64
  next : Int64
deriving DecidableEq

namespace Loop

def start (key : UInt64) : Loop := ⟨key, -1, 0⟩

/-- Where the next round jumps to; the sum wraps around. -/
def landing (s : Loop) : Nat := reach (s.next + 1).toNatClampNeg (advance s.key)

def round (s : Loop) : Loop := ⟨advance s.key, s.next, signedWord s.landing⟩

def after (key : UInt64) (rounds : Nat) : Loop := round^[rounds] (start key)

/-- The loop is left after so many rounds, with the bucket of the key among `n`. -/
structure Ends (key n : UInt64) (rounds : Nat) : Prop where
  count_eq : n.toInt64.toInt = n.toNat
  goes_on : ∀ i < rounds, (after key i).next < n.toInt64
  is_left : ¬(after key rounds).next < n.toInt64
  /-- Every round lands beyond the bucket it starts from. -/
  ascends : ∀ i < rounds, (after key (i + 1)).bucket < (after key (i + 1)).next
  /-- No sum wraps around. -/
  fits : ∀ i < rounds, ((after key i).next + 1).toInt = (after key i).next.toInt + 1
  /-- Every landing that is a signed word is converted to itself. -/
  converts : ∀ i < rounds, (after key i).landing < 2 ^ 63 →
    (after key (i + 1)).next.toInt = (after key i).landing
  /-- No other number is landed on than the first one that is too large for a signed word. It takes
  all buckets to get there, and the largest word in its place ends the loop. -/
  saturates : ∀ i < rounds, 2 ^ 63 ≤ (after key i).landing →
    n.toNat = 2 ^ 32 ∧ (after key i).landing = 2 ^ 63 ∧
      (after key (i + 1)).next.toInt = 2 ^ 63 - 1 ∧ i + 1 = rounds
  nonneg : 0 ≤ (after key rounds).bucket
  in_range : (after key rounds).bucket < n.toInt64
  bucket_eq : Jump.bucket key n = (after key rounds).bucket.toUInt64.toUInt32
  /-- Narrowing the bucket to 32 bits does not change it. -/
  unaltered : (Jump.bucket key n).toNat = (after key rounds).bucket.toInt

end Loop

variable {key n : UInt64} {b i x : Nat}

/-- No jump goes beyond `2 ^ 31` times as many buckets. -/
theorem reach_le {successor : Nat} (h : successor < 1 <<< 53) (key : UInt64) :
    reach successor key ≤ successor * 2 ^ 31 := by
  have hsuccessor : (Rounding.nearest successor 1).num ≤
      successor <<< 0 * (Rounding.nearest successor 1).den :=
    Rounding.nearest_le Nat.one_pos h (by simp)
  have hstretch : (stretch key).num ≤ 1 <<< 31 * (stretch key).den :=
    Rounding.nearest_le (Nat.succ_pos _) (by decide) (Nat.le_mul_of_pos_right _ (Nat.succ_pos _))
  have hproduct := Scaled.mul_le hsuccessor hstretch
  rw [Nat.shiftLeft_zero, Nat.one_shiftLeft, ← Nat.shiftLeft_eq] at hproduct
  rw [← Nat.shiftLeft_eq]
  exact Scaled.floor_le (Rounding.nearest_le (Scaled.den_pos _) h hproduct)

theorem toInt_signedWord (x : Nat) : (signedWord x).toInt = min x (2 ^ 63 - 1) := by
  rw [signedWord, Int64.toInt_ofNat_of_lt (by omega)]

theorem toInt_toInt64 (hn : n.toNat ≤ 2 ^ 32) : n.toInt64.toInt = n.toNat := by
  have hlt : 2 * n.toBitVec.toNat < 2 ^ 64 := by
    change 2 * n.toNat < 2 ^ 64
    omega
  exact BitVec.toInt_eq_toNat_of_lt hlt

theorem signedWord_lt_iff (hn : n.toNat ≤ 2 ^ 32) : signedWord x < n.toInt64 ↔ x < n.toNat := by
  rw [Int64.lt_iff_toInt_lt, toInt_signedWord, toInt_toInt64 hn]
  omega

theorem signedWord_add_one (h : b < 2 ^ 32) : signedWord b + 1 = signedWord (b + 1) := by
  rw [signedWord, signedWord, Nat.min_eq_left (by omega), Nat.min_eq_left (by omega),
    Int64.ofNat_add]
  rfl

theorem toNat_toUInt64_signedWord (h : b < 2 ^ 32) : (signedWord b).toUInt64.toNat = b := by
  rw [signedWord, Nat.min_eq_left (by omega), Int64.toUInt64_ofNat', UInt64.toNat_ofNat']
  exact Nat.mod_eq_of_lt (by omega)

theorem landing_eq (h : b < 2 ^ 32) (key : UInt64) (before : Int64) :
    Loop.landing ⟨key, before, signedWord b⟩ = landing b (advance key) := by
  have hsum : (signedWord b + 1).toNatClampNeg = b + 1 := by
    rw [signedWord_add_one h, ← Int64.toNat_toInt, toInt_signedWord]
    omega
  rw [Loop.landing, hsum]
  rfl

theorem after_succ (key : UInt64) (i : Nat) :
    Loop.after key (i + 1) = (Loop.after key i).round :=
  Function.iterate_succ_apply' _ _ _

theorem bucket_after_succ (key : UInt64) (i : Nat) :
    (Loop.after key (i + 1)).bucket = (Loop.after key i).next := by
  rw [after_succ]
  rfl

/-- The loop follows the trail of the key. -/
theorem after_eq (h : ∀ k < i, (trail key k).2 < 2 ^ 32) : ∃ before,
    Loop.after key i = ⟨(trail key i).1, before, signedWord (trail key i).2⟩ := by
  induction i with
  | zero => exact ⟨-1, rfl⟩
  | succ i ih =>
    obtain ⟨before, heq⟩ := ih fun k hk => h k (Nat.lt_succ_of_lt hk)
    refine ⟨signedWord (trail key i).2, ?_⟩
    rw [after_succ, heq, Loop.round, landing_eq (h i (Nat.lt_succ_self i))]
    rfl

theorem next_after (h : ∀ k < i, (trail key k).2 < 2 ^ 32) :
    (Loop.after key i).next = signedWord (trail key i).2 := by
  obtain ⟨before, heq⟩ := after_eq h
  rw [heq]

theorem landing_after (h : ∀ k ≤ i, (trail key k).2 < 2 ^ 32) :
    (Loop.after key i).landing = (trail key (i + 1)).2 := by
  obtain ⟨before, heq⟩ := after_eq fun k hk => h k (Nat.le_of_lt hk)
  rw [heq, landing_eq (h i (Nat.le_refl i))]
  rfl

theorem trail_succ_le (h : (trail key i).2 < 2 ^ 32) :
    (trail key (i + 1)).2 ≤ ((trail key i).2 + 1) * 2 ^ 31 :=
  reach_le (Nat.lt_of_le_of_lt h (by decide)) _

/-- The only landing that is no signed word is the last one from the last of `2 ^ 32` buckets. -/
theorem trail_of_far {last : Nat} (hn : n.toNat ≤ 2 ^ 32) (hlast : LastBelow key n.toNat last)
    (hi : i ≤ last) (hfar : 2 ^ 63 ≤ (trail key (i + 1)).2) :
    n.toNat = 2 ^ 32 ∧ (trail key (i + 1)).2 = 2 ^ 63 ∧ i = last := by
  have hbucket := hlast.below i hi
  have hle := trail_succ_le (Nat.lt_of_lt_of_le hbucket hn)
  refine ⟨by omega, by omega, ?_⟩
  by_contra hne
  have hnext := hlast.below (i + 1) (by omega)
  omega

theorem ends_of_lastBelow {last : Nat} (hn : n.toNat ≤ 2 ^ 32)
    (hlast : LastBelow key n.toNat last) (hbucket : (bucket key n).toNat = (trail key last).2) :
    Loop.Ends key n (last + 1) := by
  have hbelow : ∀ k < last + 1, (trail key k).2 < 2 ^ 32 := fun k hk =>
    Nat.lt_of_lt_of_le (hlast.below k (Nat.le_of_lt_succ hk)) hn
  have hnext : ∀ i ≤ last + 1, (Loop.after key i).next = signedWord (trail key i).2 :=
    fun i hi => next_after fun k hk => hbelow k (Nat.lt_of_lt_of_le hk hi)
  have hlanding : ∀ i < last + 1, (Loop.after key i).landing = (trail key (i + 1)).2 :=
    fun i hi => landing_after fun k hk => hbelow k (Nat.lt_of_le_of_lt hk hi)
  have hlt : (trail key last).2 < n.toNat := hlast.below last (Nat.le_refl last)
  have hreached : (Loop.after key (last + 1)).bucket = signedWord (trail key last).2 := by
    rw [bucket_after_succ, hnext last (Nat.le_succ last)]
  have hvalue : (signedWord (trail key last).2).toInt = (bucket key n).toNat := by
    rw [toInt_signedWord, hbucket]
    omega
  constructor
  case count_eq => exact toInt_toInt64 hn
  case goes_on =>
    intro i hi
    rw [hnext i (Nat.le_of_lt hi), signedWord_lt_iff hn]
    exact hlast.below i (Nat.le_of_lt_succ hi)
  case is_left =>
    rw [hnext _ (Nat.le_refl _), signedWord_lt_iff hn]
    exact Nat.not_lt.2 hlast.beyond
  case ascends =>
    intro i hi
    have hsmall := hbelow i hi
    have hstep : (trail key i).2 < (trail key (i + 1)).2 :=
      trail_lt_succ (Nat.lt_trans hsmall (by decide))
    rw [bucket_after_succ, hnext i (Nat.le_of_lt hi), hnext (i + 1) hi, Int64.lt_iff_toInt_lt,
      toInt_signedWord, toInt_signedWord]
    omega
  case fits =>
    intro i hi
    have hsmall := hbelow i hi
    rw [hnext i (Nat.le_of_lt hi), signedWord_add_one hsmall, toInt_signedWord, toInt_signedWord]
    omega
  case converts =>
    intro i hi hword
    rw [hlanding i hi] at hword ⊢
    rw [hnext (i + 1) hi, toInt_signedWord]
    omega
  case saturates =>
    intro i hi hfar
    rw [hlanding i hi] at hfar ⊢
    obtain ⟨hcount, heq, rfl⟩ := trail_of_far hn hlast (Nat.le_of_lt_succ hi) hfar
    rw [hnext (i + 1) hi, toInt_signedWord, heq]
    exact ⟨hcount, rfl, rfl, rfl⟩
  case nonneg =>
    rw [hreached, Int64.le_iff_toInt_le, hvalue]
    exact Int.natCast_nonneg _
  case in_range =>
    rw [hreached, signedWord_lt_iff hn]
    exact hlt
  case bucket_eq =>
    apply UInt32.toNat_inj.1
    rw [hreached, UInt64.toNat_toUInt32, toNat_toUInt64_signedWord (hlt.trans_le hn), ← hbucket]
    exact (Nat.mod_eq_of_lt (bucket key n).toNat_lt).symm
  case unaltered => rw [hreached, hvalue]

/-- Among fewer than `2 ^ 32` buckets every landing is a signed word. -/
theorem Loop.Ends.next_eq_landing {rounds : Nat} (h : Loop.Ends key n rounds)
    (hn : n.toNat < 2 ^ 32) (hi : i < rounds) :
    (Loop.after key (i + 1)).next.toInt = (Loop.after key i).landing := by
  apply h.converts i hi
  by_contra hfar
  have heq := (h.saturates i hi (Nat.le_of_not_lt hfar)).1
  omega

end Jump

namespace Placement

/-- Whatever function hashes the bytes of keys, the loop that finds a segment is left after at most
as many rounds as there are segments, and the segment is one of them. -/
theorem segments_found_in_time :
    (∀ key n : UInt64, 2 ≤ n → n.toNat ≤ 2 ^ 32 →
      ∃ rounds ≤ n.toNat, Jump.Loop.Ends key n rounds) ∧
    ∀ n : UInt64,
      (∀ hash values families, (segmentBy hash values families n).toNat < max 1 n.toNat) ∧
      (∀ values families, (segment values families n).toNat < max 1 n.toNat) ∧
      (fallback n).toNat < max 1 n.toNat := by
  refine ⟨?_, fun n => ⟨fun _ _ _ => Jump.bucket_lt _ _, fun _ _ => Jump.bucket_lt _ _,
    Jump.bucket_lt _ _⟩⟩
  intro key n htwo hn
  rw [UInt64.le_iff_toNat_le] at htwo
  obtain ⟨last, hlast, hbucket⟩ :=
    Jump.exists_bucket_eq key (Nat.lt_of_lt_of_le Nat.zero_lt_two htwo) hn
  refine ⟨last + 1, ?_, Jump.ends_of_lastBelow hn hlast hbucket⟩
  -- each of the jumps up to the last one goes at least one bucket further
  calc last + 1 ≤ (Jump.trail key last).2 + 1 := Nat.succ_le_succ (Jump.le_trail fun k hk =>
        Nat.lt_of_lt_of_le (hlast.below k (Nat.le_of_lt hk)) (Nat.le_trans hn (by decide)))
    _ ≤ n.toNat := hlast.below last (Nat.le_refl last)

/-- The last of these jumps lands on the first number that is not a signed word. -/
theorem farthest_jump_ends :
    (2 : UInt64) ≤ 0x100000000 ∧ (0x100000000 : UInt64).toNat ≤ 2 ^ 32 ∧
    (∃ rounds ≤ (0x100000000 : UInt64).toNat,
      Jump.Loop.Ends 10964528889825041465 0x100000000 rounds) ∧
    (Jump.Loop.after 10964528889825041465 10).landing = 2 ^ 63 ∧
    Jump.bucket 10964528889825041465 0x100000000 = 0xffffffff :=
  ⟨by decide, by decide, segments_found_in_time.1 _ _ (by decide) (by decide),
    by decide +kernel, by decide +kernel⟩

/-- This is the key of a row, and no number of rounds leaves the loop with each landing converted to
itself. -/
theorem farthest_landing_saturates :
    let key : UInt64 := 10964528889825041465
    let n : UInt64 := 0x100000000
    2 ≤ n ∧ n.toNat ≤ 2 ^ 32 ∧
    [(Scalar.int 6120750333138904401, HashFamily.integer)].foldl (fold Xxh3.hash) 0 = key ∧
    (Jump.Loop.after key 10).next < n.toInt64 ∧ (Jump.Loop.after key 10).landing = 2 ^ 63 ∧
    (Jump.Loop.after key 11).next.toInt = 2 ^ 63 - 1 ∧
    ¬∃ rounds, ¬(Jump.Loop.after key rounds).next < n.toInt64 ∧
      ∀ i < rounds, (Jump.Loop.after key (i + 1)).next.toInt = (Jump.Loop.after key i).landing := by
  intro key n
  have hlanding : (Jump.Loop.after key 10).landing = 2 ^ 63 := by decide +kernel
  have hnext : (Jump.Loop.after key 11).next.toInt = 2 ^ 63 - 1 := by decide +kernel
  have hgoes : ∀ i < 11, (Jump.Loop.after key i).next < n.toInt64 := by decide +kernel
  refine ⟨by decide, by decide, by decide +kernel, hgoes 10 (by decide), hlanding, hnext, ?_⟩
  rintro ⟨rounds, hleft, hconverts⟩
  have hrounds : 10 < rounds := by
    by_contra hle
    exact hleft (hgoes rounds (by omega))
  have heq := hconverts 10 hrounds
  rw [hlanding, hnext] at heq
  exact absurd heq (by decide)

end Placement
end SliceDispatch
