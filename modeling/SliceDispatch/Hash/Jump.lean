import SliceDispatch.Rounding

namespace SliceDispatch.Jump

def advance (key : UInt64) : UInt64 := key * 2862933555777941757 + 1

/-- How far a jump stretches: `2 ^ 31` over the draw, which is between one and `2 ^ 31`. -/
def stretch (key : UInt64) : Scaled := Rounding.nearest (1 <<< 31) ((key >>> 33).toNat + 1)

/-- Where the jump from `bucket` lands. -/
def landing (bucket : Nat) (key : UInt64) : Nat :=
  let product := (Rounding.nearest (bucket + 1) 1).mul (stretch key)
  (Rounding.nearest product.num product.den).floor

theorem one_le_stretch (key : UInt64) : 1 * (stretch key).den ≤ (stretch key).num := by
  apply Rounding.le_nearest (Nat.succ_pos _) (by decide)
  have := key.toNat_lt
  simp [Nat.shiftRight_eq_div_pow]
  omega

theorem lt_landing {bucket : Nat} (h : bucket < 1 <<< 53) (key : UInt64) :
    bucket < landing bucket key := by
  have h1 : (bucket + 1) * (Rounding.nearest (bucket + 1) 1).den ≤
      (Rounding.nearest (bucket + 1) 1).num := Rounding.le_nearest (by decide) h (by simp)
  have h2 := Scaled.le_mul h1 (one_le_stretch key)
  exact Scaled.le_floor (Rounding.le_nearest (Scaled.den_pos _) h (by simpa using h2))

/-- Jumps on from `bucket` while the landing is below `n`, at most `jumps` times. -/
def follow (n : Nat) : Nat → UInt64 → Nat → Nat
  | 0, _, bucket => bucket
  | jumps + 1, key, bucket =>
    let key := advance key
    let next := landing bucket key
    if next < n then follow n jumps key next else bucket

/-- The bucket of `key`. A count that needs 64 bits is negative as a signed word, so that no jump is
made and the bucket is all ones. -/
def bucket (key : UInt64) (n : UInt64) : UInt32 :=
  if n ≤ 1 then 0
  else if 0x8000000000000000 ≤ n.toNat then 0xffffffff
  else UInt32.ofNat (follow n.toNat n.toNat key 0)

end SliceDispatch.Jump
