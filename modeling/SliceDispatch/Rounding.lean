namespace SliceDispatch

/-- The number `mantissa * 2 ^ exponent`. -/
structure Scaled where
  mantissa : Nat
  exponent : Int
deriving DecidableEq

namespace Scaled

/-- Numerator and denominator of a fraction with the value of `x`. -/
def num (x : Scaled) : Nat := x.mantissa <<< x.exponent.toNat

def den (x : Scaled) : Nat := 1 <<< (-x.exponent).toNat

def floor (x : Scaled) : Nat := x.num / x.den

def mul (x y : Scaled) : Scaled := ⟨x.mantissa * y.mantissa, x.exponent + y.exponent⟩

theorem den_pos (x : Scaled) : 0 < x.den := by
  rw [den, Nat.one_shiftLeft]
  exact Nat.two_pow_pos _

theorem num_mul_num (x y : Scaled) :
    x.num * y.num * (x.mul y).den = (x.mul y).num * (x.den * y.den) := by
  simp only [num, den, mul, Nat.shiftLeft_eq, Nat.one_mul]
  have e : (2 ^ x.exponent.toNat * 2 ^ y.exponent.toNat * 2 ^ (-(x.exponent + y.exponent)).toNat : Nat)
      = 2 ^ (x.exponent + y.exponent).toNat * (2 ^ (-x.exponent).toNat * 2 ^ (-y.exponent).toNat) := by
    simp only [← Nat.pow_add]; congr 1; omega
  calc x.mantissa * 2 ^ x.exponent.toNat * (y.mantissa * 2 ^ y.exponent.toNat) *
        2 ^ (-(x.exponent + y.exponent)).toNat
      = x.mantissa * y.mantissa * (2 ^ x.exponent.toNat * 2 ^ y.exponent.toNat *
        2 ^ (-(x.exponent + y.exponent)).toNat) := by ac_rfl
    _ = _ := by rw [e]; ac_rfl

theorem le_mul {x y : Scaled} {a b : Nat} (hx : a * x.den ≤ x.num) (hy : b * y.den ≤ y.num) :
    a * b * (x.mul y).den ≤ (x.mul y).num := by
  have h : a * b * (x.mul y).den * (x.den * y.den) ≤ (x.mul y).num * (x.den * y.den) := by
    rw [← num_mul_num]
    calc a * b * (x.mul y).den * (x.den * y.den)
        = a * x.den * (b * y.den) * (x.mul y).den := by ac_rfl
      _ ≤ x.num * y.num * (x.mul y).den := Nat.mul_le_mul_right _ (Nat.mul_le_mul hx hy)
  exact Nat.le_of_mul_le_mul_right h (Nat.mul_pos x.den_pos y.den_pos)

theorem mul_le {x y : Scaled} {a b : Nat} (hx : x.num ≤ a * x.den) (hy : y.num ≤ b * y.den) :
    (x.mul y).num ≤ a * b * (x.mul y).den := by
  have h : (x.mul y).num * (x.den * y.den) ≤ a * b * (x.mul y).den * (x.den * y.den) := by
    rw [← num_mul_num]
    calc x.num * y.num * (x.mul y).den
        ≤ a * x.den * (b * y.den) * (x.mul y).den :=
          Nat.mul_le_mul_right _ (Nat.mul_le_mul hx hy)
      _ = a * b * (x.mul y).den * (x.den * y.den) := by ac_rfl
  exact Nat.le_of_mul_le_mul_right h (Nat.mul_pos x.den_pos y.den_pos)

theorem le_floor {x : Scaled} {k : Nat} (h : k * x.den ≤ x.num) : k ≤ x.floor :=
  (Nat.le_div_iff_mul_le x.den_pos).2 h

theorem floor_le {x : Scaled} {k : Nat} (h : x.num ≤ k * x.den) : x.floor ≤ k :=
  Nat.div_le_of_le_mul (Nat.mul_comm k x.den ▸ h)

end Scaled

namespace Rounding

/-- The whole number nearest `num / den`, a half going to the even neighbour. -/
def divNearest (num den : Nat) : Nat :=
  let below := num / den
  let twice := 2 * (num % den)
  if twice < den then below
  else if den < twice then below + 1
  else below + below % 2

/-- The largest `e` with `2 ^ e ≤ num / den`. -/
def floorLog2 (num den : Nat) : Int :=
  let e : Int := num.log2 - den.log2
  if den <<< e.toNat ≤ num <<< (-e).toNat then e else e - 1

def lowestPlace : Int := -1074

/-- Exponent of the last of the 53 places kept of `num / den`. -/
def lastPlace (num den : Nat) : Int :=
  if num = 0 then lowestPlace else max lowestPlace (floorLog2 num den - 52)

/-- The number of 53 significant bits nearest `num / den`, a half going to the even neighbour. -/
def nearest (num den : Nat) : Scaled :=
  let place := lastPlace num den
  ⟨divNearest (num <<< (-place).toNat) (den <<< place.toNat), place⟩

theorem le_divNearest {k num den : Nat} (hd : 0 < den) (h : k * den ≤ num) :
    k ≤ divNearest num den := by
  have := (Nat.le_div_iff_mul_le hd).2 h
  simp only [divNearest]
  split
  · exact this
  · split <;> omega

theorem divNearest_le {k num den : Nat} (hd : 0 < den) (h : num ≤ k * den) :
    divNearest num den ≤ k := by
  have hle : num / den ≤ k := Nat.div_le_of_le_mul (Nat.mul_comm k den ▸ h)
  rcases Nat.lt_or_eq_of_le hle with hlt | heq
  · simp only [divNearest]
    split
    · exact hle
    · split <;> omega
  · -- then nothing is left over
    have hrest : num % den = 0 := by
      have := Nat.div_add_mod num den
      rw [heq, Nat.mul_comm] at this
      omega
    simp [divNearest, hrest, hd, hle]

theorem floorLog2_le {num den : Nat} (hn : 0 < num) :
    den <<< (floorLog2 num den).toNat ≤ num <<< (-floorLog2 num den).toNat := by
  simp only [floorLog2]
  split
  · assumption
  · have h1 := Nat.log2_self_le (Nat.pos_iff_ne_zero.1 hn)
    have h2 : den < 2 ^ (den.log2 + 1) := Nat.lt_log2_self
    generalize hj : (num.log2 : Int) - den.log2 - 1 = j
    have hj' : num.log2 + (-j).toNat = den.log2 + 1 + j.toNat := by omega
    simp only [Nat.shiftLeft_eq]
    calc den * 2 ^ j.toNat ≤ 2 ^ (den.log2 + 1) * 2 ^ j.toNat :=
          Nat.mul_le_mul_right _ (Nat.le_of_lt h2)
      _ = 2 ^ num.log2 * 2 ^ (-j).toNat := by rw [← Nat.pow_add, ← Nat.pow_add, hj']
      _ ≤ num * 2 ^ (-j).toNat := Nat.mul_le_mul_right _ h1

/-- A whole number of at most 53 bits stays a lower bound when a fraction is rounded. -/
theorem le_nearest {k num den : Nat} (hd : 0 < den) (hk : k ≤ 1 <<< 53) (h : k * den ≤ num) :
    k * (nearest num den).den ≤ (nearest num den).num := by
  rcases Nat.eq_zero_or_pos num with rfl | hn
  · have : k = 0 := by
      rcases Nat.mul_eq_zero.1 (Nat.le_zero.1 h) with h | h
      · exact h
      · omega
    simp [this]
  simp only [Scaled.den, Scaled.num, nearest, Nat.shiftLeft_eq, Nat.one_mul] at hk ⊢
  by_cases hp : lastPlace num den ≤ 0
  · have h0 : (lastPlace num den).toNat = 0 := by omega
    simp only [h0, Nat.pow_zero, Nat.mul_one]
    apply le_divNearest hd
    calc k * 2 ^ (-lastPlace num den).toNat * den
        = k * den * 2 ^ (-lastPlace num den).toNat := by ac_rfl
      _ ≤ _ := Nat.mul_le_mul_right _ h
  · have h0 : (-lastPlace num den).toNat = 0 := by omega
    have hl : lastPlace num den = floorLog2 num den - 52 := by
      simp only [lastPlace, lowestPlace] at hp ⊢
      rw [if_neg (Nat.pos_iff_ne_zero.1 hn)] at hp ⊢
      omega
    have hlog := @floorLog2_le num den hn
    simp only [Nat.shiftLeft_eq] at hlog
    rw [hl] at hp h0 ⊢
    have h1 : (-floorLog2 num den).toNat = 0 := by omega
    simp only [h0, h1, Nat.pow_zero, Nat.mul_one] at hlog ⊢
    generalize hq : (floorLog2 num den - 52).toNat = q
    have hq' : (floorLog2 num den).toNat = 52 + q := by omega
    rw [hq', Nat.pow_add] at hlog
    have hm : 2 ^ 52 ≤ divNearest num (den * 2 ^ q) :=
      le_divNearest (Nat.mul_pos hd (Nat.two_pow_pos _)) (by
        calc 2 ^ 52 * (den * 2 ^ q) = den * (2 ^ 52 * 2 ^ q) := by ac_rfl
          _ ≤ num := hlog)
    have hq1 : 2 ^ 1 ≤ 2 ^ q := Nat.pow_le_pow_right (by decide) (by omega)
    calc k ≤ 2 ^ 52 * 2 ^ 1 := hk
      _ ≤ _ := Nat.mul_le_mul hm hq1

theorem lastPlace_le {m e num den : Nat} (hm : m < 1 <<< 53) (h : num ≤ m <<< e * den) :
    lastPlace num den ≤ e := by
  rw [Nat.shiftLeft_eq] at h
  unfold lastPlace lowestPlace
  split
  · omega
  rename_i hn
  have hlog := @floorLog2_le num den (Nat.pos_of_ne_zero hn)
  suffices floorLog2 num den < 53 + e by omega
  refine Int.not_le.1 fun hlarge => ?_
  obtain ⟨k, hk⟩ := Int.eq_ofNat_of_zero_le (a := floorLog2 num den - (53 + e)) (by omega)
  have hlog' : (floorLog2 num den).toNat = 53 + e + k := by omega
  have hneg : (-floorLog2 num den).toNat = 0 := by omega
  rw [hlog', hneg, Nat.shiftLeft_zero, Nat.shiftLeft_eq] at hlog
  have hden : 0 < den := by
    apply Nat.pos_of_ne_zero
    rintro rfl
    omega
  have hlt : m * 2 ^ e * den < den * 2 ^ (53 + e + k) := by
    rw [Nat.mul_comm]
    refine Nat.mul_lt_mul_of_pos_left ?_ hden
    calc m * 2 ^ e < 2 ^ 53 * 2 ^ e := Nat.mul_lt_mul_of_pos_right hm (Nat.two_pow_pos e)
      _ = 2 ^ (53 + e) := (Nat.pow_add 2 53 e).symm
      _ ≤ 2 ^ (53 + e + k) := Nat.pow_le_pow_right (by decide) (Nat.le_add_right _ k)
  omega

/-- A whole number of fewer than 53 significant bits stays an upper bound when a fraction is
rounded. -/
theorem nearest_le {m e num den : Nat} (hd : 0 < den) (hm : m < 1 <<< 53)
    (h : num ≤ m <<< e * den) : (nearest num den).num ≤ m <<< e * (nearest num den).den := by
  have hplace := lastPlace_le hm h
  simp only [Scaled.den, Scaled.num, nearest, Nat.shiftLeft_eq, Nat.one_mul] at h ⊢
  generalize lastPlace num den = place at hplace ⊢
  -- the bound in units of the last place
  have hunits : 2 ^ (e - place).toNat * 2 ^ place.toNat = 2 ^ e * 2 ^ (-place).toNat := by
    rw [← Nat.pow_add, ← Nat.pow_add]
    congr 1
    omega
  have hround : divNearest (num * 2 ^ (-place).toNat) (den * 2 ^ place.toNat) ≤
      m * 2 ^ (e - place).toNat := by
    apply divNearest_le (Nat.mul_pos hd (Nat.two_pow_pos _))
    calc num * 2 ^ (-place).toNat ≤ m * 2 ^ e * den * 2 ^ (-place).toNat :=
          Nat.mul_le_mul_right _ h
      _ = m * den * (2 ^ e * 2 ^ (-place).toNat) := by ac_rfl
      _ = m * 2 ^ (e - place).toNat * (den * 2 ^ place.toNat) := by rw [← hunits]; ac_rfl
  calc divNearest (num * 2 ^ (-place).toNat) (den * 2 ^ place.toNat) * 2 ^ place.toNat
      ≤ m * 2 ^ (e - place).toNat * 2 ^ place.toNat := Nat.mul_le_mul_right _ hround
    _ = m * 2 ^ e * 2 ^ (-place).toNat := by rw [Nat.mul_assoc, hunits, Nat.mul_assoc]

end Rounding
end SliceDispatch
