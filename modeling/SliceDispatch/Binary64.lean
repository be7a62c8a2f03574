import SliceDispatch.Rounding

namespace SliceDispatch

structure Binary64 where
  bits : UInt64
deriving DecidableEq, Inhabited

namespace Binary64

def zero : Binary64 := ⟨0⟩

def negZero : Binary64 := ⟨0x8000000000000000⟩

def quietNaN : Binary64 := ⟨0x7ff8000000000000⟩

def isNegative (x : Binary64) : Bool := 0x8000000000000000 ≤ x.bits.toNat

def exponentField (x : Binary64) : Nat := (x.bits.toNat >>> 52) % 2048

def fractionField (x : Binary64) : Nat := x.bits.toNat % 0x10000000000000

def isNaN (x : Binary64) : Bool := x.exponentField == 2047 && x.fractionField != 0

def isInfinite (x : Binary64) : Bool := x.exponentField == 2047 && x.fractionField == 0

def isZero (x : Binary64) : Bool := x.exponentField == 0 && x.fractionField == 0

def magnitude (x : Binary64) : Scaled :=
  if x.exponentField = 0 then ⟨x.fractionField, Rounding.lowestPlace⟩
  else ⟨0x10000000000000 + x.fractionField, x.exponentField - 1 + Rounding.lowestPlace⟩

/-- Equality of numbers: all NaNs are one, and so are the two zeros. -/
def same (x y : Binary64) : Bool :=
  (x.isNaN && y.isNaN) || (x.isZero && y.isZero) || x.bits == y.bits

instance : BEq Binary64 := ⟨same⟩

def canonical (x : Binary64) : Binary64 :=
  if x.isZero then zero else if x.isNaN then quietNaN else x

theorem isNaN_eq_false_of_isZero {x : Binary64} (h : x.isZero) : x.isNaN = false := by
  simp [isZero, isNaN] at h ⊢
  omega

theorem isZero_canonical (x : Binary64) : x.canonical.isZero = x.isZero := by
  simp only [canonical]
  split
  · rename_i h
    rw [h]
    rfl
  · split
    · rename_i h _
      simp only [Bool.not_eq_true] at h
      rw [h]
      rfl
    · rfl

theorem isNaN_canonical (x : Binary64) : x.canonical.isNaN = x.isNaN := by
  simp only [canonical]
  split
  · rename_i h
    rw [isNaN_eq_false_of_isZero h]
    rfl
  · split
    · rename_i h
      rw [h]
      rfl
    · rfl

theorem same_iff_canonical_eq {x y : Binary64} : x.same y ↔ x.canonical = y.canonical := by
  constructor
  · intro h
    simp only [same, Bool.or_eq_true, Bool.and_eq_true, beq_iff_eq] at h
    rcases h with (⟨hx, hy⟩ | ⟨hx, hy⟩) | h
    · have zx : x.isZero = false := by
        cases hz : x.isZero
        · rfl
        · simp [isNaN_eq_false_of_isZero hz] at hx
      have zy : y.isZero = false := by
        cases hz : y.isZero
        · rfl
        · simp [isNaN_eq_false_of_isZero hz] at hy
      simp [canonical, hx, hy, zx, zy]
    · simp [canonical, hx, hy]
    · cases x; cases y; simp_all
  · intro h
    have hz : x.isZero = y.isZero := by rw [← isZero_canonical x, h, isZero_canonical]
    have hn : x.isNaN = y.isNaN := by rw [← isNaN_canonical x, h, isNaN_canonical]
    cases zy : y.isZero <;> cases ny : y.isNaN <;> simp_all [same, canonical]

theorem canonical_canonical (x : Binary64) : x.canonical.canonical = x.canonical := by
  simp only [canonical]
  split
  · rfl
  · split
    · rfl
    · simp_all

/-- The number nearest `num / den` with the given sign, unless it is out of range. -/
def ofFraction? (negative : Bool) (num den : Nat) : Option Binary64 :=
  let x := Rounding.nearest num den
  let field := ((x.exponent - Rounding.lowestPlace).toNat <<< 52) + x.mantissa
  if field < 0x7ff0000000000000 then
    some ⟨.ofNat (if negative then 0x8000000000000000 + field else field)⟩
  else none

/-- The number nearest `digits * 10 ^ exponent`; far exponents are decided by the count of digits. -/
def ofDecimal? (negative : Bool) (digits : Nat) (exponent : Int) : Option Binary64 :=
  let top := exponent + digits.log2 / 3
  if digits = 0 ∨ top < -400 then ofFraction? negative 0 1
  else if 400 < exponent then none
  else ofFraction? negative (digits * Nat.pow 10 exponent.toNat) (Nat.pow 10 (-exponent).toNat)

def ofInt (value : Int) : Binary64 := (ofFraction? (value < 0) value.natAbs 1).getD quietNaN

end Binary64
end SliceDispatch
