import SliceDispatch.Binary64

namespace SliceDispatch

/-- The number `digits * 10 ^ exponent`. -/
structure Decimal where
  digits : Nat
  exponent : Int
deriving DecidableEq

namespace Decimal

/-- The numbers that round to `mantissa * 2 ^ exponent`, in quarters of its last place. -/
structure Interval where
  lower : Nat
  middle : Nat
  upper : Nat
  closed : Bool

/-- Below a power of two the neighbour is half as far as above it. -/
def interval (x : Scaled) : Interval :=
  let near := x.mantissa == 0x10000000000000 && x.exponent != Rounding.lowestPlace
  ⟨4 * x.mantissa - (if near then 1 else 2), 4 * x.mantissa, 4 * x.mantissa + 2,
    x.mantissa % 2 == 0⟩

def Interval.contains (i : Interval) (num den : Nat) : Bool :=
  if i.closed then i.lower * den ≤ num && num ≤ i.upper * den
  else i.lower * den < num && num < i.upper * den

/-- The better neighbour of `x` among the multiples of `10 ^ exponent`, if one rounds to `x`; of two
equally near ones the larger. -/
def onGrid? (x : Scaled) (exponent : Int) : Option Decimal :=
  let i := interval x
  let quarter := x.exponent - 2
  let step := Nat.pow 10 exponent.toNat <<< (-quarter).toNat
  let unit := Nat.pow 10 (-exponent).toNat <<< quarter.toNat
  let below := i.middle * unit / step
  let above := below + 1
  let belowFits := i.contains (below * step) unit
  let aboveFits := i.contains (above * step) unit
  let belowNearer := i.middle * unit - below * step < above * step - i.middle * unit
  if belowFits && (belowNearer || !aboveFits) then some ⟨below, exponent⟩
  else if aboveFits then some ⟨above, exponent⟩
  else none

def firstOnGrid (x : Scaled) : Nat → Int → Decimal
  | 0, exponent => ⟨0, exponent⟩
  | grids + 1, exponent => (onGrid? x exponent).getD (firstOnGrid x grids (exponent - 1))

/-- The shortest decimal that rounds to `x`, which is not zero. The search starts above `x`, and
seventeen digits always suffice. -/
def shortest (x : Scaled) : Decimal :=
  firstOnGrid x 20 ((x.exponent + x.mantissa.log2 + 1) * 30103 / 100000 + 1)

/-- Positional notation, with a point only before a fraction. -/
def render (d : Decimal) : String :=
  let digits := (Nat.toDigits 10 d.digits)
  if 0 ≤ d.exponent then String.ofList (digits ++ List.replicate d.exponent.toNat '0')
  else
    let places := (-d.exponent).toNat
    let padded := List.replicate (places + 1 - digits.length) '0' ++ digits
    let whole := padded.length - places
    String.ofList (padded.take whole ++ '.' :: padded.drop whole)

end Decimal

def Binary64.render (x : Binary64) : String :=
  if x.isNaN then "NaN"
  else
    let size := if x.isInfinite then "inf"
      else if x.isZero then "0"
      else (Decimal.shortest x.magnitude).render
    if x.isNegative then "-" ++ size else size

end SliceDispatch
