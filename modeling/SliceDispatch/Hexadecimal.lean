namespace SliceDispatch.Hexadecimal

def digit (n : Nat) : Char := if n < 10 then Char.ofNat (48 + n) else Char.ofNat (87 + n)

/-- The number of a digit in either case. -/
def value? (c : Char) : Option Nat :=
  if '0' ≤ c ∧ c ≤ '9' then some (c.toNat - 48)
  else if 'a' ≤ c ∧ c ≤ 'f' then some (c.toNat - 87)
  else if 'A' ≤ c ∧ c ≤ 'F' then some (c.toNat - 55)
  else none

def digits : Nat → Nat → List Char
  | 0, _ => []
  | count + 1, n => digits count (n / 16) ++ [digit (n % 16)]

def number? (cs : List Char) : Option Nat :=
  cs.foldlM (fun n c => (value? c).map (16 * n + ·)) 0

def ofWord (word : UInt64) : String := String.ofList (digits 16 word.toNat)

def word? (text : String) : Option UInt64 :=
  if text.length = 16 then (number? text.toList).map .ofNat else none

theorem value?_digit {n : Nat} (h : n < 16) : value? (digit n) = some n := by
  revert n; decide

theorem length_digits (count n : Nat) : (digits count n).length = count := by
  induction count generalizing n with
  | zero => rfl
  | succ count ih => simp [digits, ih]

theorem number?_digits (count n : Nat) (h : n < Nat.pow 16 count) :
    number? (digits count n) = some n := by
  induction count generalizing n with
  | zero => simp at h; simp [digits, number?, h]
  | succ count ih =>
    have hn : n / 16 < Nat.pow 16 count := Nat.div_lt_of_lt_mul (by rwa [Nat.mul_comm])
    have hd : n % 16 < 16 := Nat.mod_lt _ (by decide)
    have := ih (n / 16) hn
    simp only [number?] at this
    simp only [number?, digits, List.foldlM_append, this]
    simp [value?_digit hd]
    omega

theorem word?_ofWord (word : UInt64) : word? (ofWord word) = some word := by
  have h := number?_digits 16 word.toNat word.toNat_lt
  simp [word?, ofWord, length_digits, h]

end SliceDispatch.Hexadecimal
