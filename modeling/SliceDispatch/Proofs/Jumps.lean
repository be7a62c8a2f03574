import SliceDispatch.Proofs.KeyHash

namespace SliceDispatch

namespace Jump

variable {key : UInt64} {i j last n m : Nat}

theorem follow_lt {n bucket : Nat} (h : bucket < n) (jumps : Nat) (key : UInt64) :
    follow n jumps key bucket < n := by
  induction jumps generalizing key bucket with
  | zero => exact h
  | succ jumps ih =>
    rw [follow]
    split
    · rename_i hnext
      exact ih hnext _
    · exact h

/-- The bucket is in range, also where narrowing it to 32 bits drops some of its bits. -/
theorem bucket_lt (key n : UInt64) : (bucket key n).toNat < max 1 n.toNat := by
  unfold bucket
  split
  · exact Nat.lt_of_lt_of_le Nat.zero_lt_one (Nat.le_max_left _ _)
  split
  · rename_i hlarge
    calc (0xffffffff : UInt32).toNat < 0x8000000000000000 := by decide
      _ ≤ max 1 n.toNat := Nat.le_trans hlarge (Nat.le_max_right _ _)
  · rename_i hone _
    have hpos : 0 < n.toNat := by
      rw [UInt64.le_iff_toNat_le] at hone
      exact Nat.lt_of_le_of_lt (Nat.zero_le _) (Nat.lt_of_not_le hone)
    calc (UInt32.ofNat (follow n.toNat n.toNat key 0)).toNat
        ≤ follow n.toNat n.toNat key 0 := Nat.mod_le _ _
      _ < n.toNat := follow_lt hpos _ _
      _ ≤ max 1 n.toNat := Nat.le_max_right _ _

example : bucket 7 0x8000000000000000 = 0xffffffff ∧ bucket 7 0 = 0 := by decide

/-- The generator's state and the bucket after so many jumps. -/
def trail (key : UInt64) : Nat → UInt64 × Nat
  | 0 => (key, 0)
  | jumps + 1 =>
    let (key, bucket) := trail key jumps
    (advance key, landing bucket (advance key))

/-- The jumps up to `last` are those that land below `n`. -/
structure LastBelow (key : UInt64) (n last : Nat) : Prop where
  below : ∀ i ≤ last, (trail key i).2 < n
  beyond : n ≤ (trail key (last + 1)).2

theorem trail_lt_succ (h : (trail key i).2 < 1 <<< 53) :
    (trail key i).2 < (trail key (i + 1)).2 :=
  lt_landing h _

theorem trail_lt_trail (h : ∀ k < j, (trail key k).2 < 1 <<< 53) (hij : i < j) :
    (trail key i).2 < (trail key j).2 := by
  induction j with
  | zero => exact absurd hij (Nat.not_lt_zero i)
  | succ j ih =>
    have hstep : (trail key j).2 < (trail key (j + 1)).2 := trail_lt_succ (h j (Nat.lt_succ_self j))
    rcases Nat.lt_succ_iff_lt_or_eq.1 hij with hlt | rfl
    · exact Nat.lt_trans (ih (fun k hk => h k (Nat.lt_succ_of_lt hk)) hlt) hstep
    · exact hstep

/-- There are no more jumps below a bucket than buckets. -/
theorem le_trail (h : ∀ k < j, (trail key k).2 < 1 <<< 53) : j ≤ (trail key j).2 := by
  induction j with
  | zero => exact Nat.zero_le _
  | succ j ih =>
    calc j + 1 ≤ (trail key j).2 + 1 :=
          Nat.succ_le_succ (ih fun k hk => h k (Nat.lt_succ_of_lt hk))
      _ ≤ (trail key (j + 1)).2 := trail_lt_succ (h j (Nat.lt_succ_self j))

/-- Following the jumps ends at the last one below `n`, if there are enough jumps left to get there
one bucket at a time. -/
theorem exists_follow_eq (hn : n ≤ 1 <<< 53) {jumps : Nat} (hbelow : ∀ k ≤ i, (trail key k).2 < n)
    (hjumps : n ≤ (trail key i).2 + jumps) : ∃ last, LastBelow key n last ∧
      follow n jumps (trail key i).1 (trail key i).2 = (trail key last).2 := by
  induction jumps generalizing i with
  | zero => exact absurd (hbelow i (Nat.le_refl i)) (Nat.not_lt.2 hjumps)
  | succ jumps ih =>
    by_cases hnext : (trail key (i + 1)).2 < n
    · have hbelow' : ∀ k ≤ i + 1, (trail key k).2 < n := by
        intro k hk
        rcases Nat.le_succ_iff.1 hk with hk | rfl
        · exact hbelow k hk
        · exact hnext
      have hstep : (trail key i).2 < (trail key (i + 1)).2 :=
        trail_lt_succ (Nat.lt_of_lt_of_le (hbelow i (Nat.le_refl i)) hn)
      obtain ⟨last, hlast, heq⟩ := ih hbelow' (by omega)
      exact ⟨last, hlast, (if_pos hnext).trans heq⟩
    · exact ⟨i, ⟨hbelow, Nat.le_of_not_lt hnext⟩, if_neg hnext⟩

/-- The bucket of a key among few enough buckets is the last one on its trail. -/
theorem exists_bucket_eq (key : UInt64) {n : UInt64} (hpos : 0 < n.toNat)
    (hn : n.toNat ≤ 2 ^ 32) :
    ∃ last, LastBelow key n.toNat last ∧ (bucket key n).toNat = (trail key last).2 := by
  have hstart : ∀ k ≤ 0, (trail key k).2 < n.toNat := by
    intro k hk
    rwa [Nat.le_zero.1 hk]
  have hsmall : n.toNat ≤ 1 <<< 53 := Nat.le_trans hn (by decide)
  obtain ⟨last, hlast, heq⟩ := exists_follow_eq hsmall hstart (Nat.le_add_left _ _)
  refine ⟨last, hlast, ?_⟩
  have hlt : (trail key last).2 < 2 ^ 32 := Nat.lt_of_lt_of_le (hlast.below last (Nat.le_refl _)) hn
  unfold bucket
  split
  · -- the only bucket is the first one
    rename_i hone
    rw [UInt64.le_iff_toNat_le] at hone
    have hzero : (trail key last).2 < 1 := Nat.lt_of_lt_of_le (hlast.below last (Nat.le_refl _)) hone
    exact (Nat.lt_one_iff.1 hzero).symm
  split
  · omega
  · change follow n.toNat n.toNat (trail key 0).1 (trail key 0).2 % 2 ^ 32 = _
    rw [heq, Nat.mod_eq_of_lt hlt]

/-- When buckets are added, a key stays or moves to one of those added. -/
theorem bucket_eq_or_le (key : UInt64) {n m : UInt64} (hnm : n ≤ m) (hm : m.toNat ≤ 2 ^ 32) :
    bucket key m = bucket key n ∨ n.toNat ≤ (bucket key m).toNat := by
  rw [UInt64.le_iff_toNat_le] at hnm
  rcases Nat.eq_zero_or_pos n.toNat with hzero | hpos
  · exact .inr (hzero ▸ Nat.zero_le _)
  obtain ⟨i, hi, hbi⟩ := exists_bucket_eq key hpos (Nat.le_trans hnm hm)
  obtain ⟨j, hj, hbj⟩ := exists_bucket_eq key (Nat.lt_of_lt_of_le hpos hnm) hm
  have hsmall : ∀ k ≤ j, (trail key k).2 < 1 <<< 53 := fun k hk =>
    Nat.lt_of_lt_of_le (hj.below k hk) (Nat.le_trans hm (by decide))
  rcases Nat.lt_trichotomy j i with hlt | rfl | hlt
  · -- the jump after `j` lands below `n`, so it is not beyond `m`
    exact absurd (Nat.le_trans hnm hj.beyond) (Nat.not_le.2 (hi.below _ hlt))
  · exact .inl (UInt32.toNat_inj.1 (hbj.trans hbi.symm))
  · right
    rw [hbj]
    rcases Nat.lt_or_eq_of_le (Nat.succ_le_of_lt hlt) with hlt | rfl
    · exact Nat.le_trans hi.beyond
        (Nat.le_of_lt (trail_lt_trail (fun k hk => hsmall k (Nat.le_of_lt hk)) hlt))
    · exact hi.beyond

end Jump

/-- What is spread over `n` segments by `place` stays where it is when segments are added, or moves
to one of those. -/
structure GrowsInPlace (place : UInt64 → SegmentId) : Prop where
  one : ∀ n : UInt64, 1 ≤ n → n.toNat < 2 ^ 32 →
    place (n + 1) = place n ∨ (place (n + 1)).toNat = n.toNat
  many : ∀ n m : UInt64, n ≤ m → m.toNat ≤ 2 ^ 32 → place m = place n ∨ n.toNat ≤ (place m).toNat

theorem Jump.growsInPlace (key : UInt64) : GrowsInPlace (Jump.bucket key) where
  one n hone hn := by
    have hsucc : (n + 1).toNat = n.toNat + 1 := by
      rw [UInt64.toNat_add, UInt64.toNat_one]
      exact Nat.mod_eq_of_lt (by omega)
    have hle : n ≤ n + 1 := by
      rw [UInt64.le_iff_toNat_le, hsucc]
      exact Nat.le_succ _
    refine (bucket_eq_or_le key hle (by omega)).imp_right fun h => ?_
    have hlt := bucket_lt key (n + 1)
    omega
  many _ _ := bucket_eq_or_le key

namespace Placement

/-- When the cluster grows, rows stay on their segments or move to new ones, whatever function
hashes the bytes of their keys, and so do slices without rows. -/
theorem segments_grow_in_place :
    (∀ hash values families, GrowsInPlace (segmentBy hash values families)) ∧
      (∀ values families, GrowsInPlace (segment values families)) ∧ GrowsInPlace fallback :=
  ⟨fun _ _ _ => Jump.growsInPlace _, fun _ _ => Jump.growsInPlace _, Jump.growsInPlace _⟩

end Placement
end SliceDispatch
