import SliceDispatch.Proofs.Executability

namespace SliceDispatch

/-- The numbers that the runs of digits in a text spell. -/
def numbersIn (cs : List Char) : List Nat :=
  ((cs.splitOnP (!·.isDigit)).filter (!·.isEmpty)).map (Nat.ofDigitChars 10 · 0)

section Numbers

variable {cs ds : List Char} {m n : Nat}

theorem numbersIn_cons {c : Char} (h : c.isDigit = false) (cs : List Char) :
    numbersIn (c :: cs) = numbersIn cs := by
  simp [numbersIn, List.splitOnP_cons_eq_if_modifyHead, h]

theorem numbersIn_append (h : ds.any Char.isDigit = false) (cs : List Char) :
    numbersIn (ds ++ cs) = numbersIn cs := by
  induction ds with
  | nil => rfl
  | cons d ds ih =>
    rw [List.any_cons, Bool.or_eq_false_iff] at h
    rw [List.cons_append, numbersIn_cons h.1, ih h.2]

/-- The digits of a number are read as the number if no digit follows them. -/
theorem numbersIn_toDigits_append (h : ∀ c ∈ cs.head?, c.isDigit = false) :
    numbersIn (Nat.toDigits 10 n ++ cs) = n :: numbersIn cs := by
  have hdigits : ∀ c ∈ Nat.toDigits 10 n, (!c.isDigit) = false := fun c hc => by
    simp [Nat.isDigit_of_mem_toDigits (by decide) (by decide) hc]
  cases cs with
  | nil =>
    rw [List.append_nil, numbersIn, List.splitOnP_eq_singleton hdigits]
    simp [numbersIn]
  | cons c cs =>
    have hc : c.isDigit = false := h c rfl
    rw [numbersIn_cons hc, numbersIn,
      List.splitOnP_append_cons_of_forall_mem hdigits c (by simp [hc])]
    simp [numbersIn]

/-- Two texts that begin with a number are the same only if the numbers are and what follows them
is. -/
theorem toDigits_append_inj (hc : ∀ c ∈ cs.head?, c.isDigit = false)
    (hd : ∀ c ∈ ds.head?, c.isDigit = false)
    (h : Nat.toDigits 10 m ++ cs = Nat.toDigits 10 n ++ ds) : m = n ∧ cs = ds := by
  have hnumbers := congrArg numbersIn h
  rw [numbersIn_toDigits_append hc, numbersIn_toDigits_append hd] at hnumbers
  obtain rfl := (List.cons.inj hnumbers).1
  exact ⟨rfl, List.append_cancel_left h⟩

theorem numbersIn_intercalate (ns : List Nat) (h : ∀ c ∈ cs.head?, c.isDigit = false) :
    numbersIn ([',', ' '].intercalate (ns.map (Nat.toDigits 10)) ++ cs) = ns ++ numbersIn cs := by
  induction ns with
  | nil => rfl
  | cons n ns ih =>
    cases ns with
    | nil => simpa using numbersIn_toDigits_append h
    | cons m ns =>
      -- the comma ends the first number, and the blank after it begins none
      rw [List.map_cons, List.map_cons, List.intercalate_cons_cons, List.append_assoc,
        List.append_assoc, numbersIn_toDigits_append (by simp), numbersIn_append (by decide)]
      exact congrArg (n :: ·) ih

end Numbers

namespace NodeId

def ofText? (text : String) : Option NodeId :=
  (numbersIn text.toList).head?.map fun n => ⟨.ofNat n⟩

theorem render_append_inj {a b : NodeId} {s t : String}
    (hs : ∀ c ∈ s.toList.head?, c.isDigit = false) (ht : ∀ c ∈ t.toList.head?, c.isDigit = false)
    (h : a.render ++ s = b.render ++ t) : a = b ∧ s = t := by
  have hlists : Nat.toDigits 10 a.index.toNat ++ s.toList =
      Nat.toDigits 10 b.index.toNat ++ t.toList := by
    simpa [render] using congrArg String.toList h
  obtain ⟨hindex, hrest⟩ := toDigits_append_inj hs ht hlists
  exact ⟨congrArg mk (UInt32.toNat_inj.1 hindex), String.toList_inj.1 hrest⟩

end NodeId

namespace Decision

/-- The decision that a text shows. -/
def ofText (text : String) : Decision :=
  if text = "full" then .full
  else if text = "any" then .noRows
  else .exactly ((numbersIn text.toList).map UInt32.ofNat)

theorem ofText_renderSegments (known : SegmentSet) :
    ofText (renderSegments known) = ⟨true, some known⟩ := by
  have hne : ∀ text : String, text.toList.head? ≠ some 's' → renderSegments known ≠ text := by
    rintro text hhead rfl
    exact hhead (by simp [renderSegments])
  have hnumbers : numbersIn (renderSegments known).toList = known.toList.map UInt32.toNat := by
    have h := @numbersIn_intercalate [']'] (known.toList.map UInt32.toNat) (by simp)
    have hshown : (renderSegments known).toList = "segments [".toList ++
        ([',', ' '].intercalate ((known.toList.map UInt32.toNat).map (Nat.toDigits 10)) ++
          [']']) := by
      simp [renderSegments, String.toList_intercalate, Function.comp_def]
    rw [hshown, numbersIn_append (by decide), h]
    exact List.append_nil _
  have hids : (known.toList.map UInt32.toNat).map UInt32.ofNat = known.toList := by
    simp [Function.comp_def]
  rw [ofText, if_neg (hne _ (by decide)), if_neg (hne _ (by decide)), hnumbers, hids, exactly]
  congr 2
  apply Std.ExtTreeSet.ext_mem
  intro i
  rw [mem_ofList, Std.ExtTreeSet.mem_toList]

/-- A decision is read back from its text, but for the set of one that is full. -/
theorem ofText_render (d : Decision) : ofText d.render = if d.isFull then .full else d := by
  obtain ⟨direct, segments⟩ := d
  cases direct with
  | false => rfl
  | true =>
    cases segments with
    | none => rfl
    | some known => exact ofText_renderSegments known

theorem eq_of_render_eq {d e : Decision} (h : d.render = e.render) (hd : d.isFull = false) :
    d = e := by
  have hread := congrArg ofText h
  rw [ofText_render, ofText_render, hd, if_neg Bool.false_ne_true] at hread
  split at hread
  · rw [hread] at hd
    cases hd
  · exact hread

theorem render_eq_iff {d e : Decision} : d.render = e.render ↔
    d.isFull = true ∧ e.isFull = true ∨ d = .noRows ∧ e = .noRows ∨
      ∃ known, d = ⟨true, some known⟩ ∧ e = ⟨true, some known⟩ := by
  constructor
  · intro h
    cases hd : d.isFull with
    | true =>
      cases he : e.isFull with
      | true => exact .inl ⟨rfl, rfl⟩
      | false =>
        rw [eq_of_render_eq h.symm he, hd] at he
        cases he
    | false =>
      obtain rfl := eq_of_render_eq h hd
      obtain ⟨direct, segments⟩ := d
      obtain rfl : direct = true := by simpa [isFull] using hd
      cases segments with
      | none => exact .inr (.inl ⟨rfl, rfl⟩)
      | some known => exact .inr (.inr ⟨known, rfl, rfl⟩)
  · rintro (⟨hd, he⟩ | ⟨rfl, rfl⟩ | ⟨known, rfl, rfl⟩)
    · rw [render, render, if_pos hd, if_pos he]
    · rfl
    · rfl

end Decision

namespace Fault

def kind : Fault → Fin 6
  | .unrecognized _ _ => 0
  | .dangling _ => 1
  | .shared _ => 2
  | .missingRange _ _ => 3
  | .tooDeep _ => 4
  | .unbalanced => 5

end Fault

end SliceDispatch
