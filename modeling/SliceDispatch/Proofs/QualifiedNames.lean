import SliceDispatch.ScanDecision
import Mathlib.Data.List.Induction

namespace SliceDispatch

namespace Table

variable {t u : Table}

theorem toList_render (t : Table) :
    t.render.toList = t.schema.toList ++ '.' :: t.name.toList := by
  simp [render]

/-- The name of `t` goes on after a dot with the name of `u`, whose schema takes in what comes before
that dot. -/
def SplitsBefore (t u : Table) : Prop :=
  ∃ part, u.schema = t.schema ++ "." ++ part ∧ t.name = part ++ "." ++ u.name

theorem SplitsBefore.render_eq (h : t.SplitsBefore u) : t.render = u.render := by
  obtain ⟨part, hschema, hname⟩ := h
  simp [render, hschema, hname, String.append_assoc]

theorem eq_or_splitsBefore {rest : List Char} (hschema : u.schema.toList = t.schema.toList ++ rest)
    (hname : '.' :: t.name.toList = rest ++ '.' :: u.name.toList) : t = u ∨ t.SplitsBefore u := by
  cases rest with
  | nil =>
    left
    obtain ⟨schema, name⟩ := t
    obtain ⟨schema', name'⟩ := u
    rw [List.append_nil] at hschema
    rw [Table.mk.injEq]
    exact ⟨String.toList_inj.1 hschema.symm, String.toList_inj.1 (List.cons.inj hname).2⟩
  | cons c part =>
    rw [List.cons_append, List.cons.injEq] at hname
    obtain ⟨rfl, hname⟩ := hname
    refine .inr ⟨.ofList part, ?_, ?_⟩
    · apply String.toList_inj.1
      simp [hschema]
    · apply String.toList_inj.1
      simp [hname]

theorem render_eq_iff : t.render = u.render ↔ t = u ∨ t.SplitsBefore u ∨ u.SplitsBefore t := by
  constructor
  · intro h
    have hsplit := congrArg String.toList h
    rw [toList_render, toList_render] at hsplit
    rcases List.append_eq_append_iff.1 hsplit with ⟨rest, hschema, hname⟩ | ⟨rest, hschema, hname⟩
    · exact (eq_or_splitsBefore hschema hname).imp_right .inl
    · exact (eq_or_splitsBefore hschema hname).imp Eq.symm .inr
  · rintro (rfl | h | h)
    · rfl
    · exact h.render_eq
    · exact h.render_eq.symm

end Table

namespace StoredCatalog

/-- The catalog after tables have been added to an empty one, in the order of the list. -/
def ofTables (segments : UInt64) (added : List (Table × Distribution)) : StoredCatalog :=
  added.foldl (fun c entry => c.add entry.1 entry.2) (empty segments)

theorem distribution?_ofTables (segments : UInt64) (added : List (Table × Distribution))
    (t : Table) : (ofTables segments added).distribution? t =
      (added.reverse.find? (·.1.render = t.render)).map (·.2) := by
  induction added using List.reverseRecOn with
  | nil => rfl
  | append_singleton added entry ih =>
    have hlast : ofTables segments (added ++ [entry]) =
        (ofTables segments added).add entry.1 entry.2 := by
      rw [ofTables, List.foldl_append]
      rfl
    rw [hlast, distribution?_add, ih]
    by_cases hname : entry.1.render = t.render
    · simp [hname]
    · simp [hname, Ne.symm hname]

/-- A table has the distribution that was last added under its qualified name, and none if there is
no such. If no other table with its name was added, that is the distribution last added for itself.
Adding a table changes no lookup under another name, and the tables of one name are those split at
different dots of it. -/
theorem distribution?_last_added (segments : UInt64) (added : List (Table × Distribution))
    (t : Table) :
    (ofTables segments added).distribution? t =
      (added.reverse.find? (·.1.render = t.render)).map (·.2) ∧
    ((∀ entry ∈ added, entry.1.render = t.render → entry.1 = t) →
      (ofTables segments added).distribution? t = (added.reverse.find? (·.1 = t)).map (·.2)) ∧
    (∀ (c : StoredCatalog) (u : Table) (d : Distribution), u.render ≠ t.render →
      (c.add u d).distribution? t = c.distribution? t) ∧
    ∀ u : Table, u.render = t.render ↔ u = t ∨ u.SplitsBefore t ∨ t.SplitsBefore u := by
  have hlast := distribution?_ofTables segments added t
  refine ⟨hlast, fun halone => ?_, fun c u d hne => ?_, fun u => Table.render_eq_iff⟩
  · rw [hlast]
    congr 1
    rw [← List.head?_filter, ← List.head?_filter]
    refine congrArg List.head? (List.filter_congr fun entry hentry => decide_eq_decide.2 ?_)
    exact ⟨halone entry (List.mem_reverse.1 hentry), congrArg Table.render⟩
  · rw [distribution?_add, if_neg hne.symm]

/-- `gp_segment_id = 0` -/
def onFirstSegment : Expr := .equals (.column (.segmentId "t")) (.literal (.int 0))

/-- Table `b.c` of schema `a` was never added, but is found to have the distribution of table `c` of
schema `a.b`, and a scan of it is narrowed as only one of that table may be. -/
theorem distribution?_dotted :
    (⟨"a.b", "c"⟩ : Table) ≠ ⟨"a", "b.c"⟩ ∧
      ([(⟨"a.b", "c"⟩, .random 4)] : List (Table × Distribution)).reverse.find?
        (·.1 = ⟨"a", "b.c"⟩) = none ∧
      (empty 4).distribution? ⟨"a", "b.c"⟩ = none ∧
      (ofTables 4 [(⟨"a.b", "c"⟩, .random 4)]).distribution? ⟨"a", "b.c"⟩ = some (.random 4) ∧
      ScanDecision.ofEntry (empty 4) 3 (.relation ⟨"a", "b.c"⟩ "t") (some onFirstSegment) = .full ∧
      ScanDecision.ofEntry (ofTables 4 [(⟨"a.b", "c"⟩, .random 4)]) 3
        (.relation ⟨"a", "b.c"⟩ "t") (some onFirstSegment) = .exactly [0] := by
  decide +kernel

end StoredCatalog
end SliceDispatch
