import SliceDispatch.Distribution
import Std.Data.ExtTreeSet

namespace SliceDispatch

abbrev SegmentSet := Std.ExtTreeSet SegmentId

/-- A decision that is not direct means all segments, whatever its set; a direct one without a set
means any one segment, because no rows qualify. -/
structure Decision where
  direct : Bool
  segments : Option SegmentSet
deriving DecidableEq

namespace Decision

def full : Decision := ⟨false, none⟩

def noRows : Decision := ⟨true, none⟩

def exactly (segments : List SegmentId) : Decision := ⟨true, some (.ofList segments)⟩

theorem mem_ofList {ids : List SegmentId} {i : SegmentId} :
    i ∈ (Std.ExtTreeSet.ofList ids : SegmentSet) ↔ i ∈ ids := by
  rw [Std.ExtTreeSet.mem_ofList, List.contains_iff_mem]

instance : Inhabited Decision := ⟨full⟩

def isFull (d : Decision) : Bool := !d.direct

def targets (d : Decision) : Option SegmentSet := if d.direct then d.segments else none

def renderSegments (s : SegmentSet) : String :=
  "segments [" ++ ", ".intercalate (s.toList.map fun id => toString id.toNat) ++ "]"

def render (d : Decision) : String :=
  if d.isFull then "full"
  else match d.segments with
    | none => "any"
    | some s => renderSegments s

end Decision

/-- What is known of a slice whose end has not been reached. -/
structure OpenSlice where
  decision : Decision := .full
  /-- Whether anything has contributed to the decision. -/
  informed : Bool := false
deriving DecidableEq, Inhabited

namespace OpenSlice

def empty : OpenSlice := {}

def ofDecision (d : Decision) : OpenSlice := ⟨d, true⟩

/-- Merges a contribution into a decision that others have contributed to. -/
def join (d contribution : Decision) : Decision :=
  if d.isFull then d
  else match d.segments, contribution.segments with
    | _, none => d
    | none, some more => ⟨d.direct, some more⟩
    | some known, some more => ⟨d.direct, some (known ∪ more)⟩

def merge (s : OpenSlice) (contribution : Decision) : OpenSlice :=
  if contribution.isFull then ⟨.full, true⟩
  else if !s.informed then ⟨contribution, true⟩
  else ⟨join s.decision contribution, true⟩

/-- The slice after each of a list of contributions, and before the first. -/
def history (s : OpenSlice) : List Decision → List OpenSlice
  | [] => [s]
  | d :: ds => s :: (s.merge d).history ds

theorem merge_full (s : OpenSlice) {d : Decision} (h : d.isFull) : s.merge d = ⟨.full, true⟩ := by
  simp [merge, h]

theorem merge_empty {d : Decision} (h : d.direct) : OpenSlice.empty.merge d = .ofDecision d := by
  simp [merge, empty, ofDecision, Decision.isFull, h]

end OpenSlice

structure OpenSlices where
  slices : List OpenSlice
deriving DecidableEq, Inhabited

namespace OpenSlices

def empty : OpenSlices := ⟨[]⟩

def top : OpenSlices := ⟨[.empty]⟩

def push (s : OpenSlices) : OpenSlices := ⟨.empty :: s.slices⟩

def pop? (s : OpenSlices) : Option (OpenSlice × OpenSlices) :=
  match s.slices with
  | [] => none
  | inner :: outer => some (inner, ⟨outer⟩)

def contribute? (s : OpenSlices) (d : Decision) : Option OpenSlices :=
  match s.slices with
  | [] => none
  | inner :: outer => some ⟨inner.merge d :: outer⟩

def depth (s : OpenSlices) : Nat := s.slices.length

theorem depth_push (s : OpenSlices) : s.push.depth = s.depth + 1 := rfl

theorem depth_of_contribute? {s t : OpenSlices} {d : Decision} (h : s.contribute? d = some t) :
    t.depth = s.depth := by
  obtain ⟨_ | ⟨inner, outer⟩⟩ := s <;> simp [contribute?] at h
  subst h
  rfl

end OpenSlices
end SliceDispatch
