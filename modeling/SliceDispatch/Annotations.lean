import SliceDispatch.Decision
import SliceDispatch.Placement
import Std.Data.ExtTreeMap

namespace SliceDispatch

structure Config where
  /-- Key combinations are enumerated while there are fewer than this many times the segments. -/
  combinationFactor : UInt64 := 3
  /-- A plan with more slices than this is dispatched to all segments. -/
  maxDirectSlices : UInt64 := 2
  maxPlanDepth : UInt64 := 1024
  /-- Whether each closed slice adds a line to the log. -/
  logDecisions : Bool := false
deriving DecidableEq, Inhabited

/-- The end of a slice. -/
structure Closing where
  root : NodeId
  /-- Whether the slice counts towards the limit. Those of sub-plans do not. -/
  counted : Bool
  slice : OpenSlice
deriving DecidableEq, Inhabited

namespace Closing

/-- Where the slice is dispatched: everywhere if nothing is known, and to the fallback segment if it
has no rows. -/
def decision (fallback : SegmentId) (c : Closing) : Decision :=
  if !c.slice.informed then .full
  else if c.slice.decision.isFull then c.slice.decision
  else match c.slice.decision.segments with
    | none => .exactly [fallback]
    | some _ => c.slice.decision

def verdict (c : Closing) : String :=
  if !c.slice.informed then "learned no information, default to full dispatch"
  else if c.slice.decision.isFull then "learned full dispatch is required"
  else match c.slice.decision.segments with
    | none => "learned no segment dispatch is required"
    | some _ => "learned dispatch to " ++ c.slice.decision.render

def line (c : Closing) : String := "Slice " ++ c.root.render ++ ": " ++ c.verdict

end Closing

structure Annotations where
  decisions : Std.ExtTreeMap NodeId Decision
  /-- Roots of the counted slices, in the order in which they closed. -/
  sliceRoots : List NodeId
  /-- Whether there are too many slices, so that all decisions are full. -/
  fallback : Bool
  log : List String
deriving Inhabited

namespace Annotations

def decision? (a : Annotations) (id : NodeId) : Option Decision := a.decisions[id]?

/-- The annotations of a plan whose slices closed as listed, the last closing of a node deciding. -/
def ofClosings (config : Config) (segments : UInt64) (closings : List Closing) : Annotations :=
  let sliceRoots := (closings.filter (·.counted)).map (·.root)
  let fallback := config.maxDirectSlices.toNat < sliceRoots.length
  let decide (c : Closing) := if fallback then .full else c.decision (Placement.fallback segments)
  { decisions := closings.foldl (fun m c => m.insert c.root (decide c)) ∅
    sliceRoots
    fallback
    log := if config.logDecisions then closings.map Closing.line else [] }

end Annotations
end SliceDispatch
