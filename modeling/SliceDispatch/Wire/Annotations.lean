import SliceDispatch.Annotations
import SliceDispatch.Wire.Scalar

namespace SliceDispatch

def SegmentSet.toJson (s : SegmentSet) : Json := .ofList .ofUInt32 s.toList

def SegmentSet.ofJson? (j : Json) : Option SegmentSet :=
  (Json.listOf Json.uint32? j).map fun ids => .ofList ids

def Decision.toJson (d : Decision) : Json :=
  .object [("direct", .bool d.direct), ("segments", .ofOption SegmentSet.toJson d.segments)]

def Decision.ofJson? (j : Json) : Option Decision := do
  let fields ← j.record? ["direct", "segments"] 2
  return { direct := ← Json.required "direct" Json.bool? fields
           segments := ← Json.optional "segments" SegmentSet.ofJson? fields }

namespace Annotations

def decisionFields (a : Annotations) (key : NodeId → String) (value : Decision → Json) :
    List (String × Json) :=
  a.decisions.toList.map fun (id, d) => (key id, value d)

def fields (a : Annotations) : List (String × Json) :=
  [("decisions", .object (a.decisionFields (fun id => toString id.index.toNat) Decision.toJson)),
    ("sliceRoots", .ofList NodeId.toJson a.sliceRoots), ("multiSliceFallback", .bool a.fallback)]

def summary (a : Annotations) : Json :=
  .object (a.decisionFields NodeId.render fun d => .text d.render)

end Annotations

def Config.toJson (c : Config) : Json :=
  .object [("combinationFactor", .ofUInt64 c.combinationFactor),
    ("maxDirectDispatchSlices", .ofUInt64 c.maxDirectSlices),
    ("maxPlanDepth", .ofUInt64 c.maxPlanDepth),
    ("printDispatchDecisions", .bool c.logDecisions)]

def Config.ofJson? (j : Json) : Option Config := do
  let fields ← j.record? ["combinationFactor", "maxDirectDispatchSlices", "maxPlanDepth",
    "printDispatchDecisions"] 0
  let default : Config := {}
  return {
    combinationFactor :=
      ← Json.defaulted "combinationFactor" default.combinationFactor Json.uint64? fields
    maxDirectSlices :=
      ← Json.defaulted "maxDirectDispatchSlices" default.maxDirectSlices Json.uint64? fields
    maxPlanDepth := ← Json.defaulted "maxPlanDepth" default.maxPlanDepth Json.uint64? fields
    logDecisions :=
      ← Json.defaulted "printDispatchDecisions" default.logDecisions Json.bool? fields }

end SliceDispatch
