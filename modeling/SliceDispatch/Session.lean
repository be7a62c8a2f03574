import SliceDispatch.Slicing

namespace SliceDispatch

structure Session where
  catalog : StoredCatalog
  config : Config
  plan : Plan
deriving Inhabited

namespace Session

inductive Command where
  | addTable (table : Table) (distribution : Distribution)
  | findTable (table : Table)
  | setSegments (count : UInt64)
  | setConfig (config : Config)
  | addNode (node : Node)
  | findNode (id : NodeId)
  | addRange (entry : RangeEntry)
  | findRange (number : UInt32)
  | resolve (range : UInt32) (predicate : Option Expr)
  | annotate (root : NodeId)
deriving Inhabited

inductive Answer where
  | count (value : Nat)
  | distribution (found : Option Distribution)
  | config (config : Config)
  | added (id : NodeId)
  | node (node : Node)
  | range (found : Option RangeEntry)
  | decision (found : Option Decision)
  | annotations (annotations : Annotations)
  | fault (fault : Fault)
deriving Inhabited

def start (segments : UInt64) (config : Config) : Session :=
  ⟨.empty segments, config, ⟨#[], ⟨0⟩, #[]⟩⟩

def step (s : Session) : Command → Answer × Session
  | .addTable table d =>
    let catalog := s.catalog.add table d
    (.count catalog.size, { s with catalog })
  | .findTable table => (.distribution (s.catalog.distribution? table), s)
  | .setSegments count => (.count count.toNat, { s with catalog := { s.catalog with segments := count } })
  | .setConfig config => (.config config, { s with config })
  | .addNode node =>
    let (id, plan) := s.plan.addNode node
    (.added id, { s with plan })
  | .findNode id =>
    match s.plan.node? id with
    | some node => (.node node, s)
    | none => (.fault (.dangling id), s)
  | .addRange entry =>
    let plan := s.plan.addRange entry
    (.count plan.ranges.size, { s with plan })
  | .findRange number => (.range (s.plan.range? number), s)
  | .resolve range predicate =>
    let d := (s.plan.range? range).map fun entry =>
      ScanDecision.ofEntry s.catalog s.config.combinationFactor entry predicate
    (.decision d, s)
  | .annotate root =>
    match { s.plan with root }.annotate s.catalog s.config with
    | .ok annotations => (.annotations annotations, s)
    | .error fault => (.fault fault, s)

end Session
end SliceDispatch
