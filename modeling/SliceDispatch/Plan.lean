import SliceDispatch.Expr

namespace SliceDispatch

inductive RangeKind where
  | relation | subquery | function | values | cte
deriving DecidableEq, Inhabited

structure RangeEntry where
  kind : RangeKind
  table : Option Table
  qualifier : String
  /-- The relation is to be read as if its rows were anywhere. -/
  forcedRandom : Bool
deriving DecidableEq, Inhabited

def RangeEntry.relation (table : Table) (qualifier : String) : RangeEntry :=
  ⟨.relation, some table, qualifier, false⟩

/-- Operators that only process the rows of their children. -/
inductive Operator where
  | result | append | mergeAppend | lockRows | modifyTable | bitmapAnd | bitmapOr | subqueryScan
  | valuesScan | material | repetition | aggregate | sort | unique | hash | setOp | limit
  | windowAggregate | tableFunctionScan | recursiveUnion | partitionSelector | splitUpdate
deriving DecidableEq, Inhabited

inductive JoinMethod where
  | nestLoop | merge | hash
deriving DecidableEq, Inhabited

/-- Ways to scan a range entry by a condition that the planner has rewritten for an index. -/
inductive IndexMethod where
  | index | indexOnly | bitmapIndex | bitmapHeap
deriving DecidableEq, Inhabited

/-- Ways to scan a range entry without knowing where its rows are. -/
inductive UnplacedScan where
  | external | tid | foreign
deriving DecidableEq, Inhabited

inductive DerivedScan where
  | function | workTable | sharedInput
deriving DecidableEq, Inhabited

inductive MotionType where
  | gather | hash | broadcast | explicit
deriving DecidableEq, Inhabited

inductive Kind where
  | operator (op : Operator)
  | join (method : JoinMethod) (condition : Option Expr)
  | seqScan (range : UInt32)
  /-- The condition is the one before it was rewritten. -/
  | indexScan (method : IndexMethod) (range : UInt32) (condition : Option Expr)
  | unplacedScan (scan : UnplacedScan) (range : UInt32)
  | derivedScan (scan : DerivedScan)
  /-- Moves rows between segments; what is below runs as a slice of its own. -/
  | motion (type : MotionType)
  /-- A subquery, whose plan has its root at `plan`. -/
  | subPlan (plan : NodeId) (isInit : Bool) (args : List Expr)
  /-- Whatever the planner made that has no rule here. -/
  | unrecognized (tag : String)
deriving Inhabited

namespace Kind

def name : Kind → String
  | .operator .result => "Result"
  | .operator .append => "Append"
  | .operator .mergeAppend => "MergeAppend"
  | .operator .lockRows => "LockRows"
  | .operator .modifyTable => "ModifyTable"
  | .operator .bitmapAnd => "BitmapAnd"
  | .operator .bitmapOr => "BitmapOr"
  | .operator .subqueryScan => "SubqueryScan"
  | .operator .valuesScan => "ValuesScan"
  | .operator .material => "Material"
  | .operator .repetition => "Repeat"
  | .operator .aggregate => "Agg"
  | .operator .sort => "Sort"
  | .operator .unique => "Unique"
  | .operator .hash => "Hash"
  | .operator .setOp => "SetOp"
  | .operator .limit => "Limit"
  | .operator .windowAggregate => "WindowAgg"
  | .operator .tableFunctionScan => "TableFunctionScan"
  | .operator .recursiveUnion => "RecursiveUnion"
  | .operator .partitionSelector => "PartitionSelector"
  | .operator .splitUpdate => "SplitUpdate"
  | .join .nestLoop _ => "NestLoop"
  | .join .merge _ => "MergeJoin"
  | .join .hash _ => "HashJoin"
  | .seqScan _ => "SeqScan"
  | .indexScan .index _ _ => "IndexScan"
  | .indexScan .indexOnly _ _ => "IndexOnlyScan"
  | .indexScan .bitmapIndex _ _ => "BitmapIndexScan"
  | .indexScan .bitmapHeap _ _ => "BitmapHeapScan"
  | .unplacedScan .external _ => "ExternalScan"
  | .unplacedScan .tid _ => "TidScan"
  | .unplacedScan .foreign _ => "ForeignScan"
  | .derivedScan .function => "FunctionScan"
  | .derivedScan .workTable => "WorkTableScan"
  | .derivedScan .sharedInput => "ShareInputScan"
  | .motion _ => "Motion"
  | .subPlan _ _ _ => "SubPlan"
  | .unrecognized tag => tag

def expressions : Kind → List Expr
  | .join _ condition | .indexScan _ _ condition => condition.toList
  | .subPlan _ _ args => args
  | _ => []

end Kind

structure Node where
  kind : Kind
  qual : Option Expr := none
  targets : List Expr := []
  children : List NodeId := []
  initPlans : List NodeId := []
deriving Inhabited

/-- What a node means for the slices of a plan. -/
inductive SliceEffect where
  | relay
  | scan (range : UInt32) (predicate : Option Expr)
  /-- Reads rows that may be anywhere. -/
  | everywhere
  | motion
  | subPlan (plan : NodeId) (isInit : Bool)
  | unrecognized (tag : String)
deriving Inhabited

namespace Node

def expressions (n : Node) : List Expr := n.targets ++ n.qual.toList ++ n.kind.expressions

/-- The nodes that a node owns: sub-plans in its expressions, children, init plans. The plan of a
sub-plan node is not owned by it. -/
def owned (n : Node) : List NodeId :=
  n.expressions.flatMap Expr.subPlans ++ n.children ++ n.initPlans

def effect (n : Node) : SliceEffect :=
  match n.kind with
  | .operator _ | .join _ _ => .relay
  | .seqScan range => .scan range n.qual
  | .indexScan _ range condition => .scan range condition
  | .unplacedScan _ _ | .derivedScan _ => .everywhere
  | .motion _ => .motion
  | .subPlan plan isInit _ => .subPlan plan isInit
  | .unrecognized tag => .unrecognized tag

end Node

structure Plan where
  nodes : Array Node
  root : NodeId
  ranges : Array RangeEntry
deriving Inhabited

namespace Plan

def node? (p : Plan) (id : NodeId) : Option Node := p.nodes[id.index.toNat]?

/-- The entry with a number; the first has number one. -/
def range? (p : Plan) (number : UInt32) : Option RangeEntry :=
  if number = 0 then none else p.ranges[number.toNat - 1]?

def addNode (p : Plan) (n : Node) : NodeId × Plan :=
  (⟨.ofNat p.nodes.size⟩, { p with nodes := p.nodes.push n })

def addRange (p : Plan) (e : RangeEntry) : Plan := { p with ranges := p.ranges.push e }

end Plan

inductive Fault where
  | unrecognized (node : NodeId) (tag : String)
  | dangling (node : NodeId)
  | shared (node : NodeId)
  | missingRange (node : NodeId) (range : UInt32)
  | tooDeep (limit : UInt64)
  /-- A contribution or the end of a slice came when no slice was open. -/
  | unbalanced
deriving DecidableEq, Inhabited

def Fault.message : Fault → String
  | .unrecognized node tag =>
    "Invalid plan node " ++ node.render ++ ": unrecognized kind '" ++ tag ++ "'"
  | .dangling node => "Dangling plan node reference " ++ node.render
  | .shared node => "Plan node " ++ node.render ++ " is shared between parents"
  | .missingRange node range =>
    "Scan " ++ node.render ++ " refers to missing range table entry " ++ toString range.toNat
  | .tooDeep limit => "Plan depth exceeds limit of " ++ toString limit.toNat
  | .unbalanced => "Unbalanced slice stack"

end SliceDispatch
