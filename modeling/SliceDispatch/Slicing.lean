import SliceDispatch.Annotations
import SliceDispatch.Plan
import SliceDispatch.ScanDecision

namespace SliceDispatch

structure Slicing.Input where
  catalog : Catalog
  config : Config
  plan : Plan

/-- How far the cutting has come. -/
structure Slicing where
  slices : OpenSlices
  /-- The owner of each owned node that has been reached. -/
  owners : List (NodeId × NodeId)
  /-- The slices closed so far, latest first. -/
  closed : List Closing

namespace Slicing

def start : Slicing := ⟨.top, [], []⟩

def inform (d : Decision) (s : Slicing) : Except Fault Slicing :=
  match s.slices.contribute? d with
  | some slices => .ok { s with slices }
  | none => .error .unbalanced

def enter (s : Slicing) : Slicing := { s with slices := s.slices.push }

def leave (id : NodeId) (counted : Bool) (s : Slicing) : Except Fault Slicing :=
  match s.slices.pop? with
  | some (slice, slices) => .ok { s with slices, closed := ⟨id, counted, slice⟩ :: s.closed }
  | none => .error .unbalanced

/-- Makes `owner` the owner of a node, which has no other and is not the root. -/
def adopt (root owner id : NodeId) (s : Slicing) : Except Fault Slicing :=
  if id = root then .error (.shared id)
  else match s.owners.lookup id with
    | none => .ok { s with owners := (id, owner) :: s.owners }
    | some other => if other = owner then .ok s else .error (.shared id)

/-- Adopts the nodes of a list, of which those in `before` have had their turn, and cuts each. -/
def cutOwned (root owner : NodeId) (cut : NodeId → Slicing → Except Fault Slicing)
    (before : List NodeId) : List NodeId → Slicing → Except Fault Slicing
  | [], s => .ok s
  | id :: ids, s =>
    if id ∈ before then .error (.shared id)
    else do
      let s ← s.adopt root owner id
      let s ← cut id s
      cutOwned root owner cut (id :: before) ids s

/-- Cuts a node and all below it, at most `levels` levels. -/
def cut (input : Input) : Nat → NodeId → Slicing → Except Fault Slicing
  | 0, _, _ => .error (.tooDeep input.config.maxPlanDepth)
  | levels + 1, id, s =>
    match input.plan.node? id with
    | none => .error (.dangling id)
    | some node =>
      let cutAll := cutOwned input.plan.root id (cut input levels) [] node.owned
      match node.effect with
      | .relay => cutAll s
      | .scan range predicate =>
        match input.plan.range? range with
        | none => .error (.missingRange id range)
        | some entry => do
          let d := ScanDecision.ofEntry input.catalog input.config.combinationFactor entry predicate
          cutAll (← s.inform d)
      | .everywhere => do cutAll (← s.inform .full)
      | .motion => do
        let s ← s.inform .full
        (← cutAll s.enter).leave id true
      | .subPlan plan true => do
        let s ← cut input levels plan s.enter
        (← cutAll s).leave id false
      | .subPlan plan false => do
        let s ← cut input levels plan s
        (← cutAll s.enter).leave id false
      | .unrecognized tag => .error (.unrecognized id tag)

/-- Closes the slice of the root. Motions and sub-plans have closed their own, and what is left then
is dropped. -/
def leaveRoot (input : Input) (s : Slicing) : Except Fault Slicing :=
  match input.plan.node? input.plan.root with
  | none => .error (.dangling input.plan.root)
  | some node =>
    match node.effect with
    | .motion | .subPlan _ _ =>
      match s.slices.pop? with
      | some (_, slices) => .ok { s with slices }
      | none => .error .unbalanced
    | _ => s.leave input.plan.root true

def run (input : Input) : Except Fault Slicing := do
  let s ← cut input (input.config.maxPlanDepth.toNat + 1) input.plan.root start
  let s ← leaveRoot input s
  if s.slices.depth = 0 then .ok s else .error .unbalanced

end Slicing

/-- The dispatch of every slice of a plan. -/
def Plan.annotate (plan : Plan) (catalog : Catalog) (config : Config) : Except Fault Annotations :=
  (Slicing.run ⟨catalog, config, plan⟩).map fun s =>
    .ofClosings config catalog.segments s.closed.reverse

end SliceDispatch
