import SliceDispatch.Candidates
import SliceDispatch.Catalog
import SliceDispatch.Decision
import SliceDispatch.Placement
import SliceDispatch.Plan

namespace SliceDispatch.ScanDecision

/-- The distribution that a scan of an entry can rely on. -/
def distribution? (catalog : Catalog) (entry : RangeEntry) : Option Distribution :=
  if entry.kind = .relation ∧ !entry.forcedRandom then
    entry.table.bind catalog.distribution?
  else none

/-- The segment that an expression names among `segments`; the count is read as a signed word. -/
def namedSegment? (segments : UInt64) : Expr → Option SegmentId
  | .literal (.int id) =>
    if 0 ≤ id ∧ id < segments.toInt64 then some id.toUInt64.toUInt32 else none
  | _ => none

/-- The segments that a predicate names by the segment-id column, if it names some but not as many as
there are. -/
def namedSegments? (qualifier : String) (segments : UInt64) (predicate : Expr) :
    Option (List SegmentId) :=
  match Candidates.ofPredicate (.segmentId qualifier) .integer predicate with
  | .unconstrained => none
  | .among values =>
    if values.isEmpty ∨ segments.toNat ≤ values.length then none
    else values.mapM (namedSegment? segments)

/-- The key column as a column of the entry. -/
def keyColumn (qualifier : String) (key : KeyColumn) : Column :=
  { key.column with qualifier := some qualifier }

/-- The candidates of each key column, unless one is unconstrained. -/
def keyCandidates? (qualifier : String) (predicate : Expr) : List KeyColumn → Option (List (List Expr))
  | [] => some []
  | key :: keys =>
    match Candidates.ofPredicate (keyColumn qualifier key) key.family predicate with
    | .unconstrained => none
    | .among values => (keyCandidates? qualifier predicate keys).map (values :: ·)

def maxCount : Nat := UInt64.size - 1

def boundedProduct (a b : Nat) : Nat := min (a * b) maxCount

def combinations (lists : List (List α)) : Nat :=
  lists.foldl (fun n list => boundedProduct n list.length) 1

def literal? : Expr → Option Scalar
  | .literal value => some value
  | _ => none

/-- The tuple of a number whose digits, in the mixed radix of the lengths, choose from the lists; the
first list has the lowest digit. -/
def tuple (number : Nat) : List (List Scalar) → List Scalar
  | [] => []
  | list :: lists => list.getD (number % list.length) .null :: tuple (number / list.length) lists

def tuples (lists : List (List Scalar)) : List (List Scalar) :=
  (List.range (combinations lists)).map fun number => tuple number lists

/-- A way to find the segment of the rows with some key values. -/
abbrev Hasher (m : Type → Type) := List Scalar → List HashFamily → UInt64 → m SegmentId

section

variable {m : Type → Type} [Monad m] (hash : Hasher m)

def ofKeysBy (factor : UInt64) (qualifier : String) (keys : List KeyColumn) (segments : UInt64)
    (predicate : Expr) : m Decision :=
  match keyCandidates? qualifier predicate keys with
  | none => pure .full
  | some lists =>
    if combinations lists = 0 then pure .noRows
    else if boundedProduct segments.toNat factor.toNat ≤ combinations lists then pure .full
    else match lists.mapM (·.mapM literal?) with
      | none => pure .full
      | some lists =>
        .exactly <$> (tuples lists).mapM fun values => hash values (keys.map (·.family)) segments

def ofDistributionBy (factor : UInt64) (qualifier : String) (d : Distribution) (predicate : Expr) :
    m Decision :=
  match if d.isPartitioned then namedSegments? qualifier d.segments predicate else none with
  | some segments => pure (.exactly segments)
  | none =>
    if d.isHashPartitioned then ofKeysBy hash factor qualifier d.keys d.segments predicate
    else pure .full

/-- The decision of a scan of an entry under an optional predicate. -/
def ofEntryBy (catalog : Catalog) (factor : UInt64) (entry : RangeEntry) (predicate : Option Expr) :
    m Decision :=
  match distribution? catalog entry, predicate with
  | some d, some predicate => ofDistributionBy hash factor entry.qualifier d predicate
  | _, _ => pure .full

def placeRows : Hasher m := fun values families segments =>
  pure (Placement.segment values families segments)

end

def ofKeys (factor : UInt64) (qualifier : String) (keys : List KeyColumn) (segments : UInt64)
    (predicate : Expr) : Decision :=
  (ofKeysBy (m := Id) placeRows factor qualifier keys segments predicate).run

def ofDistribution (factor : UInt64) (qualifier : String) (d : Distribution) (predicate : Expr) :
    Decision :=
  (ofDistributionBy (m := Id) placeRows factor qualifier d predicate).run

def ofEntry (catalog : Catalog) (factor : UInt64) (entry : RangeEntry) (predicate : Option Expr) :
    Decision :=
  (ofEntryBy (m := Id) placeRows catalog factor entry predicate).run

variable {factor segments : UInt64} {qualifier : String} {keys : List KeyColumn}
  {d : Distribution} {predicate : Expr}

theorem ofKeys_eq : ofKeys factor qualifier keys segments predicate =
    match keyCandidates? qualifier predicate keys with
    | none => .full
    | some lists =>
      if combinations lists = 0 then .noRows
      else if boundedProduct segments.toNat factor.toNat ≤ combinations lists then .full
      else match lists.mapM (·.mapM literal?) with
        | none => .full
        | some lists => .exactly ((tuples lists).map fun values =>
            Placement.segment values (keys.map (·.family)) segments) := by
  unfold ofKeys ofKeysBy
  split
  · rfl
  split
  · rfl
  split
  · rfl
  split
  · rfl
  · rw [Id.run_map, List.idRun_mapM]
    rfl

theorem ofDistribution_eq : ofDistribution factor qualifier d predicate =
    match if d.isPartitioned then namedSegments? qualifier d.segments predicate else none with
    | some segments => .exactly segments
    | none =>
      if d.isHashPartitioned then ofKeys factor qualifier d.keys d.segments predicate
      else .full := by
  unfold ofDistribution ofDistributionBy
  split
  · rfl
  split <;> rfl

theorem ofEntry_eq {catalog : Catalog} {entry : RangeEntry} {predicate : Option Expr} :
    ofEntry catalog factor entry predicate =
      match distribution? catalog entry, predicate with
      | some d, some predicate => ofDistribution factor entry.qualifier d predicate
      | _, _ => .full := by
  unfold ofEntry ofEntryBy
  split <;> rfl

end SliceDispatch.ScanDecision
