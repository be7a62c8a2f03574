import SliceDispatch.Expr

namespace SliceDispatch

abbrev SegmentId := UInt32

inductive HashFamily where
  | integer | float | text | bool | date
deriving DecidableEq, Inhabited

namespace HashFamily

/-- Whether a family can hash a value; NULL suits every family. -/
def accepts : HashFamily → Scalar → Bool
  | _, .null | .integer, .int _ | .float, .double _ | .text, .text _ | .bool, .bool _
  | .date, .date _ => true
  | _, _ => false

def seed : HashFamily → UInt64
  | .integer => 1
  | .float => 2
  | .text => 3
  | .bool => 4
  | .date => 5

end HashFamily

structure KeyColumn where
  column : Column
  family : HashFamily
deriving DecidableEq, Inhabited

inductive Distribution where
  /-- Rows are dealt out in turn. -/
  | random (segments : UInt64)
  /-- A row lies on the segment that its key columns hash to; without keys it may lie anywhere. -/
  | hashed (keys : List KeyColumn) (segments : UInt64)
  /-- Every segment holds all rows. -/
  | replicated (segments : UInt64)
deriving DecidableEq, Inhabited

namespace Distribution

def segments : Distribution → UInt64
  | .random segments | .hashed _ segments | .replicated segments => segments

def keys : Distribution → List KeyColumn
  | .hashed keys _ => keys
  | _ => []

/-- Each segment holds only part of the rows. -/
def isPartitioned : Distribution → Bool
  | .replicated _ => false
  | _ => true

def isHashPartitioned (d : Distribution) : Bool := !d.keys.isEmpty

end Distribution

/-- The pseudo-column that tells the segment of a row. -/
def Column.segmentId (qualifier : String) : Column := ⟨some qualifier, "gp_segment_id", 4294967288⟩

end SliceDispatch
