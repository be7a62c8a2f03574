import SliceDispatch.Distribution
import SliceDispatch.Hash.Jump
import SliceDispatch.Hash.Xxh3

namespace SliceDispatch

def littleEndian (count : Nat) (word : UInt64) : ByteArray :=
  ⟨((List.range count).map fun i => (word >>> (8 * UInt64.ofNat i)).toUInt8).toArray⟩

/-- What is hashed of a value; equal values have equal bytes. -/
def Scalar.bytes? : Scalar → Option ByteArray
  | .null => none
  | .bool value => some ⟨#[if value then 1 else 0]⟩
  | .int value => some (littleEndian 8 value.toUInt64)
  | .double value => some (littleEndian 8 value.canonical.bits)
  | .text value => some value.toUTF8
  | .date days => some (littleEndian 4 days.toUInt32.toUInt64)

namespace Placement

abbrev ByteHash := ByteArray → UInt64 → UInt64

/-- Folds one key value into the hash of those before it. -/
def fold (hash : ByteHash) (h : UInt64) (key : Scalar × HashFamily) : UInt64 :=
  match key.1.bytes? with
  | some bytes => Xxh3.rotateLeft h 1 ^^^ hash bytes key.2.seed
  | none => h

/-- The segment of the rows with these key values if bytes are hashed by `hash`; the longer of the
two lists is cut to the shorter. -/
def segmentBy (hash : ByteHash) (values : List Scalar) (families : List HashFamily)
    (segments : UInt64) : SegmentId :=
  Jump.bucket ((values.zip families).foldl (fold hash) 0) segments

def segment (values : List Scalar) (families : List HashFamily) (segments : UInt64) : SegmentId :=
  segmentBy Xxh3.hash values families segments

/-- A fixed segment for slices without rows. -/
def fallback (segments : UInt64) : SegmentId := Jump.bucket 0x9e3779b97f4a7c15 segments

end Placement
end SliceDispatch
