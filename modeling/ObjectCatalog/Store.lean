import ObjectCatalog.Node
import ObjectCatalog.Object
import ObjectCatalog.Segment

/-!
# The tables

Four tables hold the whole catalogue: object versions, segments, copy relations and the short
numbers of storage nodes. A copy relation says that the pieces of one stream are with another, its
ancestor.

* `Store.versionsOf`, `Store.nextVersion`: the versions of a key.
* `Store.addObject`: adds an object row, which comes after all others in age.
* `Store.segmentsOf`: the segments of a stream in position order.
* `Store.ancestorOf?`, `Store.copiesOf`: copy relations in both directions.
-/

namespace ObjectCatalog

/-- A copy and the stream that holds its pieces. -/
structure CopyRow where
  stream : StreamId
  ancestor : StreamId
  deriving DecidableEq

/-- The tables of a catalogue. -/
structure Store where
  objects : Table ObjectRow.id
  segments : Table SegmentRow.id
  copies : Table CopyRow.stream
  nodes : NodeTable

namespace Store

/-- The tables right after they are created. -/
def empty : Store := ⟨.empty, .empty, .empty, .empty⟩

instance : Inhabited Store := ⟨empty⟩

/-- The rows of all versions of a key, lowest version first. -/
def versionsOf (s : Store) (l : Location) : List ObjectRow :=
  s.objects.rows.filter fun r => r.location = l

/-- The greatest value of a version column. Adding to the greatest 64-bit integer gives 2^63 as an
approximate number, and adding to that changes nothing. -/
def versionBound : Int := 9223372036854775808

/-- One more than the highest version of any row of a key. -/
def nextVersion (s : Store) (l : Location) : Int :=
  match (s.versionsOf l).map (·.version) with
  | [] => 1
  | v :: vs => min (vs.foldl max v + 1) versionBound

/-- The number for the next row that is added, above the numbers of all rows. -/
def nextSerial (s : Store) : Nat := (s.objects.rows.map (·.serial)).foldl max 0 + 1

/-- Adds an object row as the latest one. -/
def addObject (s : Store) (r : ObjectRow) : Store :=
  { s with objects := s.objects.insert { r with serial := s.nextSerial } }

/-- The row of a stream identity in a status. -/
def objectOf? (s : Store) (stream : ObjectStream) (status : Status) : Option ObjectRow :=
  (s.objects.find? ⟨stream.location, stream.version.toInt⟩).filter fun r =>
    r.isOf stream && r.hasStatus status

/-- The segments of a stream in position order. -/
def segmentsOf (s : Store) (stream : StreamId) : List SegmentRow :=
  s.segments.rows.filter fun r => r.stream = stream

/-- The segment of a stream at a position. -/
def segment? (s : Store) (stream : StreamId) (position : Position) : Option SegmentRow :=
  s.segments.find? ⟨stream, position.column⟩

/-- The stream that holds the pieces of a copy. -/
def ancestorOf? (s : Store) (stream : StreamId) : Option StreamId :=
  (s.copies.find? stream).map (·.ancestor)

/-- The copies whose pieces a stream holds, lowest stream id first. -/
def copiesOf (s : Store) (ancestor : StreamId) : List StreamId :=
  (s.copies.rows.filter fun r => r.ancestor = ancestor).map (·.stream)

end Store

end ObjectCatalog
