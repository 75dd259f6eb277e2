import ObjectCatalog.Catalog
import ObjectCatalog.Segment.Resolve

/-!
# Reading objects and segments

Objects are read by version or by being the latest of their key; only committed ones can be read.
Segments are read by position, one or a page of them at a time.

* `Catalog.getExactVersion`, `Catalog.getLatestVersion`: objects.
* `Catalog.getSegment`, `Catalog.getLastSegment`: single segments.
* `Catalog.listSegments`: pages of a stream's segments.
-/

namespace ObjectCatalog

namespace Store

/-- The committed row of a key at a version. -/
def exactCommitted (s : Store) (l : Location) (version : Int64) : Except Error Object :=
  match (s.objects.find? ⟨l, version.toInt⟩).filter (·.hasStatus .committed) with
  | none => throw (.objectNotFound (.exact l.key version))
  | some row => row.view .getExactVersion

/-- The committed row of a key with the highest version. -/
def latestCommitted (s : Store) (l : Location) : Except Error Object :=
  match ((s.versionsOf l).filter (·.hasStatus .committed)).getLast? with
  | none => throw (.objectNotFound (.latest l.key))
  | some row => row.view .getLatestVersion

/-- The number of segments in a page when none or a greater one is asked for. -/
def pageLimit : Nat := 1000

/-- The size of a page that is asked for with a limit. -/
def pageSize (limit : Nat) : Nat := if limit = 0 then pageLimit else min limit pageLimit

/-- The rows of a stream whose stored position is above that of the cursor. -/
def segmentsAfter (s : Store) (stream : StreamId) (cursor : Option Position) : List SegmentRow :=
  (s.segmentsOf stream).filter fun r => cursor.all (·.column < r.position)

end Store

namespace Catalog

/-- The committed object at a version. -/
def getExactVersion (l : Location) (version : Int64) : Action Object := do
  l.check
  reject (version ≤ 0) .badVersion
  let s ← tables .getExactVersion
  s.exactCommitted l version

/-- The committed object with the highest version of a key. -/
def getLatestVersion (l : Location) : Action Object := do
  l.check
  let s ← tables .getLatestVersion
  s.latestCommitted l

/-- The segments of rows that a statement selected, with copies resolved as the settings say. -/
def resolveAll (s : Store) (statement : Statement) (rows : List SegmentRow) :
    Action (List Segment) := do
  reading (s.resolveAll (← get).settings.serverSideCopy statement rows)

/-- The segment of a row that a statement selected. -/
def resolve (s : Store) (statement : Statement) (row : SegmentRow) : Action Segment := do
  SegmentRow.require statement (·.isReadable) [row]
  reading (s.resolve (← get).settings.serverSideCopy row)

/-- The segment of a stream at a position. -/
def getSegment (stream : StreamId) (position : Position) : Action Segment := do
  reject stream.isZero .noStream
  let s ← tables .getSegment
  match s.segment? stream position with
  | none => throw (.segmentNotFound (.atPosition stream position))
  | some row => resolve s .getSegment row

/-- The last segment of the latest committed version of a key. -/
def getLastSegment (l : Location) : Action Segment := do
  l.check
  let s ← tables .getLatestVersion
  let object ← s.latestCommitted l
  let stream := object.stream.stream
  match (s.segmentsOf stream).getLast? with
  | none => throw (.segmentNotFound (.last stream))
  | some row => resolve s .getLastSegment row

/-- A page of the segments of a stream after a position, and whether there are more. A limit of 0 or
above 1000 is taken for 1000. -/
def listSegments (stream : StreamId) (cursor : Option Position) (limit : Nat) :
    Action (List Segment × Bool) := do
  reject stream.isZero .noStream
  let s ← tables .listSegments
  let size := Store.pageSize limit
  -- one row more than the page tells whether there are more
  let rows := (s.segmentsAfter stream cursor).take (size + 1)
  SegmentRow.require .listSegments (·.isReadable) rows
  let segments ← resolveAll s .listSegments (rows.take size)
  return (segments, size < rows.length)

end Catalog

end ObjectCatalog
