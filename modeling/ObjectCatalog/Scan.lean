import ObjectCatalog.Catalog
import ObjectCatalog.Segment.Resolve

/-!
# Scanning the whole catalogue

Batch jobs go through all objects or all segments in key order, a batch at a time; an empty batch
ends the scan. A scan sees the tables as they were at its first batch, and of them only rows that
are no younger than the time it looks back to.

* `ObjectScan.next`: a batch of objects.
* `SegmentScan.fetch`, `Catalog.nextSegments`: a batch of segment rows, and the same resolved.
* `SegmentScan.overflows`: when there can be no room for a batch of segment rows.
* `Catalog.scanObjects`, `Catalog.scanSegments`: all batches, the empty one included.
-/

namespace ObjectCatalog

/-- An object version as batch jobs see it. -/
structure LoopObject where
  stream : ObjectStream
  status : Status
  createdAt : Instant
  expiresAt : Option Instant
  segmentCount : Int32
  totalEncryptedSize : Int
  metadataSize : Nat
  deriving DecidableEq

/-- A segment as batch jobs see it: without key material. -/
structure LoopSegment where
  stream : StreamId
  position : Position
  createdAt : Instant
  expiresAt : Option Instant
  repairedAt : Option Instant
  rootPiece : PieceId
  encryptedSize : Int32
  plainOffset : Int
  plainSize : Int32
  redundancy : Redundancy
  pieces : List Piece
  deriving DecidableEq

/-- Whether no storage node takes part in a segment. -/
def LoopSegment.isInline (s : LoopSegment) : Bool := s.redundancy.isZero && s.pieces.isEmpty

/-- What batch jobs see of a segment. -/
def Segment.forLoop (s : Segment) : LoopSegment where
  stream := s.stream
  position := s.position
  createdAt := s.createdAt
  expiresAt := s.expiresAt
  repairedAt := s.repairedAt
  rootPiece := s.rootPiece
  encryptedSize := s.encryptedSize
  plainOffset := s.plainOffset
  plainSize := s.plainSize
  redundancy := s.redundancy
  pieces := s.pieces

/-- What batch jobs see of an object row. -/
def ObjectRow.forLoop (r : ObjectRow) (o : Object) : LoopObject where
  stream := o.stream
  status := o.status
  createdAt := o.createdAt
  expiresAt := o.expiresAt
  segmentCount := o.segmentCount
  totalEncryptedSize := o.totalEncryptedSize
  metadataSize := r.metadata.data.elim 0 List.length

/-- The number of rows in a batch when none is given. -/
def defaultLoopBatch : Nat := 2500

/-- The size of a batch that is asked for with a number. -/
def loopBatch (size : Nat) : Nat := if size = 0 then defaultLoopBatch else size

/-- A scan of objects under way. -/
structure ObjectScan where
  batchSize : Nat
  asOf : Instant
  /-- The key of the row seen last. -/
  cursor : ObjectId := ⟨⟨.zero, "", []⟩, 0⟩
  done : Bool := false
  /-- The tables as the first batch saw them. -/
  snapshot : Option Store := none

namespace ObjectScan

/-- A scan of the rows created up to a time, by default up to now. -/
def start (now : Instant) (batchSize : Nat) (asOf : Option Instant) : ObjectScan :=
  { batchSize := loopBatch batchSize, asOf := asOf.getD now }

/-- The rows a scan has not seen. -/
def rest (scan : ObjectScan) (s : Store) : List ObjectRow :=
  s.objects.rows.filter fun r =>
    r.createdAt.notAfter scan.asOf && compare scan.cursor r.id = .lt

/-- The next batch, and the scan that goes on. A failure leaves the place of the scan as it was. -/
def next (scan : ObjectScan) (s : Option Store) : Except Error (List LoopObject) × ObjectScan :=
  if scan.done then (.ok [], scan)
  else
    match scan.snapshot.or s with
    | none => (.error (.storage .scanObjects), scan)
    | some s =>
      let scan := { scan with snapshot := some s }
      let rows := (scan.rest s).take scan.batchSize
      match rows.mapM fun r => (r.view .scanObjects).map r.forLoop with
      | .error e => (.error e, scan)
      | .ok batch =>
        let cursor := rows.getLast?.elim scan.cursor (·.id)
        (.ok batch, { scan with cursor, done := rows.length < scan.batchSize })

/-- The batches of a scan up to the first empty one, or up to a number of them. -/
def drain (s : Option Store) : (limit : Nat) → ObjectScan → Except Error (List (List LoopObject))
  | 0, _ => pure []
  | limit + 1, scan => do
    match scan.next s with
    | (.error e, _) => throw e
    | (.ok [], _) => return [[]]
    | (.ok batch, scan) => return batch :: (← drain s limit scan)

end ObjectScan

/-- A scan of segments under way. -/
structure SegmentScan where
  batchSize : Nat
  asOf : Instant
  /-- The key of the row seen last. -/
  cursor : SegmentId := ⟨.zero, -9223372036854775808⟩
  done : Bool := false
  /-- The tables as the first batch saw them. -/
  snapshot : Option Store := none

namespace SegmentScan

/-- A scan of the rows created up to a time, by default up to now. -/
def start (now : Instant) (batchSize : Nat) (asOf : Option Instant) : SegmentScan :=
  { batchSize := loopBatch batchSize, asOf := asOf.getD now }

/-- The rows a scan has not seen. -/
def rest (scan : SegmentScan) (s : Store) : List SegmentRow :=
  s.segments.rows.filter fun r =>
    r.createdAt.notAfter scan.asOf && compare scan.cursor r.id = .lt

/-- The rows of the next batch, and the scan that goes on after them. -/
def fetch (scan : SegmentScan) (s : Store) : Except Error (List SegmentRow × SegmentScan) := do
  if scan.done then return ([], scan)
  let rows := (scan.rest s).take scan.batchSize
  SegmentRow.require .scanSegments (·.isReadable) rows
  let cursor := rows.getLast?.elim scan.cursor (·.id)
  return (rows, { scan with cursor, done := rows.length < scan.batchSize })

/-- The number of segment rows that there can be room for at once: a row takes 240 bytes, and a block
of memory has at most 2^63 - 1. -/
def capacity : Nat := 9223372036854775807 / 240

/-- Whether a scan that goes on asks for more room than there can be. Room for a whole batch is made
before the batch is fetched, however few rows there are. -/
def overflows (scan : SegmentScan) : Bool := !scan.done && decide (capacity < scan.batchSize)

end SegmentScan

namespace Catalog

/-- The next batch of segments, for which there is room, and the scan that goes on. A batch that was
fetched is passed also when it cannot be resolved. -/
def fetchSegments (scan : SegmentScan) :
    StateM Catalog (Except Error (List LoopSegment) × SegmentScan) := do
  let c ← get
  match scan.snapshot.or c.store with
  | none => return (.error (.storage .scanSegments), scan)
  | some s =>
    let scan := { scan with snapshot := some s }
    match scan.fetch s with
    | .error e => return (.error e, scan)
    | .ok (rows, scan) =>
      let lookup := s.resolveBatch c.settings.serverSideCopy rows
      let (outcome, cache) := (ExceptT.run lookup).run c.cache
      set { c with cache }
      return (outcome.map (·.map (·.forLoop)), scan)

/-- The next batch of segments, and the scan that goes on. A scan that asks for too much room stays as
it was: it has not begun to read. -/
def nextSegments (scan : SegmentScan) :
    StateM Catalog (Except Error (List LoopSegment) × SegmentScan) := do
  if scan.overflows then return (.error .capacityOverflow, scan) else fetchSegments scan

/-- The batches of a scan up to the first empty one, or up to a number of them. -/
def drainSegments : (limit : Nat) → SegmentScan → Action (List (List LoopSegment))
  | 0, _ => return []
  | limit + 1, scan => do
    let (outcome, scan) ← nextSegments scan
    match ← outcome with
    | [] => return [[]]
    | batch => return batch :: (← drainSegments limit scan)

/-- All batches of objects. -/
def scanObjects (now : Instant) (batchSize : Nat) (asOf : Option Instant) :
    Action (List (List LoopObject)) := do
  let c ← get
  (ObjectScan.start now batchSize asOf).drain c.store
    (c.store.elim 0 (·.objects.rows.length) + 1)

/-- All batches of segments. -/
def scanSegments (now : Instant) (batchSize : Nat) (asOf : Option Instant) :
    Action (List (List LoopSegment)) := do
  let c ← get
  drainSegments (c.store.elim 0 (·.segments.rows.length) + 1)
    (SegmentScan.start now batchSize asOf)

end Catalog

end ObjectCatalog
