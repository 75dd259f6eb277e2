import ObjectCatalog.Upload.Begin
import ObjectCatalog.Upload.Parts

/-!
# Completing an upload

A pending object becomes committed with the segments it has by then, or with those of a list. Sizes
are added up from its segments, and the segments are laid out in position order.

* `Catalog.commitObject`: completes an upload with all its segments.
* `Catalog.commitObjectWithSegments`: drops the segments that are not listed first.
* `Catalog.updateMetadata`: replaces the metadata of a committed object.
-/

namespace ObjectCatalog

/-- The completion of an upload. -/
structure CommitObject where
  stream : ObjectStream
  /-- Takes the place of the encryption given at the start, unless it is zero. -/
  encryption : Encryption := {}
  /-- Whether the metadata below, if any, takes the place of that given at the start. -/
  overrideMetadata : Bool := false
  metadata : MetadataParts := {}
  deriving DecidableEq

namespace CommitObject

/-- Checks a request and returns its metadata, which counts only when it overrides. -/
def check (r : CommitObject) : Except Error (Option Metadata) := do
  r.stream.check
  if r.overrideMetadata then r.metadata.check else pure none

/-- The committed row of a pending row with its segments. -/
def row (r : CommitObject) (metadata : Option Metadata) (pending : ObjectRow)
    (segments : List SegmentRow) : ObjectRow :=
  { pending with
    status := Status.committed.code
    segmentCount := (segments.length : Int).bmod 4294967296
    totalPlainSize := sumOf (·.plainSize) segments
    totalEncryptedSize := sumOf (·.encryptedSize) segments
    fixedSegmentSize := fixedSegmentSize segments
    zombieDeadline := none
    encryption := if r.encryption.pack = 0 then pending.encryption else r.encryption.pack
    metadata := if r.overrideMetadata then .ofMetadata metadata else pending.metadata }

end CommitObject

/-- The completion of an upload with some of its segments. -/
structure CommitObjectWithSegments where
  commit : CommitObject
  /-- The positions of the segments to keep, strictly ascending. -/
  segments : List Position
  deriving DecidableEq

/-- Checks that positions are strictly ascending. -/
def checkAscending : List Position → Except Error Unit
  | p :: q :: rest => do
    reject (p = q) (.segmentRepeated p)
    reject (compare p q = .gt) .segmentsUnordered
    checkAscending (q :: rest)
  | _ => pure ()

/-- New metadata for a committed object. -/
structure UpdateMetadata where
  stream : ObjectStream
  metadata : MetadataParts
  deriving DecidableEq

namespace Store

/-- The pending object of a stream identity, as its completion looks for it. -/
def pendingForCommit (s : Store) (stream : ObjectStream) : Except Error ObjectRow :=
  match s.objectOf? stream .pending with
  | none => throw (.objectNotFound .pendingForCommit)
  | some row => do
    let _ ← row.view .fetchObject
    return row

/-- Puts segment rows in their places. -/
def putSegments (s : Store) (rows : List SegmentRow) : Store :=
  { s with segments := rows.foldl .insert s.segments }

/-- Removes the segments of a stream that are not at the positions of a list. -/
def dropOtherSegments (s : Store) (stream : StreamId) (kept : List Position) : Store :=
  { s with segments := s.segments.filter fun r => r.stream ≠ stream || decide (r.place ∈ kept) }

/-- Commits a pending row with its segments. -/
def complete (s : Store) (settings : Settings) (r : CommitObject) (metadata : Option Metadata)
    (pending : ObjectRow) (segments : List SegmentRow) : Except Error (Object × Store) := do
  Parts.check segments settings.minPartSize settings.maxParts
  let row := r.row metadata pending segments
  let s := s.putSegments (withOffsets 0 segments)
  let object ← row.view .commitObject
  return (object, { s with objects := s.objects.insert row })

end Store

namespace Catalog

/-- Completes an upload with all its segments. -/
def commitObject (r : CommitObject) : Action Object := do
  let metadata ← r.check
  let s ← tables .fetchObject
  let pending ← s.pendingForCommit r.stream
  let segments := s.segmentsOf r.stream.stream
  SegmentRow.require .commitObject (·.hasReadableSizes) segments
  let (object, s) ← s.complete (← get).settings r metadata pending segments
  commit s
  return object

/-- Completes an upload with the segments of a list, and reports the pieces of the others. -/
def commitObjectWithSegments (r : CommitObjectWithSegments) :
    Action (Object × List ReleasedPieces) := do
  let metadata ← r.commit.check
  checkAscending r.segments
  let s ← tables .fetchObject
  let stream := r.commit.stream.stream
  let pending ← s.pendingForCommit r.commit.stream
  let stored := s.segmentsOf stream
  SegmentRow.require .commitObjectWithSegments (·.isReadable) stored
  if let some absent := r.segments.find? fun p => !stored.any (·.place = p) then
    throw (.rejected (.segmentNotStored absent))
  let (kept, dropped) := stored.partition fun row => decide (row.place ∈ r.segments)
  let released ← reading (SegmentRow.release s.nodes dropped)
  let s := s.dropOtherSegments stream r.segments
  let (object, s) ← s.complete (← get).settings r.commit metadata pending kept
  commit s
  return (object, released)

/-- Replaces the metadata of a committed object. -/
def updateMetadata (r : UpdateMetadata) : Action Unit := do
  r.stream.check
  let metadata ← r.metadata.check
  let s ← tables .updateMetadata
  match s.objectOf? r.stream .committed with
  | none =>
    let { location, version, stream } := r.stream
    throw (.objectNotFound (.committed location.key version stream))
  | some row =>
    commit { s with objects := s.objects.insert { row with metadata := .ofMetadata metadata } }

end Catalog

end ObjectCatalog
