import ObjectCatalog.Reading

/-!
# Server-side copies

A copy is a committed object with segments of its own that carry new keys but no pieces. Its copy
relation names the stream that holds the pieces: the ancestor of the source, or the source itself.
So a copy of a copy has the same ancestor as the copy. Inline segments are duplicated.

* `Catalog.beginCopy`: what a client needs to prepare the keys of a copy.
* `Catalog.finishCopy`: stores the copy at the next version of its key.
-/

namespace ObjectCatalog

/-- The object to copy: the latest version when none is given. -/
structure BeginCopy where
  location : Location
  version : Option Int64 := none
  deriving DecidableEq

/-- The key of a segment and its nonce. -/
structure SegmentKey where
  position : Position
  nonce : Bytes
  key : Bytes
  deriving DecidableEq

/-- What a client needs to prepare a copy. -/
structure CopySource where
  stream : StreamId
  version : Int64
  metadata : Option Metadata
  encryption : Encryption
  keys : List SegmentKey
  deriving DecidableEq

/-- The copy of an object. -/
structure FinishCopy where
  source : ObjectStream
  newBucket : String
  newKey : Bytes
  newStream : StreamId
  /-- One key for each segment of the source, in any order. -/
  newKeys : List SegmentKey
  /-- Whether the metadata below, if any, takes the place of that of the source. Otherwise only its
  nonce and key do. -/
  overrideMetadata : Bool := false
  newMetadata : MetadataParts := {}
  deriving DecidableEq

namespace FinishCopy

/-- Checks the identities of a copy. -/
def check (r : FinishCopy) : Except Error Unit := do
  r.source.check
  reject r.newBucket.isEmpty .noNewBucket
  reject r.newKey.isEmpty .noNewKey
  reject r.newStream.isZero .noNewStream
  reject (r.newStream = r.source.stream) .sameStream

/-- The key of a copy. -/
def location (r : FinishCopy) : Location := ⟨r.source.location.project, r.newBucket, r.newKey⟩

/-- The metadata of a copy: given anew, or that of the source under a new nonce and key. -/
def metadata (r : FinishCopy) (source : Option Metadata) : Except Error (Option Metadata) :=
  if r.overrideMetadata then r.newMetadata.check
  else
    match source with
    | none => pure none
    | some source =>
      match r.newMetadata.nonce, r.newMetadata.key with
      | some nonce, some key => do
        reject (nonce.isEmpty || key.isEmpty) .noMetadataKey
        return some ⟨source.data, nonce, key⟩
      | _, _ => throw (.rejected .noMetadataKey)

/-- The keys of a copy in position order; keys of one position keep their order. -/
def sortedKeys (r : FinishCopy) : List SegmentKey :=
  r.newKeys.mergeSort fun a b => a.position.atMost b.position

/-- Pairs segments in position order with the keys for them. -/
def pair : List SegmentRow → List SegmentKey → Except Error (List (SegmentRow × SegmentKey))
  | row :: rows, key :: keys => do
    reject (row.place ≠ key.position) (.noKeysFor row.place)
    let rest ← pair rows keys
    return (row, key) :: rest
  | _, _ => pure []

/-- The object row of a copy. -/
def objectRow (r : FinishCopy) (now : Instant) (source : Object) (metadata : Option Metadata)
    (version : Int) : ObjectRow where
  location := r.location
  version := version
  stream := r.newStream
  createdAt := now
  expiresAt := source.expiresAt
  status := Status.committed.code
  segmentCount := source.segmentCount.toInt
  metadata := .ofMetadata metadata
  totalPlainSize := source.totalPlainSize
  totalEncryptedSize := source.totalEncryptedSize
  fixedSegmentSize := source.fixedSegmentSize.toInt
  encryption := source.encryption.pack

end FinishCopy

namespace SegmentRow

/-- Whether a copy of a row has the data of the row and not its pieces. -/
def isDuplicated (r : SegmentRow) : Bool := r.redundancy = 0 && !r.holdsPieces

/-- The row of a copy for a row of its source. -/
def copied (r : SegmentRow) (now : Instant) (stream : StreamId) (key : SegmentKey) :
    SegmentRow where
  stream := stream
  position := r.position
  createdAt := now
  expiresAt := r.expiresAt
  rootPiece := (Id.zero : PieceId).bytes
  keyNonce := key.nonce
  key := key.key
  encryptedSize := r.encryptedSize
  plainOffset := r.plainOffset
  plainSize := r.plainSize
  etag := r.etag
  redundancy := r.redundancy
  inlineData := if r.isDuplicated then r.inlineData else none

end SegmentRow

namespace Store

/-- The committed object of a stream identity, as a copy looks for it. -/
def copySource (s : Store) (stream : ObjectStream) : Except Error Object :=
  match s.objectOf? stream .committed with
  | none => throw (.objectNotFound (.copySource stream.location.key stream.version))
  | some row => row.view .fetchObject

/-- The segments of the source of a copy with the keys for them. Every segment must have a key, and
the source must have as many segments as it says. -/
def copyKeys (s : Store) (r : FinishCopy) (count : Int) :
    Except Error (List (SegmentRow × SegmentKey)) := do
  let rows := s.segmentsOf r.source.stream
  SegmentRow.require .finishCopy (·.isReadable) rows
  if (rows.length : Int) ≠ count then
    throw (.corrupted (.segmentCount r.source.stream count rows.length))
  FinishCopy.pair rows r.sortedKeys

/-- Adds rows of a copy, none of whose keys may be taken. -/
def addCopied : Store → List SegmentRow → Except Error Store
  | s, [] => pure s
  | s, row :: rows =>
    if s.segments.contains row.id then throw (.storage .finishCopy)
    else addCopied { s with segments := s.segments.insert row } rows

/-- Adds the relation of a copy, which must not have one. -/
def addRelation (s : Store) (row : CopyRow) : Except Error Store :=
  if s.copies.contains row.stream then throw (.storage .finishCopy)
  else pure { s with copies := s.copies.insert row }

/-- Adds a copy to the tables. -/
def finishCopy (s : Store) (now : Instant) (r : FinishCopy) : Except Error (Object × Store) := do
  let source ← s.copySource r.source
  let count := source.segmentCount.toInt
  reject ((r.newKeys.length : Int) ≠ count) (.wrongKeyCount r.newKeys.length count)
  let metadata ← r.metadata source.metadata
  let pairs ← s.copyKeys r count
  let row := r.objectRow now source metadata (s.nextVersion r.location)
  let object ← row.view .finishCopy
  let rows := pairs.map fun (segment, key) => segment.copied now r.newStream key
  let ancestor := (s.ancestorOf? r.source.stream).getD r.source.stream
  let s ← (s.addObject row).addCopied rows
  let s ← if pairs.all (·.1.isDuplicated) then pure s
    else s.addRelation ⟨r.newStream, ancestor⟩
  return (object, s)

end Store

namespace Catalog

/-- What a client needs to prepare a copy of a committed object. -/
def beginCopy (r : BeginCopy) : Action CopySource := do
  r.location.check
  reject (r.version.any (· ≤ 0)) .badVersion
  let (s, object) ←
    match r.version with
    | some version => do
      let s ← tables .getExactVersion
      pure (s, ← s.exactCommitted r.location version)
    | none => do
      let s ← tables .getLatestVersion
      pure (s, ← s.latestCommitted r.location)
  let keys := (s.segmentsOf object.stream.stream).map fun row =>
    { position := row.place, nonce := row.keyNonce, key := row.key : SegmentKey }
  return ⟨object.stream.stream, object.stream.version, object.metadata, object.encryption, keys⟩

/-- Stores a copy at the next version of its key. -/
def finishCopy (now : Instant) (r : FinishCopy) : Action Object := do
  r.check
  let s ← tables .fetchObject
  let (object, s) ← s.finishCopy now r
  commit s
  return object

end Catalog

end ObjectCatalog
