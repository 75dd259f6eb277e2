import ObjectCatalog.Catalog

/-!
# Starting an upload

An upload starts with a pending row, at the next free version of its key or at a version of the
caller's choice. A remote segment is announced before its pieces are sent; that changes nothing and
only tells whether the segment could be stored.

* `Catalog.beginNextVersion`: one version above every row of the key, in any status.
* `Catalog.beginExactVersion`: the version asked for, unless a row has it.
* `Catalog.beginSegment`: the check of a remote segment.
-/

namespace ObjectCatalog

/-- The start of an upload. -/
structure BeginObject where
  stream : ObjectStream
  expiresAt : Option Instant := none
  /-- When the upload may be swept; by default after the time the settings give. -/
  zombieDeadline : Option Instant := none
  metadata : MetadataParts := {}
  encryption : Encryption
  deriving DecidableEq

namespace BeginObject

/-- Checks a request and returns its metadata. -/
def check (r : BeginObject) : Except Error (Option Metadata) := do
  r.stream.check
  reject r.encryption.isZero .noEncryption
  r.metadata.check

/-- The pending row of a request at a version. -/
def row (r : BeginObject) (settings : Settings) (now : Instant) (metadata : Option Metadata)
    (version : Int) : ObjectRow where
  location := r.stream.location
  version := version
  stream := r.stream.stream
  createdAt := now
  expiresAt := r.expiresAt
  status := Status.pending.code
  metadata := .ofMetadata metadata
  encryption := r.encryption.pack
  zombieDeadline := some (r.zombieDeadline.getD (now.addMinutes settings.zombieDeadlineMinutes))

end BeginObject

/-- The announcement of a remote segment. -/
structure BeginSegment where
  stream : ObjectStream
  position : Position
  rootPiece : PieceId
  pieces : List Piece
  deriving DecidableEq

/-- Checks an announcement. -/
def BeginSegment.check (r : BeginSegment) : Except Error Unit := do
  r.stream.check
  r.position.check
  reject r.rootPiece.isZero .noRootPiece
  Piece.checkAll r.pieces

/-- The pending object of a stream identity. -/
def Store.pending (s : Store) (stream : ObjectStream) : Except Error ObjectRow :=
  match s.objectOf? stream .pending with
  | none => throw (.pendingMissing stream.stream)
  | some row => do
    let _ ← row.view .fetchObject
    return row

namespace Catalog

/-- Starts an upload at the next free version of its key. The row stays also when its version is too
great to be read back. -/
def beginNextVersion (now : Instant) (r : BeginObject) : Action Object := do
  let metadata ← r.check
  reject (r.stream.version ≠ 0) .notNextVersion
  let s ← tables .beginNextVersion
  let row := r.row (← get).settings now metadata (s.nextVersion r.stream.location)
  if s.objects.contains row.id then
    throw (.objectExists (.next r.stream.location.key))
  commit (s.addObject row)
  row.view .beginNextVersion

/-- Starts an upload at a version of the caller's choice. -/
def beginExactVersion (now : Instant) (r : BeginObject) : Action Object := do
  let metadata ← r.check
  reject (r.stream.version = 0) .nextVersion
  let s ← tables .beginExactVersion
  let row := r.row (← get).settings now metadata r.stream.version.toInt
  if s.objects.contains row.id then
    throw (.objectExists (.exact r.stream.version r.stream.location.key))
  commit (s.addObject row)
  row.view .beginExactVersion

/-- Checks a remote segment against the pending object it is for. -/
def beginSegment (r : BeginSegment) : Action Unit := do
  r.check
  let s ← tables .fetchObject
  let _ ← s.pending r.stream

end Catalog

end ObjectCatalog
