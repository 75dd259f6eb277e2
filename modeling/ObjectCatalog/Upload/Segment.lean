import ObjectCatalog.Upload.Begin

/-!
# Storing the segments of an upload

A segment of a pending object is stored over whatever was at its position, so a client can repeat an
upload that failed: the last write wins. A row that is there is changed column by column, by each kind
of segment in its own way.

* `CommitSegment.store`, `CommitInlineSegment.store`: a segment in the table.
* `Catalog.commitSegment`: stores a segment whose pieces are on storage nodes. Aliases for the nodes
  are given out first and stay when the segment is not stored.
* `Catalog.commitInlineSegment`: stores a segment with its data.
-/

namespace ObjectCatalog

/-- Checks the key of a segment and its nonce. -/
def checkKeyMaterial (key nonce : Bytes) : Except Error Unit := do
  reject key.isEmpty .noEncryptedKey
  reject nonce.isEmpty .noKeyNonce

/-- A segment with pieces on storage nodes. -/
structure CommitSegment where
  stream : ObjectStream
  position : Position
  rootPiece : PieceId
  keyNonce : Bytes
  key : Bytes
  plainOffset : Int64
  plainSize : Int32
  encryptedSize : Int32
  etag : Option Bytes := none
  redundancy : Redundancy
  pieces : List Piece
  deriving DecidableEq

namespace CommitSegment

/-- Checks a remote segment. -/
def check (r : CommitSegment) (validatePlainSize : Bool) : Except Error Unit := do
  r.stream.check
  r.position.check
  reject r.rootPiece.isZero .noRootPiece
  Piece.checkAll r.pieces
  checkKeyMaterial r.key r.keyNonce
  reject (r.encryptedSize ≤ 0) .encryptedSizeNotPositive
  reject (validatePlainSize && r.plainSize ≤ 0) .plainSizeNotPositive
  reject (r.plainSize < 0) .plainSizeNegative
  reject (r.plainOffset < 0) .plainOffsetNegative
  reject r.redundancy.isZero .noRedundancy
  reject (r.redundancy.optimal < 0 || r.pieces.length < r.redundancy.optimal.toInt) .tooFewPieces

/-- The row of a remote segment of a pending object. -/
def row (r : CommitSegment) (now : Instant) (pending : ObjectRow) (pieces : List AliasPiece) :
    SegmentRow where
  stream := r.stream.stream
  position := r.position.column
  createdAt := now
  expiresAt := pending.expiresAt
  rootPiece := r.rootPiece.bytes
  keyNonce := r.keyNonce
  key := r.key
  encryptedSize := r.encryptedSize.toInt
  plainOffset := r.plainOffset.toInt
  plainSize := r.plainSize.toInt
  etag := r.etag
  redundancy := r.redundancy.pack
  blob := some (Blob.encode pieces)

/-- What a remote segment makes of the row that was at its position. -/
def overwrite (row old : SegmentRow) : SegmentRow :=
  { old with
    createdAt := row.createdAt
    expiresAt := row.expiresAt
    repairedAt := none
    rootPiece := row.rootPiece
    keyNonce := row.keyNonce
    key := row.key
    encryptedSize := row.encryptedSize
    plainOffset := row.plainOffset
    plainSize := row.plainSize
    etag := row.etag
    redundancy := row.redundancy
    inlineData := none
    blob := row.blob }

/-- The table with a remote segment of a pending object. -/
def store (r : CommitSegment) (now : Instant) (pending : ObjectRow) (pieces : List AliasPiece)
    (segments : Table SegmentRow.id) : Table SegmentRow.id :=
  let row := r.row now pending pieces
  segments.upsert row (overwrite row)

end CommitSegment

/-- A segment with its data. No data is a segment of length zero. -/
structure CommitInlineSegment where
  stream : ObjectStream
  position : Position
  keyNonce : Bytes
  key : Bytes
  plainOffset : Int64
  plainSize : Int32
  etag : Option Bytes := none
  inlineData : Bytes
  deriving DecidableEq

namespace CommitInlineSegment

/-- Checks an inline segment. -/
def check (r : CommitInlineSegment) : Except Error Unit := do
  r.stream.check
  r.position.check
  checkKeyMaterial r.key r.keyNonce
  reject (r.plainSize < 0) .plainSizeNegative
  reject (r.plainOffset < 0) .plainOffsetNegative

/-- The row of an inline segment of a pending object. Its encrypted size is the length of the data
as a signed 32-bit number. -/
def row (r : CommitInlineSegment) (now : Instant) (pending : ObjectRow) : SegmentRow where
  stream := r.stream.stream
  position := r.position.column
  createdAt := now
  expiresAt := pending.expiresAt
  rootPiece := (Id.zero : PieceId).bytes
  keyNonce := r.keyNonce
  key := r.key
  encryptedSize := (r.inlineData.length : Int).bmod 4294967296
  plainOffset := r.plainOffset.toInt
  plainSize := r.plainSize.toInt
  etag := r.etag
  inlineData := some r.inlineData

/-- What an inline segment makes of the row that was at its position. -/
def overwrite (row old : SegmentRow) : SegmentRow :=
  { old with
    createdAt := row.createdAt
    expiresAt := row.expiresAt
    repairedAt := none
    rootPiece := row.rootPiece
    keyNonce := row.keyNonce
    key := row.key
    encryptedSize := row.encryptedSize
    plainOffset := row.plainOffset
    plainSize := row.plainSize
    etag := row.etag
    redundancy := 0
    inlineData := row.inlineData
    blob := none }

/-- The table with an inline segment of a pending object. -/
def store (r : CommitInlineSegment) (now : Instant) (pending : ObjectRow)
    (segments : Table SegmentRow.id) : Table SegmentRow.id :=
  let row := r.row now pending
  segments.upsert row (overwrite row)

end CommitInlineSegment

namespace Catalog

/-- Stores a remote segment of a pending object. -/
def commitSegment (now : Instant) (r : CommitSegment) : Action Unit := do
  r.check (← get).settings.validatePlainSize
  let pieces ← aliasesOf r.pieces
  let s ← tables .fetchObject
  let pending ← s.pending r.stream
  commit { s with segments := r.store now pending pieces s.segments }

/-- Stores an inline segment of a pending object. -/
def commitInlineSegment (now : Instant) (r : CommitInlineSegment) : Action Unit := do
  r.check
  let s ← tables .fetchObject
  let pending ← s.pending r.stream
  commit { s with segments := r.store now pending s.segments }

end Catalog

end ObjectCatalog
