import ObjectCatalog.Column
import ObjectCatalog.Piece
import ObjectCatalog.Piece.Blob
import ObjectCatalog.Redundancy
import ObjectCatalog.Time.Instant

/-!
# Segments

A segment is the slice of an object's content at one position of its stream. Its content is kept in
the row (inline), on storage nodes (remote), or, in a copy of an object, with the segment at the
same position of another stream, the ancestor.

* `SegmentRow`: a segment as the table holds it, under the key `SegmentRow.id`.
* `SegmentRow.piecesInAncestor`: which rows need their ancestor to be read.
* `SegmentRow.view`: the segment of a row once its pieces are known.
-/

namespace ObjectCatalog

/-- A position that can be written: its stored value is not negative. -/
def Position.check (p : Position) : Except Error Unit :=
  reject (Position.maxPart < p.part) (.partTooHigh p.part)

/-- A segment as callers see it, with its pieces on storage nodes. -/
structure Segment where
  stream : StreamId
  position : Position
  createdAt : Instant
  expiresAt : Option Instant
  repairedAt : Option Instant
  rootPiece : PieceId
  keyNonce : Bytes
  key : Bytes
  encryptedSize : Int32
  plainOffset : Int
  plainSize : Int32
  etag : Option Bytes
  redundancy : Redundancy
  inlineData : Bytes
  pieces : List Piece
  deriving DecidableEq

namespace Segment

/-- Whether no storage node takes part in a segment. -/
def isInline (s : Segment) : Bool := s.redundancy.isZero && s.pieces.isEmpty

/-- Whether a segment has content but neither data nor pieces of its own. -/
def piecesInAncestor (s : Segment) : Bool :=
  s.encryptedSize ≠ 0 && s.inlineData.isEmpty && s.pieces.isEmpty

end Segment

/-- The pieces of a removed segment that no stream refers to any more. -/
structure ReleasedPieces where
  rootPiece : PieceId
  pieces : List Piece
  deriving DecidableEq

/-- The primary key of segment rows. -/
structure SegmentId where
  stream : StreamId
  position : Int
  deriving DecidableEq

/-- Segment keys in order of stream and stored position. -/
def SegmentId.order : SegmentId → SegmentId → Ordering :=
  compareLex (compareOn (·.stream)) (compareOn (·.position))

instance : Ord SegmentId := ⟨SegmentId.order⟩

instance : Std.TransOrd SegmentId :=
  inferInstanceAs <| Std.TransCmp <|
    compareLex (compareOn fun i : SegmentId => i.stream) (compareOn (·.position))

/-- A segment as the table holds it. -/
structure SegmentRow where
  stream : StreamId
  position : Int
  createdAt : Instant
  expiresAt : Option Instant := none
  repairedAt : Option Instant := none
  rootPiece : Bytes
  keyNonce : Bytes
  key : Bytes
  encryptedSize : Int
  plainOffset : Int
  plainSize : Int
  etag : Option Bytes := none
  redundancy : Int := 0
  inlineData : Option Bytes := none
  blob : Option Bytes := none
  deriving DecidableEq

namespace SegmentRow

/-- The primary key of a row. -/
def id (r : SegmentRow) : SegmentId := ⟨r.stream, r.position⟩

/-- The position of a row in its stream. -/
def place (r : SegmentRow) : Position := .ofColumn r.position

/-- Whether a row holds data of its own. -/
def hasInlineData (r : SegmentRow) : Bool := r.inlineData.any (!·.isEmpty)

/-- Whether a row holds pieces of its own. -/
def holdsPieces (r : SegmentRow) : Bool := Blob.holdsPieces r.blob

/-- Whether the pieces of a row are with its ancestor: it has content, but holds neither data nor
pieces. -/
def piecesInAncestor (r : SegmentRow) : Bool :=
  r.encryptedSize ≠ 0 && !r.hasInlineData && !r.holdsPieces

/-- The root piece id of a row, when the stored bytes are one. -/
def rootPiece? (r : SegmentRow) : Option PieceId := Id.ofBytes? r.rootPiece

/-- Whether the sizes of a row can be read. -/
def hasReadableSizes (r : SegmentRow) : Bool :=
  (int32? r.encryptedSize).isSome && (int32? r.plainSize).isSome

/-- Whether every column of a row can be read. -/
def isReadable (r : SegmentRow) : Bool := r.rootPiece?.isSome && r.hasReadableSizes

/-- A row with the pieces of another row, their root piece id and their repair time. -/
def withPiecesOf (r held : SegmentRow) : SegmentRow :=
  { r with rootPiece := held.rootPiece, repairedAt := held.repairedAt, blob := held.blob }

/-- The segment of a readable row with its pieces. -/
def view (r : SegmentRow) (pieces : List Piece) : Segment where
  stream := r.stream
  position := r.place
  createdAt := r.createdAt
  expiresAt := r.expiresAt
  repairedAt := r.repairedAt
  rootPiece := r.rootPiece?.getD .zero
  keyNonce := r.keyNonce
  key := r.key
  encryptedSize := .ofInt r.encryptedSize
  plainOffset := r.plainOffset
  plainSize := .ofInt r.plainSize
  etag := r.etag
  redundancy := .unpack r.redundancy
  inlineData := r.inlineData.getD []
  pieces := pieces

/-- Fails as a statement does that comes upon a row that lacks a quality. -/
def require (statement : Statement) (quality : SegmentRow → Bool) (rows : List SegmentRow) :
    Except Error Unit :=
  if rows.all quality then pure () else throw (.storage statement)

end SegmentRow

end ObjectCatalog
