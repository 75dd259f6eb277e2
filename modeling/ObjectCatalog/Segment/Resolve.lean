import ObjectCatalog.Node.Cache
import ObjectCatalog.Store

/-!
# Resolving segments

A stored row becomes a segment once its pieces are known by their nodes. A row whose pieces are with
its ancestor takes the root piece id, the repair time and the pieces of the ancestor's row at the
same position. Ancestors hold their own pieces, so one step is enough.

A batch of rows asks for the ancestor of a stream once and remembers the answer, also when there is
none.

* `Store.withAncestor`: the row with what it takes from its ancestor.
* `Store.resolve`: the segment of a row.
* `Store.resolveBatch`: the segments of a batch of rows.
-/

namespace ObjectCatalog

/-- The ancestors of streams that a batch has asked for. -/
abbrev AncestorMemo := List (StreamId × Option StreamId)

namespace Store

/-- A row with what it takes from the row at its place in an ancestor. -/
def fromAncestor (s : Store) (r : SegmentRow) : Option StreamId → Except Error SegmentRow
  | none => throw (.corrupted (.noAncestor r.place r.stream))
  | some ancestor =>
    match s.segment? ancestor r.place with
    | none => throw (.corrupted (.noAncestorSegment ancestor r.place))
    | some held => do
      SegmentRow.require .fetchAncestorSegment (·.rootPiece?.isSome) [held]
      return r.withPiecesOf held

/-- A row with what it takes from its ancestor, if its pieces are there and copies are resolved. -/
def withAncestor (s : Store) (serverSideCopy : Bool) (r : SegmentRow) : Except Error SegmentRow :=
  if serverSideCopy && r.piecesInAncestor then s.fromAncestor r (s.ancestorOf? r.stream)
  else pure r

/-- The segment of a readable row that has its pieces. -/
def present (s : Store) (r : SegmentRow) : Lookup Segment := do
  let aliases ← Blob.stored r.blob
  let pieces ← Lookup.pieces s.nodes aliases
  return r.view pieces

/-- The segment of a readable row. -/
def resolve (s : Store) (serverSideCopy : Bool) (r : SegmentRow) : Lookup Segment := do
  let r ← s.withAncestor serverSideCopy r
  s.present r

/-- The ancestor of a stream, and what a batch remembers then. -/
def askAncestor (s : Store) (memo : AncestorMemo) (stream : StreamId) :
    Option StreamId × AncestorMemo :=
  match memo.lookup stream with
  | some ancestor => (ancestor, memo)
  | none => (s.ancestorOf? stream, (stream, s.ancestorOf? stream) :: memo)

/-- The segments of readable rows, in one batch that remembers the ancestors. -/
def resolveFrom (s : Store) (serverSideCopy : Bool) :
    AncestorMemo → List SegmentRow → Lookup (List Segment)
  | _, [] => return []
  | memo, r :: rows => do
    if serverSideCopy && r.piecesInAncestor then
      let (ancestor, memo) := s.askAncestor memo r.stream
      let r ← s.fromAncestor r ancestor
      let segment ← s.present r
      return segment :: (← s.resolveFrom serverSideCopy memo rows)
    else
      let segment ← s.present r
      return segment :: (← s.resolveFrom serverSideCopy memo rows)

/-- The segments of readable rows, in one batch. -/
def resolveBatch (s : Store) (serverSideCopy : Bool) (rows : List SegmentRow) :
    Lookup (List Segment) := s.resolveFrom serverSideCopy [] rows

/-- The segments of rows that a statement selected. -/
def resolveAll (s : Store) (serverSideCopy : Bool) (statement : Statement)
    (rows : List SegmentRow) : Lookup (List Segment) := do
  SegmentRow.require statement (·.isReadable) rows
  s.resolveBatch serverSideCopy rows

end Store

end ObjectCatalog
