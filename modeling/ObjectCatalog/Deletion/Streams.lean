import ObjectCatalog.Store

/-!
# Removing streams

When streams are removed their segments go, and so do the copy relations of removed copies. A
removed ancestor that still has copies hands its pieces to the copy with the lowest stream id, which
becomes the ancestor of the others. Relations of removed copies go first, so no pieces are handed to
a copy that is removed in the same call.

* `Store.takeSegments`: removes the segments of streams.
* `Store.promote`: hands the pieces of a removed ancestor to one of its copies.
* `Store.removeStreams`: all of it; returns the rows whose pieces nothing refers to any more.
-/

namespace ObjectCatalog

namespace Store

/-- Removes the segments of streams, and returns them stream by stream. -/
def takeSegments : Store → List StreamId → List (StreamId × List SegmentRow) × Store
  | s, [] => ([], s)
  | s, stream :: streams =>
    let taken := s.segmentsOf stream
    let (rest, s) :=
      takeSegments { s with segments := s.segments.filter (·.stream ≠ stream) } streams
    ((stream, taken) :: rest, s)

/-- Removes the copy relations of streams. -/
def dropRelations (s : Store) (streams : List StreamId) : Store :=
  { s with copies := s.copies.filter fun r => decide (r.stream ∉ streams) }

/-- Hands the rows of a removed ancestor to the rows of a copy at the same positions. -/
def handOver (s : Store) (promoted : StreamId) (held : List SegmentRow) : Store :=
  let take (r : SegmentRow) : SegmentRow :=
    match held.find? fun h => h.position = r.position with
    | some h => r.withPiecesOf h
    | none => r
  { s with
    segments := s.segments.updateIf (·.stream = promoted) take fun r => by
      simp only [take]; split <;> rfl }

/-- Makes a copy the ancestor of the other copies of a removed ancestor. -/
def repoint (s : Store) (ancestor promoted : StreamId) : Store :=
  { s with
    copies := (s.copies.filter (·.stream ≠ promoted)).updateIf (·.ancestor = ancestor)
      (fun r => { r with ancestor := promoted }) fun _ => rfl }

/-- Promotes a copy of a removed ancestor. Returns the ancestor's rows with pieces for which the
copy has no row. -/
def promote (s : Store) (ancestor promoted : StreamId) (rows : List SegmentRow) :
    List SegmentRow × Store :=
  let (held, orphaned) := (rows.filter (·.holdsPieces)).partition fun r =>
    s.segments.contains ⟨promoted, r.position⟩
  (orphaned, (s.handOver promoted held).repoint ancestor promoted)

/-- Settles the copies of removed streams one stream after the other. Returns the rows whose pieces
nobody took. -/
def settle : Store → List (StreamId × List SegmentRow) → List SegmentRow × Store
  | s, [] => ([], s)
  | s, (stream, rows) :: rest =>
    let (orphaned, s) :=
      match s.copiesOf stream with
      | [] => (rows, s)
      | promoted :: _ => s.promote stream promoted rows
    let (more, s) := settle s rest
    (orphaned ++ more, s)

/-- Removes streams. Returns the rows whose pieces nothing refers to any more. -/
def removeStreams (s : Store) (streams : List StreamId) :
    Except Error (List SegmentRow × Store) := do
  let (taken, s) := s.takeSegments streams
  SegmentRow.require .deleteSegments (·.rootPiece?.isSome) (taken.flatMap (·.2))
  return (s.dropRelations streams).settle taken

end Store

end ObjectCatalog
