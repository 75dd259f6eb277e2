import ObjectCatalog.Store

/-!
# Row edits by other writers

Other programs can write the same tables, without the checks of an upload or a copy. An edit here
changes one row and tells how many rows it reached. Open catalogues do not notice.

* `Store.editObject`, `Store.dropObject`: rows of objects.
* `Store.editSegment`, `Store.dropSegment`: rows of segments.
* `Store.putCopy`, `Store.dropCopy`: copy relations.
* `NodeTable.put`, `Store.putNode`: aliases of nodes.
-/

namespace ObjectCatalog

namespace Table

variable {ρ κ : Type} [Ord κ] [Std.TransOrd κ] [DecidableEq κ] {key : ρ → κ}

/-- Removes the row of a key, and tells how many rows there were. -/
def erase (t : Table key) (k : κ) : Nat × Table key :=
  if t.contains k then (1, t.filter fun r => decide (key r ≠ k)) else (0, t)

/-- Changes the row of a key, and tells how many rows there were. The changed row is put in the
place of its own key. -/
def edit (t : Table key) (k : κ) (change : ρ → ρ) : Nat × Table key :=
  match t.find? k with
  | some r => (1, (t.erase k).2.insert (change r))
  | none => (0, t)

end Table

/-- Puts a row in its place. Rows with its alias or with its node go. -/
def NodeTable.put (t : NodeTable) (row : NodeRow) : NodeTable where
  rows := (t.rows.filter fun r => decide (r.node ≠ row.node)).insert row
  highest := max t.highest row.short.toInt

namespace Store

/-- Changes the row of an object. -/
def editObject (s : Store) (id : ObjectId) (change : ObjectRow → ObjectRow) : Nat × Store :=
  let (count, objects) := s.objects.edit id change
  (count, { s with objects })

/-- Removes the row of an object. -/
def dropObject (s : Store) (id : ObjectId) : Nat × Store :=
  let (count, objects) := s.objects.erase id
  (count, { s with objects })

/-- Changes the row of a segment. -/
def editSegment (s : Store) (id : SegmentId) (change : SegmentRow → SegmentRow) : Nat × Store :=
  let (count, segments) := s.segments.edit id change
  (count, { s with segments })

/-- Removes the row of a segment. -/
def dropSegment (s : Store) (id : SegmentId) : Nat × Store :=
  let (count, segments) := s.segments.erase id
  (count, { s with segments })

/-- Puts a copy relation in the place of the one its stream had. -/
def putCopy (s : Store) (row : CopyRow) : Nat × Store :=
  (1, { s with copies := s.copies.insert row })

/-- Removes the copy relation of a stream. -/
def dropCopy (s : Store) (stream : StreamId) : Nat × Store :=
  let (count, copies) := s.copies.erase stream
  (count, { s with copies })

/-- Puts the alias of a node in its place. -/
def putNode (s : Store) (row : NodeRow) : Nat × Store :=
  (1, { s with nodes := s.nodes.put row })

end Store

end ObjectCatalog
