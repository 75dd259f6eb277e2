import ObjectCatalog.Node
import ObjectCatalog.Segment

/-!
# The cache of node aliases

A handle on the tables remembers the aliases it has seen, in both directions, and forgets none. A
node or alias that is not remembered is looked up in the table.

* `AliasCache.missing`: the nodes that have to be looked up.
* `AliasCache.aliasesOf`, `AliasCache.piecesOf`: the stored form of pieces and back.
* `Lookup.pieces`: pieces of stored form, with the table at hand; what was learned stays after a
  failure.
-/

namespace ObjectCatalog

/-- The aliases a handle has seen, by node and by alias. -/
structure AliasCache where
  byNode : Table NodeRow.node
  byAlias : Table NodeRow.short

namespace AliasCache

/-- The cache of a new handle. -/
def empty : AliasCache := ⟨.empty, .empty⟩

/-- The remembered alias of a node. -/
def aliasOf? (c : AliasCache) (node : NodeId) : Option NodeAlias :=
  (c.byNode.find? node).map (·.short)

/-- The remembered node of an alias. -/
def node? (c : AliasCache) (short : NodeAlias) : Option NodeId :=
  (c.byAlias.find? short).map (·.node)

/-- The number of nodes remembered. -/
def size (c : AliasCache) : Nat := c.byNode.rows.length

/-- Remembers a row. -/
def insert (c : AliasCache) (r : NodeRow) : AliasCache := ⟨c.byNode.insert r, c.byAlias.insert r⟩

/-- Remembers rows. -/
def remember (c : AliasCache) (rows : List NodeRow) : AliasCache := rows.foldl insert c

/-- The nodes of a list that are not remembered, in order and with repetitions. The zero node must
not be among them. -/
def missing (c : AliasCache) (nodes : List NodeId) : Except Error (List NodeId) :=
  let missing := nodes.filter fun n => (c.aliasOf? n).isNone
  match missing.find? (·.isZero) with
  | some zero => throw (.rejected (.zeroNode zero))
  | none => pure missing

/-- Pieces in stored form, from what is remembered. -/
def aliasesOf (c : AliasCache) (pieces : List Piece) : Except Error (List AliasPiece) :=
  pieces.mapM fun p =>
    match c.aliasOf? p.node with
    | some short => pure ⟨p.number, short⟩
    | none => throw (.corrupted (.aliasNotKept p.node))

/-- Whether every alias of a list is remembered. -/
def knows (c : AliasCache) (aliases : List AliasPiece) : Bool :=
  aliases.all fun p => (c.node? p.short).isSome

/-- Pieces of stored form, from what is remembered. -/
def piecesOf (c : AliasCache) (aliases : List AliasPiece) : Except Error (List Piece) :=
  aliases.mapM fun p =>
    match c.node? p.short with
    | some node => pure ⟨p.number, node⟩
    | none => throw (.corrupted (.unknownAlias p.short))

end AliasCache

/-- Reading through the cache of a handle. -/
abbrev Lookup := ExceptT Error (StateM AliasCache)

/-- Pieces of stored form. The whole table is remembered first when an alias is not. -/
def Lookup.pieces (t : NodeTable) (aliases : List AliasPiece) : Lookup (List Piece) := do
  let c ← get
  let c := if c.knows aliases then c else c.remember t.rows.rows
  set c
  c.piecesOf aliases

/-- The pieces that rows held of their own, for rows that are removed. Rows without pieces are left
out. -/
def SegmentRow.release (t : NodeTable) (rows : List SegmentRow) : Lookup (List ReleasedPieces) :=
  (rows.filter (·.holdsPieces)).mapM fun r => do
    let aliases ← Blob.stored r.blob
    let pieces ← Lookup.pieces t aliases
    return ⟨r.rootPiece?.getD .zero, pieces⟩

end ObjectCatalog
