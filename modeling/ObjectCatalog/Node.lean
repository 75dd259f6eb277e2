import ObjectCatalog.Piece.Blob
import ObjectCatalog.Table

/-!
# Short numbers of storage nodes

A node gets its short number, its alias, when a piece on it is first stored, and keeps it. Every
attempt to add a node uses up the next number, also when the node turns out to have one already.

* `NodeTable.add`: an attempt to add one node.
* `NodeTable.addAll`: an attempt for each node of a list, all or nothing.
-/

namespace ObjectCatalog

/-- A storage node and its alias. -/
structure NodeRow where
  short : NodeAlias
  node : NodeId
  deriving DecidableEq

/-- The aliases of storage nodes. The highest number ever used is kept beside the rows. -/
structure NodeTable where
  rows : Table NodeRow.short
  highest : Int

namespace NodeTable

/-- The table without nodes. -/
def empty : NodeTable := ⟨.empty, 0⟩

/-- The greatest number an alias can be. -/
def maxAlias : Int := 9223372036854775807

/-- The alias of a node. -/
def aliasOf? (t : NodeTable) (node : NodeId) : Option NodeAlias :=
  (t.rows.rows.find? fun r => r.node = node).map (·.short)

/-- Adds a node under the next number. The number is used up also for a node that has an alias;
`none` when there is no next number. -/
def add (t : NodeTable) (node : NodeId) : Option NodeTable :=
  let number := t.highest + 1
  if maxAlias < number then none
  else if (t.aliasOf? node).isSome then some { t with highest := number }
  else some ⟨t.rows.insert ⟨.ofInt number, node⟩, number⟩

/-- The number of nodes that can be added at once. -/
def addLimit : Nat := 32766

/-- Adds the nodes of a list in turn, or none when there are too many. -/
def addAll (t : NodeTable) (nodes : List NodeId) : Option NodeTable :=
  if addLimit < nodes.length then none else nodes.foldlM add t

/-- The rows of the nodes of a list. -/
def rowsOf (t : NodeTable) (nodes : List NodeId) : List NodeRow :=
  t.rows.rows.filter fun r => decide (r.node ∈ nodes)

end NodeTable

end ObjectCatalog
