import ObjectCatalog.Node.Cache
import ObjectCatalog.Store

/-!
# An open catalogue

A catalogue is opened with its settings. It works on the tables, which do not exist before they are
created, and keeps a cache of node aliases.

A call computes the tables that it leaves from the tables that it found, and stores them as its last
step, so a call that fails earlier leaves them as they were. What the cache has learned by then
stays.

* `Catalog.Action`: a call.
* `Catalog.tables`, `Catalog.commit`: the first and the last step of a call.
* `Catalog.reading`: a read through the cache.
* `Catalog.ensureNodes`, `Catalog.aliasesOf`, `Catalog.piecesOf`: node aliases.
-/

namespace ObjectCatalog

/-- Limits and switches of a catalogue. -/
structure Settings where
  applicationName : String := "metabase"
  /-- The least plain size of every part of an object but the last. -/
  minPartSize : Int := 5242880
  maxParts : Nat := 10000
  /-- Whether the segments of copies are read through their ancestors. -/
  serverSideCopy : Bool := true
  /-- Whether remote segments must have a plain size. -/
  validatePlainSize : Bool := false
  /-- The time given to an upload that names no deadline. -/
  zombieDeadlineMinutes : Int := 1440
  deriving DecidableEq

/-- An open catalogue. -/
structure Catalog where
  settings : Settings
  store : Option Store
  cache : AliasCache

namespace Catalog

/-- A catalogue opened on tables. -/
def openOn (settings : Settings) (store : Option Store) : Catalog := ⟨settings, store, .empty⟩

/-- A call: it ends in a value or a failure, and in either case in a catalogue. -/
abbrev Action := ExceptT Error (StateM Catalog)

/-- The outcome of a call and the catalogue it leaves. -/
def run {α : Type} (c : Catalog) (action : Action α) : Except Error α × Catalog :=
  (ExceptT.run action).run c

/-- The tables, which a statement needs to exist. -/
def tables (statement : Statement) : Action Store := do
  match (← get).store with
  | some s => pure s
  | none => throw (.storage statement)

/-- Stores the tables a call leaves. -/
def commit (s : Store) : Action Unit := modify fun c => { c with store := some s }

/-- Reads through the cache. -/
def reading {α : Type} (lookup : Lookup α) : Action α := do
  let c ← get
  let (outcome, cache) := (ExceptT.run lookup).run c.cache
  set { c with cache }
  outcome

/-- Creates the tables unless they exist. -/
def createTables : Action Unit :=
  modify fun c => { c with store := some (c.store.getD .empty) }

/-- Sees to it that nodes have aliases and that the cache knows them. -/
def ensureNodes (nodes : List NodeId) : Action Unit := do
  let missing ← (← get).cache.missing nodes
  unless missing.isEmpty do
    let s ← tables .ensureNodes
    match s.nodes.addAll missing with
    | none => throw (.storage .ensureNodes)
    | some nodes =>
      commit { s with nodes }
      modify fun c => { c with cache := c.cache.remember (nodes.rowsOf missing) }

/-- Pieces in stored form. Nodes without an alias get one. -/
def aliasesOf (pieces : List Piece) : Action (List AliasPiece) := do
  ensureNodes (pieces.map (·.node))
  (← get).cache.aliasesOf pieces

/-- Pieces of stored form. -/
def piecesOf (aliases : List AliasPiece) : Action (List Piece) := do
  let c ← get
  if c.cache.knows aliases then
    c.cache.piecesOf aliases
  else
    let s ← tables .refreshNodes
    reading (Lookup.pieces s.nodes aliases)

end Catalog

end ObjectCatalog
