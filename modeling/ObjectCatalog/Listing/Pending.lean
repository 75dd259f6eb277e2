import ObjectCatalog.Listing

/-!
# Listing the uploads of a key

The pending versions of one key in order of their stream ids, fetched in batches. The listing goes
on after the stream id it showed last.
-/

namespace ObjectCatalog

/-- Which uploads to list. -/
structure ListPending where
  location : Location
  batchSize : Nat := 0
  /-- The stream id the listing starts after. -/
  cursor : StreamId := .zero
  deriving DecidableEq

/-- A listing of uploads under way. -/
structure PendingListing where
  request : ListPending
  buffer : List Entry := []
  exhausted : Bool := false
  deriving DecidableEq

namespace PendingListing

/-- Checks a request and starts its listing. -/
def start (r : ListPending) : Except Error PendingListing := do
  r.location.check
  return { request := { r with batchSize := listBatch r.batchSize } }

/-- The pending rows of the key in order of stream id, and of version for one stream id. -/
def rows (l : PendingListing) (s : Store) : List ObjectRow :=
  ((s.versionsOf l.request.location).filter fun r =>
    r.hasStatus .pending && compare l.request.cursor r.stream = .lt).mergeSort
      fun a b => (compare a.stream b.stream).isLE

/-- Fetches the next batch. -/
def fetch (l : PendingListing) (s : Store) : Except Error PendingListing := do
  match ((l.rows s).take l.request.batchSize).mapM (·.listed? true true) with
  | none => throw (.storage .listPending)
  | some buffer => return { l with buffer, exhausted := buffer.length < l.request.batchSize }

/-- Takes an entry out of the buffer. -/
def take (l : PendingListing) : Option Entry × PendingListing :=
  match l.buffer with
  | [] => (none, l)
  | e :: buffer => (some e, { l with buffer, request := { l.request with cursor := e.stream } })

/-- The next entry, or none at the end, and the listing that goes on. -/
def next (l : PendingListing) (s : Option Store) : Except Error (Option Entry) × PendingListing :=
  if l.buffer.isEmpty && !l.exhausted then
    match s with
    | none => (.error (.storage .listPending), l)
    | some s =>
      match l.fetch s with
      | .error e => (.error e, l)
      | .ok l => let (entry, l) := l.take; (.ok entry, l)
  else
    let (entry, l) := l.take
    (.ok entry, l)

/-- The entries of a listing, up to a number of them. -/
def drain (s : Option Store) : (limit : Nat) → PendingListing → Except Error (List Entry)
  | 0, _ => pure []
  | limit + 1, l => do
    match l.next s with
    | (.error e, _) => throw e
    | (.ok none, _) => return []
    | (.ok (some entry), l) => return entry :: (← drain s limit l)

end PendingListing

/-- All pending uploads of a key. -/
def Catalog.listPending (r : ListPending) : Catalog.Action (List Entry) := do
  let l ← PendingListing.start r
  let c ← get
  l.drain c.store (c.rowCount + 1)

end ObjectCatalog
