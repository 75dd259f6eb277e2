import ObjectCatalog.Catalog

/-!
# Listing a bucket

A listing goes through the object versions of one status in a bucket, in order of key and version.
It fetches a batch of rows at a time and hands out entries one by one. Keys are shown relative to
the lead they share. A listing that is not recursive shows one entry for all keys with the same part
up to and including the first `/` after the lead.

* `Listing.start`: a listing from a cursor, which lies outside of what is listed.
* `Listing.next`: the next entry.
* `Catalog.listObjects`: all entries.
-/

namespace ObjectCatalog

/-- The point a listing starts after. -/
structure ListCursor where
  key : Bytes := []
  version : Int := 0
  deriving DecidableEq

/-- Which object versions to list, and how. -/
structure ListObjects where
  project : ProjectId
  bucket : String
  status : Status
  recursive : Bool := true
  batchSize : Nat := 0
  /-- What the listed keys begin with. -/
  lead : Bytes := []
  cursor : ListCursor := {}
  includeCustomMetadata : Bool := true
  includeSystemMetadata : Bool := true
  deriving DecidableEq

/-- A line of a listing. -/
structure Entry where
  /-- Whether the entry stands for all keys that go on from its key. -/
  isGroup : Bool := false
  key : Bytes
  version : Int64
  stream : StreamId
  status : Status
  createdAt : Option Instant := none
  expiresAt : Option Instant := none
  segmentCount : Int32 := 0
  totalPlainSize : Int := 0
  totalEncryptedSize : Int := 0
  fixedSegmentSize : Int32 := 0
  encryption : Encryption := {}
  metadata : Option Metadata := none
  deriving DecidableEq

/-- The entry of a row under its full key. System columns count only when they are asked for, and
then must be readable. -/
def ObjectRow.listed? (custom system : Bool) (r : ObjectRow) : Option Entry := do
  let version ← int64? r.version
  let status ← Status.ofCode? r.status
  let entry : Entry :=
    { key := r.location.key, version, stream := r.stream, status,
      metadata := if custom then r.metadata.stored? else none }
  if system then
    let segmentCount ← int32? r.segmentCount
    let fixedSegmentSize ← int32? r.fixedSegmentSize
    return { entry with
      createdAt := r.createdAt, expiresAt := r.expiresAt, segmentCount,
      totalPlainSize := r.totalPlainSize, totalEncryptedSize := r.totalEncryptedSize,
      fixedSegmentSize, encryption := .unpack r.encryption }
  else
    return entry

/-- The number of rows in a batch when none or a greater one is asked for. -/
def listBatchLimit : Nat := 1000

/-- The size of a batch that is asked for with a number. -/
def listBatch (size : Nat) : Nat :=
  if size = 0 ∨ listBatchLimit < size then listBatchLimit else size

/-- The part of a relative key up to and including its first `/`. -/
def groupOf? : Bytes → Option Bytes
  | [] => none
  | b :: rest => if b = 0x2f then some [b] else (groupOf? rest).map (b :: ·)

/-- A listing under way. -/
structure Listing where
  request : ListObjects
  cursor : ListCursor
  /-- Fetched entries, under their full keys. -/
  buffer : List Entry := []
  /-- Whether no row lies after the buffer. -/
  exhausted : Bool := false
  deriving DecidableEq

namespace Listing

/-- Whether a row is one that a listing shows, and lies after its cursor. -/
def selects (l : Listing) (r : ObjectRow) : Bool :=
  r.location.project = l.request.project && r.location.bucket = l.request.bucket &&
    r.hasStatus l.request.status && (compare l.request.lead r.location.key).isLE &&
    (l.request.lead.above?).all (fun limit => compare r.location.key limit = .lt) &&
    (compare l.cursor.key r.location.key).then (compare l.cursor.version r.version) = .lt

/-- Passes over a group that has been shown: fetched keys of the group are dropped, and if none are
left fetching goes on after all keys of the group. -/
def skipGroup (l : Listing) (group : Bytes) : Listing :=
  let full := l.request.lead ++ group
  let buffer := l.buffer.dropWhile fun e => full.isPrefixOf e.key
  if buffer.isEmpty then
    match full.above? with
    | some limit => { l with buffer, cursor := ⟨limit, 0⟩ }
    | none => { l with buffer, exhausted := true }
  else { l with buffer }

/-- Checks a request and starts its listing. A cursor within a group means that the group has been
shown. -/
def start (r : ListObjects) : Except Error Listing := do
  reject r.project.isZero .noProject
  reject r.bucket.isEmpty .noBucket
  let l : Listing :=
    { request := { r with batchSize := listBatch r.batchSize }, cursor := r.cursor }
  if r.recursive then return l
  match (r.lead.after? r.cursor.key).bind groupOf? with
  | some group => return l.skipGroup group
  | none => return l

/-- Fetches the next batch. -/
def fetch (l : Listing) (s : Store) : Except Error Listing := do
  let { includeCustomMetadata, includeSystemMetadata, batchSize, .. } := l.request
  let rows := (s.objects.rows.filter l.selects).take batchSize
  match rows.mapM (·.listed? includeCustomMetadata includeSystemMetadata) with
  | none => throw (.storage .listObjects)
  | some buffer => return { l with buffer, exhausted := buffer.length < batchSize }

/-- Takes an entry out of the buffer, as it is shown. -/
def take (l : Listing) : Option Entry × Listing :=
  match l.buffer with
  | [] => (none, l)
  | e :: buffer =>
    let l := { l with buffer, cursor := ⟨e.key, e.version.toInt⟩ }
    let relative := e.key.drop l.request.lead.length
    match if l.request.recursive then none else groupOf? relative with
    | some group => (some { e with isGroup := true, key := group }, l.skipGroup group)
    | none => (some { e with key := relative }, l)

/-- The next entry, or none at the end, and the listing that goes on. A failure to fetch leaves the
listing as it was. -/
def next (l : Listing) (s : Option Store) : Except Error (Option Entry) × Listing :=
  if l.buffer.isEmpty && !l.exhausted then
    match s with
    | none => (.error (.storage .listObjects), l)
    | some s =>
      match l.fetch s with
      | .error e => (.error e, l)
      | .ok l => let (entry, l) := l.take; (.ok entry, l)
  else
    let (entry, l) := l.take
    (.ok entry, l)

/-- The entries of a listing, up to a number of them. -/
def drain (s : Option Store) : (limit : Nat) → Listing → Except Error (List Entry)
  | 0, _ => pure []
  | limit + 1, l => do
    match l.next s with
    | (.error e, _) => throw e
    | (.ok none, _) => return []
    | (.ok (some entry), l) => return entry :: (← drain s limit l)

end Listing

/-- The number of object rows. -/
def Catalog.rowCount (c : Catalog) : Nat := c.store.elim 0 (·.objects.rows.length)

/-- All entries of a listing. Every entry stands for a row of its own. -/
def Catalog.listObjects (r : ListObjects) : Catalog.Action (List Entry) := do
  let l ← Listing.start r
  let c ← get
  l.drain c.store (c.rowCount + 1)

end ObjectCatalog
