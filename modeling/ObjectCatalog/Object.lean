import ObjectCatalog.Column
import ObjectCatalog.Encryption
import ObjectCatalog.Metadata
import ObjectCatalog.Time.Instant

/-!
# Object versions

An object is one version of a key in a bucket of a project. Its instance is named by a stream id,
under which its segments are stored. A version is pending from the start of its upload until it is
committed or removed.

* `Location.check`, `ObjectStream.check`: which identities a request may name.
* `ObjectRow`: an object as the table holds it, under the key `ObjectRow.id`.
* `ObjectRow.view?`: the object of a row; a row with values of no meaning cannot be read.
-/

namespace ObjectCatalog

/-- A key in a bucket, independent of version. -/
structure Location where
  project : ProjectId
  bucket : String
  key : Bytes
  deriving DecidableEq, Inhabited

/-- A location names a project, a bucket and a key. -/
def Location.check (l : Location) : Except Error Unit := do
  reject l.project.isZero .noProject
  reject l.bucket.isEmpty .noBucket
  reject l.key.isEmpty .noKey

/-- The full identity of one object instance. Version 0 asks for the next free version. -/
structure ObjectStream where
  location : Location
  version : Int64
  stream : StreamId
  deriving DecidableEq, Inhabited

/-- A stream identity names a location, no negative version, and a stream. -/
def ObjectStream.check (s : ObjectStream) : Except Error Unit := do
  s.location.check
  reject (s.version < 0) .badVersion
  reject s.stream.isZero .noStream

/-- The lifecycle of an object version. -/
inductive Status
  | pending
  | committed
  deriving DecidableEq

/-- The stored number of a status. -/
def Status.code : Status → Int
  | pending => 1
  | committed => 3

/-- The status of a stored number. -/
def Status.ofCode? (n : Int) : Option Status :=
  if n = 1 then some pending else if n = 3 then some committed else none

@[simp]
theorem Status.ofCode?_code (s : Status) : ofCode? s.code = some s := by cases s <;> rfl

/-- An object version as callers see it. -/
structure Object where
  stream : ObjectStream
  createdAt : Instant
  expiresAt : Option Instant
  status : Status
  segmentCount : Int32
  metadata : Option Metadata
  totalPlainSize : Int
  totalEncryptedSize : Int
  /-- The plain size of all segments but the last, or -1 when they differ. -/
  fixedSegmentSize : Int32
  encryption : Encryption
  zombieDeadline : Option Instant
  deriving DecidableEq

/-- Objects without a plain size date from a layout whose plain offsets cannot be relied on. -/
def Object.isMigrated (o : Object) : Bool := o.totalPlainSize ≤ 0

/-- The primary key of object rows. -/
structure ObjectId where
  location : Location
  version : Int
  deriving DecidableEq

/-- Object keys in order of project, bucket, key and version. -/
def ObjectId.order : ObjectId → ObjectId → Ordering :=
  compareLex (compareOn (·.location.project)) <| compareLex (compareOn (·.location.bucket)) <|
    compareLex (compareOn (·.location.key)) (compareOn (·.version))

instance : Ord ObjectId := ⟨ObjectId.order⟩

instance : Std.TransOrd ObjectId :=
  inferInstanceAs <| Std.TransCmp <|
    compareLex (compareOn fun i : ObjectId => i.location.project) <|
      compareLex (compareOn (·.location.bucket)) <|
        compareLex (compareOn (·.location.key)) (compareOn (·.version))

/-- An object version as the table holds it. -/
structure ObjectRow where
  location : Location
  version : Int
  stream : StreamId
  createdAt : Instant
  expiresAt : Option Instant := none
  status : Int
  segmentCount : Int := 0
  metadata : MetadataParts := {}
  totalPlainSize : Int := 0
  totalEncryptedSize : Int := 0
  fixedSegmentSize : Int := 0
  encryption : Int
  zombieDeadline : Option Instant := none
  /-- The number of the row in the order in which rows were added; given when the row is added. -/
  serial : Nat := 0
  deriving DecidableEq

namespace ObjectRow

/-- The primary key of a row. -/
def id (r : ObjectRow) : ObjectId := ⟨r.location, r.version⟩

/-- Rows in the order in which they were added. -/
def byAge (rows : List ObjectRow) : List ObjectRow := rows.mergeSort fun a b => a.serial ≤ b.serial

/-- Whether a row is in a status. -/
def hasStatus (r : ObjectRow) (s : Status) : Bool := decide (r.status = s.code)

/-- Whether a row is the one of a stream identity. -/
def isOf (r : ObjectRow) (s : ObjectStream) : Bool :=
  decide (r.location = s.location ∧ r.version = s.version.toInt ∧ r.stream = s.stream)

/-- The object of a row, unless its version, status, segment count or fixed segment size is none
that an object can have. -/
def view? (r : ObjectRow) : Option Object := do
  let version ← int64? r.version
  let status ← Status.ofCode? r.status
  let segmentCount ← int32? r.segmentCount
  let fixedSegmentSize ← int32? r.fixedSegmentSize
  return {
    stream := ⟨r.location, version, r.stream⟩
    createdAt := r.createdAt
    expiresAt := r.expiresAt
    status
    segmentCount
    metadata := r.metadata.stored?
    totalPlainSize := r.totalPlainSize
    totalEncryptedSize := r.totalEncryptedSize
    fixedSegmentSize
    encryption := .unpack r.encryption
    zombieDeadline := r.zombieDeadline }

/-- The object of a row, as a statement reads it. -/
def view (statement : Statement) (r : ObjectRow) : Except Error Object :=
  match r.view? with
  | some o => pure o
  | none => throw (.storage statement)

end ObjectRow

end ObjectCatalog
