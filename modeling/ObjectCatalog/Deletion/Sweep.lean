import ObjectCatalog.Deletion

/-!
# Sweeps

A sweep deletes all rows that are due, a batch at a time, and ends with a batch that is not full.
Batches before one that fails stay deleted.

* `Catalog.sweep`: deletes the rows a condition selects, batch after batch.
* `Catalog.deleteExpired`: objects whose expiration has passed.
* `Catalog.deleteZombies`: uploads whose deadline has passed and that got no segment lately.
* `Catalog.deleteBucket`: the objects of a bucket.
-/

namespace ObjectCatalog

/-- The size of a batch when none is given. -/
def defaultSweepBatch : Nat := 100

/-- The size of a batch that is asked for with a number. -/
def sweepBatch (size : Nat) : Nat := if size = 0 then defaultSweepBatch else size

/-- Rows in the order in which their time comes, and rows of one time in the order in which they
were added. -/
def byTime (time : ObjectRow → Option Instant) (rows : List ObjectRow) : List ObjectRow :=
  (ObjectRow.byAge rows).mergeSort fun a b =>
    match time a, time b with
    | some s, some t => s.notAfter t
    | _, _ => true

/-- Whether a row has an expiration before an instant. -/
def ObjectRow.expiresBefore (r : ObjectRow) (t : Instant) : Bool := r.expiresAt.any (·.before t)

/-- Whether a row is of an upload with a deadline before an instant. -/
def ObjectRow.isZombieBefore (r : ObjectRow) (t : Instant) : Bool :=
  r.hasStatus .pending && r.zombieDeadline.any (·.before t)

/-- Whether a stream has a segment that was stored at an instant or later. -/
def Store.isActiveSince (s : Store) (t : Instant) (stream : StreamId) : Bool :=
  (s.segmentsOf stream).any fun r => t.notAfter r.createdAt

namespace Catalog

/-- Deletes batches of due rows until one is not full. Each full batch makes the table shorter, so
one round more than there are rows is enough. -/
def sweepRounds (statement : Statement) (due : Store → List ObjectRow) (size : Nat) :
    (rounds : Nat) → Action Deletion
  | 0 => return {}
  | rounds + 1 => do
    let s ← tables statement
    let batch := (due s).take size
    let deletion ← deleteRows statement s batch
    if batch.length < size then
      return deletion
    let rest ← sweepRounds statement due size rounds
    return deletion.append rest

/-- Deletes the rows that a condition selects, in batches. -/
def sweep (statement : Statement) (due : Store → List ObjectRow) (size : Nat) :
    Action Deletion := do
  let s ← tables statement
  sweepRounds statement due (sweepBatch size) (s.objects.rows.length + 1)

/-- Deletes the objects whose expiration is before an instant. -/
def deleteExpired (before : Instant) (batchSize : Nat) : Action Deletion :=
  sweep .deleteExpired
    (fun s => byTime (·.expiresAt) (s.objects.rows.filter (·.expiresBefore before))) batchSize

/-- Deletes the uploads whose deadline is before an instant. With `inactiveSince`, uploads with a
segment stored at that instant or later are left alone. -/
def deleteZombies (before : Instant) (inactiveSince : Option Instant) (batchSize : Nat) :
    Action Deletion :=
  sweep .deleteZombies
    (fun s => byTime (·.zombieDeadline) <| s.objects.rows.filter fun r =>
      r.isZombieBefore before && !inactiveSince.any (s.isActiveSince · r.stream)) batchSize

/-- Deletes the objects of a bucket in any status. -/
def deleteBucket (project : ProjectId) (bucket : String) (batchSize : Nat) : Action Deletion := do
  reject project.isZero .noProject
  reject bucket.isEmpty .noBucket
  sweep .deleteBucket
    (fun s => s.objects.rows.filter fun r =>
      r.location.project = project && r.location.bucket = bucket) batchSize

end Catalog

end ObjectCatalog
