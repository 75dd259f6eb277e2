import ObjectCatalog.Deletion.Streams
import ObjectCatalog.Catalog

/-!
# Deleting objects

Every deletion removes object rows, the segments of their streams, and settles the copies of what
was removed. It reports the objects, in the order of their keys and versions, and the pieces that
nothing refers to any more.

* `Object.byKey`: the order of a report.
* `Catalog.deleteRows`: the deletion of chosen rows, which all calls share.
* `Catalog.deletePending`, `Catalog.deleteExactVersion`, `Catalog.deleteAllVersions`,
  `Catalog.deleteCommittedVersions`: deletions by name.
-/

namespace ObjectCatalog

/-- What a deletion removed. -/
structure Deletion where
  objects : List Object := []
  segments : List ReleasedPieces := []
  deriving DecidableEq

/-- Two deletions taken together. -/
def Deletion.append (a b : Deletion) : Deletion :=
  ⟨a.objects ++ b.objects, a.segments ++ b.segments⟩

/-- Objects in the order in which a deletion reports them: by key and version, and as they were where
both are the same, which can be in different buckets. -/
def Object.byKey (objects : List Object) : List Object :=
  objects.mergeSort fun a b =>
    (compareLex (compareOn (·.stream.location.key)) (compareOn (·.stream.version)) a b).isLE

/-- The tables without object rows. -/
def Store.dropObjects (s : Store) (rows : List ObjectRow) : Store :=
  { s with objects := s.objects.filter fun r => decide (r.id ∉ rows.map (·.id)) }

namespace Catalog

/-- Deletes chosen object rows. Older rows are read, and their streams removed, before younger ones. -/
def deleteRows (statement : Statement) (s : Store) (rows : List ObjectRow) : Action Deletion := do
  let objects ← (ObjectRow.byAge rows).mapM (·.view statement)
  let streams := (ObjectRow.byAge rows).map (·.stream)
  let (orphaned, s) ← (s.dropObjects rows).removeStreams streams
  let segments ← reading (SegmentRow.release s.nodes orphaned)
  commit s
  return ⟨Object.byKey objects, segments⟩

/-- Deletes chosen object rows, of which there must be some. -/
def deleteSomeRows (statement : Statement) (s : Store) (rows : List ObjectRow) :
    Action Deletion := do
  if rows.isEmpty then throw (.objectNotFound .deleted) else deleteRows statement s rows

/-- Deletes a pending object. -/
def deletePending (stream : ObjectStream) : Action Deletion := do
  stream.check
  let s ← tables .deletePending
  deleteSomeRows .deletePending s (s.objectOf? stream .pending).toList

/-- Deletes the object at a version in any status. -/
def deleteExactVersion (l : Location) (version : Int64) : Action Deletion := do
  l.check
  reject (version ≤ 0) .badVersion
  let s ← tables .deleteExactVersion
  deleteSomeRows .deleteExactVersion s (s.objects.find? ⟨l, version.toInt⟩).toList

/-- Deletes all versions of a key in any status. -/
def deleteAllVersions (l : Location) : Action Deletion := do
  l.check
  let s ← tables .deleteAllVersions
  deleteSomeRows .deleteAllVersions s (s.versionsOf l)

/-- Checks that locations are of one bucket. -/
def checkOneBucket (first : Location) : List Location → Except Error Unit
  | [] => pure ()
  | l :: rest => do
    l.check
    reject (l.project ≠ first.project || l.bucket ≠ first.bucket) .severalBuckets
    checkOneBucket first rest

/-- The number of keys that can be deleted at once. -/
def deleteLimit : Nat := 32763

/-- Deletes the committed versions of several keys of one bucket. It is no failure if there are
none. -/
def deleteCommittedVersions (locations : List Location) : Action Deletion := do
  match locations with
  | [] => return {}
  | first :: _ =>
    checkOneBucket first locations
    let s ← tables .deleteCommittedVersions
    if deleteLimit < locations.eraseDups.length then
      throw (.storage .deleteCommittedVersions)
    deleteRows .deleteCommittedVersions s <| s.objects.rows.filter fun r =>
      r.hasStatus .committed && decide (r.location ∈ locations)

end Catalog

end ObjectCatalog
