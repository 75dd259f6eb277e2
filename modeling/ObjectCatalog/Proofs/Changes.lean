import Mathlib.Logic.Relation
import ObjectCatalog.Copy
import ObjectCatalog.Deletion
import ObjectCatalog.Proofs.Rows
import ObjectCatalog.Upload.Commit

/-!
# Changes of the tables

Whatever a call does to the tables is a sequence of changes of a few kinds. What is proved for each
kind holds for every call.

* `Terms`: what the changes of a run may bring. A condition on new stream ids stands for the terms
  that ask nothing else. It is `Store.Lacks` for runs with fresh ids, and always true for runs with
  ids of any kind.
* `UploadStep`: what uploads do; nothing of a committed object is touched but its metadata.
* `Change`: a step of an upload, a copy, or the deletion of object rows.
* `Changes`: changes one after the other.
* `Move`: what one call does.
-/

namespace ObjectCatalog

/-- What the changes of a run may bring: the stream ids that new objects may get, and the segment rows
that uploads may store. -/
structure Terms where
  stream : Store → StreamId → Prop
  row : SegmentRow → Prop := fun _ => True

instance : Coe (Store → StreamId → Prop) Terms := ⟨fun allow => { stream := allow }⟩

/-- The terms with no new stream. -/
def Terms.closed (t : Terms) : Terms := { t with stream := fun _ _ => False }

/-- The terms of changes that bring neither streams nor rows. -/
def Terms.none : Terms := ⟨fun _ _ => False, fun _ => False⟩

/-- Terms under which everything is allowed that others allow. -/
structure Terms.Within (t t' : Terms) : Prop where
  stream : ∀ s x, t.stream s x → t'.stream s x
  row : ∀ r, t.row r → t'.row r

/-- What a step of an upload does to the tables. The version of a new upload is the next one of its
key, or positive. -/
inductive UploadStep (t : Terms) : Store → Store → Prop
  /-- Nodes get aliases. -/
  | nodes {s : Store} {nodes : List NodeId} {table : NodeTable}
      (hknown : ∀ n ∈ nodes, n.isZero = false) (hadd : s.nodes.addAll nodes = some table) :
      UploadStep t s { s with nodes := table }
  /-- An upload starts under a key and version that no row has. -/
  | start {s : Store} {o : ObjectRow} (hstatus : o.hasStatus .pending = true)
      (hfree : s.objects.find? o.id = none) (hallow : t.stream s o.stream)
      (hversion : o.version = s.nextVersion o.location ∨ 0 < o.version) :
      UploadStep t s (s.addObject o)
  /-- A segment of an upload is stored. -/
  | segment {s : Store} {o : ObjectRow} {r : SegmentRow} (ho : o ∈ s.objects.rows)
      (hstatus : o.hasStatus .pending = true) (hstream : r.stream = o.stream)
      (hshaped : r.Shaped s.nodes) (hself : r.piecesInAncestor = false) (hrow : t.row r) :
      UploadStep t s { s with segments := s.segments.insert r }
  /-- Segments of an upload are dropped. -/
  | drop {s : Store} {o : ObjectRow} (ho : o ∈ s.objects.rows)
      (hstatus : o.hasStatus .pending = true) (kept : List Position) :
      UploadStep t s (s.dropOtherSegments o.stream kept)
  /-- An upload is completed with all its segments. -/
  | complete {s : Store} {o : ObjectRow} (ho : o ∈ s.objects.rows)
      (hstatus : o.hasStatus .pending = true) (r : CommitObject) (metadata : Option Metadata) :
      UploadStep t s
        { s.putSegments (withOffsets 0 (s.segmentsOf o.stream)) with
          objects := s.objects.insert (r.row metadata o (s.segmentsOf o.stream)) }
  /-- A committed object gets new metadata. -/
  | metadata {s : Store} {o : ObjectRow} (ho : o ∈ s.objects.rows)
      (hstatus : o.hasStatus .committed = true) (parts : MetadataParts) :
      UploadStep t s { s with objects := s.objects.insert { o with metadata := parts } }

/-- A deletion of object rows: the rows are in the table, and their streams are removed in the order
of age. -/
structure DeletionStep (s : Store) (rows : List ObjectRow) (orphaned : List SegmentRow)
    (s' : Store) : Prop where
  stored : ∀ o ∈ rows, o ∈ s.objects.rows
  nodup : rows.Nodup
  removed : (s.dropObjects rows).removeStreams ((ObjectRow.byAge rows).map (·.stream)) =
    .ok (orphaned, s')

/-- A change of the tables. -/
inductive Change (t : Terms) (s s' : Store) : Prop
  | upload (h : UploadStep t s s')
  | copy {now : Instant} {r : FinishCopy} {object : Object} (hallow : t.stream s r.newStream)
      (hcopy : s.finishCopy now r = .ok (object, s'))
  | delete {rows : List ObjectRow} {orphaned : List SegmentRow}
      (hdelete : DeletionStep s rows orphaned s')

/-- Changes one after the other. -/
abbrev Changes (t : Terms) : Store → Store → Prop := Relation.ReflTransGen (Change t)

/-- What one call does to the tables: changes that bring no new stream, or a change that brings one.
-/
inductive Move (t : Terms) (s s' : Store) : Prop
  | changes (h : Changes t.closed s s')
  | change (h : Change t s s')

variable {t t' : Terms} {s s' : Store}

theorem Terms.closed_within (t : Terms) : t.closed.Within t :=
  ⟨fun _ _ hno => hno.elim, fun _ hr => hr⟩

theorem Terms.none_within (t : Terms) : Terms.none.Within t :=
  ⟨fun _ _ hno => hno.elim, fun _ hno => hno.elim⟩

theorem UploadStep.mono (h : UploadStep t s s') (hle : t.Within t') : UploadStep t' s s' := by
  cases h with
  | nodes hknown hadd => exact .nodes hknown hadd
  | start hstatus hfree hallow hversion =>
    exact .start hstatus hfree (hle.stream _ _ hallow) hversion
  | segment ho hstatus hstream hshaped hself hrow =>
    exact .segment ho hstatus hstream hshaped hself (hle.row _ hrow)
  | drop ho hstatus kept => exact .drop ho hstatus kept
  | complete ho hstatus r metadata => exact .complete ho hstatus r metadata
  | metadata ho hstatus parts => exact .metadata ho hstatus parts

theorem Change.mono (h : Change t s s') (hle : t.Within t') : Change t' s s' := by
  cases h with
  | upload h => exact .upload (h.mono hle)
  | copy hallow hcopy => exact .copy (hle.stream _ _ hallow) hcopy
  | delete hdelete => exact .delete hdelete

theorem Changes.mono (h : Changes t s s') (hle : t.Within t') : Changes t' s s' := by
  induction h with
  | refl => exact .refl
  | tail _ hc ih => exact ih.tail (hc.mono hle)

/-- What one call does is changes one after the other. -/
theorem Move.toChanges (h : Move t s s') : Changes t s s' := by
  cases h with
  | changes h => exact h.mono t.closed_within
  | change h => exact .single h

theorem Move.refl (t : Terms) (s : Store) : Move t s s := .changes .refl

theorem Move.upload (h : UploadStep t.closed s s') : Move t s s' := .changes (.single (.upload h))

/-- Changes that bring nothing are what a call may do under any terms. -/
theorem Move.ofNone (h : Changes Terms.none s s') : Move t s s' := .changes (h.mono (Terms.none_within _))

end ObjectCatalog
