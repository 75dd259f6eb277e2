import ObjectCatalog.Proofs.AliasRuns
import ObjectCatalog.Proofs.Storing

/-!
# What is stored is what is read

A remote segment goes through three encodings: its nodes get aliases, its pieces become a blob, and its
scheme is packed into one integer. The first two lose nothing. The third keeps the low bits of each
field, and the check of a request looks at the fields before they are packed.

* `CommitSegment.shown`: the segment of a request, as it was given.
* `Store.resolved_stored`: the stored row reads as the request, but for the scheme.
* `Site.Reachable.read_back`: **every handle reads back what was stored, and of the scheme what is kept
  of it: all of it just when its fields fit.**
-/

namespace ObjectCatalog

open Store

variable {s s' : Store} {c : Catalog} {r : CommitSegment} {now : Instant} {o : ObjectRow}

namespace CommitSegment

/-- The segment of a request as it was given, in an object that expires at a time or never. -/
def shown (r : CommitSegment) (now : Instant) (expiresAt : Option Instant) : Segment where
  stream := r.stream.stream
  position := r.position
  createdAt := now
  expiresAt := expiresAt
  repairedAt := none
  rootPiece := r.rootPiece
  keyNonce := r.keyNonce
  key := r.key
  encryptedSize := r.encryptedSize
  plainOffset := r.plainOffset.toInt
  plainSize := r.plainSize
  etag := r.etag
  redundancy := r.redundancy
  inlineData := []
  pieces := r.pieces

/-- The stored row shows the request, with what is kept of the scheme. -/
theorem view_row (r : CommitSegment) (now : Instant) (o : ObjectRow) (aliases : List AliasPiece) :
    (r.row now o aliases).view r.pieces =
      { r.shown now o.expiresAt with redundancy := r.redundancy.kept } := by
  have hplace : (r.row now o aliases).place = r.position := SegmentRow.place_eq (by simp only [row])
  have hroot : (r.row now o aliases).rootPiece? = some r.rootPiece := Id.ofBytes?_bytes _
  unfold SegmentRow.view
  rw [hplace, hroot]
  simp only [row, shown, Redundancy.unpack_pack, Int32.ofInt_toInt, Option.getD_some,
    Option.getD_none]

theorem stream_isZero_of_check {validatePlainSize : Bool} (h : r.check validatePlainSize = .ok ()) :
    r.stream.stream.isZero = false := by
  unfold CommitSegment.check at h
  obtain ⟨_, hstream, -⟩ := Except.bind_eq_ok.1 h
  unfold ObjectStream.check at hstream
  obtain ⟨_, -, hstream⟩ := Except.bind_eq_ok.1 hstream
  obtain ⟨_, -, hstream⟩ := Except.bind_eq_ok.1 hstream
  exact reject_eq_ok.1 hstream

end CommitSegment

namespace Store

/-- **A stored remote segment reads as the request,** with what is kept of its scheme. -/
theorem resolved_stored (hchecked : r.Checked) {aliases : List AliasPiece}
    (haliases : List.Forall₂ (fun p a => a.number = p.number ∧ s.nodes.node? a.short = some p.node)
      r.pieces aliases) (serverSideCopy : Bool) :
    s.resolved serverSideCopy (r.row now o aliases) =
      .ok { r.shown now o.expiresAt with redundancy := r.redundancy.kept } := by
  obtain ⟨-, hself⟩ := hchecked.shaped_row now o <|
    haliases.imp fun _ _ h => ⟨h.1, by rw [h.2]; rfl⟩
  have hpieces : s.nodes.piecesOf aliases = .ok r.pieces := NodeTable.piecesOf_of_forall₂ haliases
  have hblob : Blob.stored (r.row now o aliases).blob = .ok aliases := Blob.stored_encode aliases
  unfold resolved
  rw [withAncestor_self hself, ← r.view_row now o aliases]
  change (Blob.stored (r.row now o aliases).blob >>= _) = _
  rw [hblob]
  change (s.nodes.piecesOf aliases >>= _) = _
  rw [hpieces]
  rfl

end Store

namespace Site

variable {σ : Site} {h h' : Handle} {allow : Store → StreamId → Prop}

/-- **After a remote segment was stored every handle reads it back as it was given,** but for the
scheme, of which it reads what the stored form keeps. That is the scheme that was given just when its
fields fit. A scheme that is accepted is not zero, but it is stored as the mark of inline segments
when nothing is kept of it. -/
theorem Reachable.read_back (hσ : σ.Reachable allow) {i : Nat} (hget : σ.handles[i]? = some h)
    (hok : ((σ.catalog h).run (Catalog.commitSegment now r)).1 = .ok ())
    (hh' : h' ∈ (σ.step (.call i now (.commitSegment r))).handles) :
    (∃ o ∈ σ.objects, o.isOf r.stream = true ∧ o.hasStatus .pending = true ∧
      (σ.step (.call i now (.commitSegment r))).read h' r.stream.stream r.position =
        .ok { r.shown now o.expiresAt with redundancy := r.redundancy.kept }) ∧
    (r.redundancy.kept = r.redundancy ↔ r.redundancy.Fits) ∧
    r.redundancy.isZero = false ∧
    ∃ row, (σ.step (.call i now (.commitSegment r))).segmentRow? r.stream.stream
        r.position.column = some row ∧
      (row.redundancy = 0 ↔ r.redundancy.kept = .zero) := by
  obtain ⟨s, hstands⟩ := hσ.stands
  obtain ⟨s', hstands', -⟩ := hstands.affects (.call i now (.commitSegment r))
  have hwrites : σ.writes ⟨r.stream.stream, r.position.column⟩ (.call i now (.commitSegment r)) =
      true := (writes_eq_true_iff hget).2 ⟨rfl, Catalog.failure?_eq_none.2 ⟨(), hok⟩⟩
  obtain ⟨row, nodes, hrow, hid, hstore⟩ := hstands.exists_stores hwrites
  -- the tables that the call left are those of the site afterwards
  obtain rfl := Option.some.inj (hstands'.store.symm.trans hstore)
  have hfound : Store.row? { s with nodes, segments := s.segments.insert row } r.stream.stream
      r.position.column = some row := row?_put hid nodes
  cases hrow with
  | @remote _ _ o aliases hcheck hpending haliases =>
    have hchecked := CommitSegment.checked_of_check hcheck
    have hshaped := (hchecked.shaped_row now o <|
      haliases.imp fun _ _ h => ⟨h.1, by rw [h.2]; rfl⟩).1
    obtain ⟨hmem, -, -, hstatus⟩ := objectOf?_eq_some hpending
    refine ⟨⟨o, hstands.mem_objects.2 hmem, Store.isOf_of_objectOf? hpending, hstatus, ?_⟩,
      r.redundancy.kept_eq_iff, hchecked.redundancy, r.row now o aliases,
      (hstands'.segmentRow?_eq ..).trans hfound, r.redundancy.pack_eq_zero_iff⟩
    rw [hstands'.read_eq hh', read_of_row? (CommitSegment.stream_isZero_of_check hcheck) hfound
      hshaped.isReadable]
    exact resolved_stored
      (s := { s with nodes, segments := s.segments.insert (r.row now o aliases) })
      hchecked haliases _

end Site

/-! ### A segment under two schemes -/

namespace Sample

/-- A site with an upload that has no segments. -/
def started : Site := Site.fresh.run [.opening {}, .call 0 moment (begin (identity 1 1))]

theorem reachable_started : started.Reachable Lacks := Site.Reachable.fresh.run (by decide +kernel)

/-- A remote segment of that upload under a scheme. -/
def remote (redundancy : Redundancy) : CommitSegment where
  stream := identity 1 1
  position := ⟨0, 0⟩
  rootPiece := .ofNat 3
  keyNonce := [1]
  key := [2]
  plainOffset := 0
  plainSize := 5
  encryptedSize := 7
  redundancy := redundancy
  pieces := [⟨0, .ofNat 9⟩]

/-- The event that stores it. -/
def storing (redundancy : Redundancy) : Event := .call 0 moment (.commitSegment (remote redundancy))

/-- A scheme that is not zero, of which nothing is kept. -/
def wide : Redundancy := { shareSize := 16777216 }

end Sample

/-- A segment under a scheme that fits is read back as it was given. -/
theorem Sample.read_back_started : ∃ h ∈ (started.step (storing { algorithm := 1 })).handles,
    ∃ expiresAt, (started.step (storing { algorithm := 1 })).read h (identity 1 1).stream ⟨0, 0⟩ =
      .ok ((remote { algorithm := 1 }).shown moment expiresAt) := by
  have hget : started.handles[0]? = some (handleOf started) := getElem?_handles (by decide +kernel)
  obtain ⟨⟨⟩, hok⟩ : ∃ u, ((started.catalog (handleOf started)).run
      (Catalog.commitSegment moment (remote { algorithm := 1 }))).1 = .ok u :=
    Except.exists_eq_ok (by decide +kernel)
  obtain ⟨h', hh', -⟩ : ∃ h ∈ (started.step (storing { algorithm := 1 })).handles, True := by
    decide +kernel
  obtain ⟨⟨o, -, -, -, hread⟩, hkept, -⟩ :=
    Site.Reachable.read_back reachable_started hget hok hh'
  rw [hkept.2 (by decide +kernel)] at hread
  exact ⟨h', hh', o.expiresAt, hread⟩

/-- A segment is accepted under a scheme that is not zero, and read back under the scheme of zeros. -/
theorem Sample.scheme_lost : started.Reachable Lacks ∧ wide.isZero = false ∧
    ∃ h ∈ started.handles, ∃ h' ∈ (started.step (storing wide)).handles,
      ((started.catalog h).run (Catalog.commitSegment moment (remote wide))).1.toOption.isSome =
        true ∧
      ((started.step (storing wide)).read h' (identity 1 1).stream ⟨0, 0⟩).toOption.map
        (·.redundancy) = some .zero := by
  refine ⟨Site.Reachable.fresh.run ?_, ?_⟩ <;> decide +kernel

end ObjectCatalog
