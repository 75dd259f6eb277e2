import ObjectCatalog.Proofs.Layout
import ObjectCatalog.Proofs.Stability

/-!
# The numbers of committed objects

The numbers of an object are written when it is committed. Later its segments change only in where
their pieces are, a copy takes over numbers and slices together, and a deletion touches neither.

* `Store.slices_eq`: streams with the same slice at every position have the same slices in order.
* `Store.Booked`: the numbers of committed objects are those that its segments give.
* `UploadStep.booked`, `Store.Copied.booked`, `DeletionStep.booked`: each change keeps that so.
* `Change.slices_eq`: a change leaves the slices of a committed object that stays.
* `Site.Reachable.accounts_exact`: **the numbers of a committed object say what its segments are.**
-/

namespace ObjectCatalog

theorem int32?_eq_some {v : Int} {w : Int32} (h : int32? v = some w) : w.toInt = v := by
  unfold int32? at h
  split at h
  · next hfits =>
    rw [Option.some.injEq] at h
    rw [← h]
    exact Int32.toInt_ofInt_of_le (by omega) (by omega)
  · cases h

namespace Store

variable {s s' : Store} {x y : StreamId} {o : ObjectRow}

/-! ## Slices of a stream -/

/-- Streams that have the same slice at every position have the same slices in order. -/
theorem slices_eq
    (h : ∀ p, Option.Rel (fun r k => r.slice = k.slice) (s'.row? y p) (s.row? x p)) :
    (s'.segmentsOf y).map SegmentRow.slice = (s.segmentsOf x).map SegmentRow.slice := by
  have hasc : ∀ (t : Store) (z : StreamId),
      Ascending Slice.position ((t.segmentsOf z).map SegmentRow.slice) := fun t z =>
    List.pairwise_map.2 (List.pairwise_map.1 (ascending_positions t z))
  refine (hasc s' y).eq_of_mem_iff (hasc s x) fun v => ?_
  simp only [List.mem_map]
  constructor
  · rintro ⟨r, hr, rfl⟩
    obtain ⟨k, hk, hslice⟩ := (h r.position).exists_right (mem_segmentsOf_iff_row?.1 hr)
    obtain ⟨hmem, hstream, -⟩ := row?_eq_some_iff.1 hk
    exact ⟨k, mem_segmentsOf.2 ⟨hmem, hstream⟩, hslice.symm⟩
  · rintro ⟨k, hk, rfl⟩
    obtain ⟨r, hr, hslice⟩ := (h k.position).exists_left (mem_segmentsOf_iff_row?.1 hk)
    obtain ⟨hmem, hstream, -⟩ := row?_eq_some_iff.1 hr
    exact ⟨r, mem_segmentsOf.2 ⟨hmem, hstream⟩, hslice⟩

/-- Segments at positions that can be stored are in ascending order of parts and indexes. -/
theorem ascending_places_of
    (h : ∀ r ∈ s.segmentsOf x, ∃ p : Position, p.part ≤ Position.maxPart ∧ r.position = p.column) :
    Ascending SegmentRow.place (s.segmentsOf x) := by
  have hpositions := List.pairwise_map.1 (ascending_positions s x)
  refine hpositions.imp_of_mem fun {r k} hr hk hlt => ?_
  obtain ⟨p, hp, hrp⟩ := h r hr
  obtain ⟨q, hq, hkq⟩ := h k hk
  have hcolumns : p.column < q.column := by
    rw [← hrp, ← hkq]
    exact Std.compare_eq_lt.1 hlt
  rw [SegmentRow.place_eq hrp, SegmentRow.place_eq hkq]
  exact (Position.column_lt_iff hp hq).1 hcolumns

theorem Coherent.ascending_places (hs : s.Coherent) (x : StreamId) :
    Ascending SegmentRow.place (s.segmentsOf x) :=
  ascending_places_of fun r hr => (hs.shaped r (mem_segmentsOf.1 hr).1).position

/-- Rows that are put in the place of all rows of their stream are the rows of the stream. -/
theorem segmentsOf_putSegments {rows : List SegmentRow} (hasc : Ascending SegmentRow.id rows)
    (hstream : ∀ r ∈ rows, r.stream = x)
    (hall : ∀ r ∈ s.segmentsOf x, r.id ∈ rows.map (·.id)) :
    (s.putSegments rows).segmentsOf x = rows := by
  have hnodup : (rows.map (·.id)).Nodup :=
    hasc.nodup.map_on fun _ hr _ hk heq => hasc.eq_of_key_eq hr hk heq
  have hstored : Ascending SegmentRow.id ((s.putSegments rows).segmentsOf x) :=
    (s.putSegments rows).segments.ascending.sublist List.filter_sublist
  refine hstored.eq_of_mem_iff hasc fun r => ?_
  rw [mem_segmentsOf]
  constructor
  · rintro ⟨hr, rfl⟩
    have hrow := row?_self hr
    rw [row?_putSegments hnodup, Option.or_eq_some_iff] at hrow
    rcases hrow with hput | ⟨hnone, hold⟩
    · exact List.mem_of_find?_eq_some hput
    · -- a row from before is under the key of one that was put in its place
      obtain ⟨k, hk, hid⟩ := List.mem_map.1 (hall r (mem_segmentsOf_iff_row?.2 hold))
      exact absurd (decide_eq_true hid) (List.find?_eq_none.1 hnone k hk)
  · intro hr
    obtain rfl := hstream r hr
    have hfind : (rows.find? fun k => decide (k.id = ⟨r.stream, r.position⟩)) = some r := by
      cases hfound : rows.find? fun k => decide (k.id = ⟨r.stream, r.position⟩) with
      | none => exact absurd (decide_eq_true rfl) (List.find?_eq_none.1 hfound r hr)
      | some k =>
        have hcond := List.find?_some hfound
        have hid : k.id = r.id := of_decide_eq_true hcond
        rw [hasc.eq_of_key_eq (List.mem_of_find?_eq_some hfound) hr hid]
    have hrow : (s.putSegments rows).row? r.stream r.position = some r := by
      rw [row?_putSegments hnodup, hfind, Option.some_or]
    exact ⟨(row?_eq_some_iff.1 hrow).1, rfl⟩

theorem ascending_withOffsets {offset : Int} {rows : List SegmentRow}
    (h : Ascending SegmentRow.id rows) : Ascending SegmentRow.id (withOffsets offset rows) := by
  unfold Ascending at h ⊢
  rw [← List.pairwise_map (f := SegmentRow.id) (R := fun i j => compare i j = .lt)] at h ⊢
  rw [map_withOffsets fun _ _ => rfl]
  exact h

/-- A stream that is laid out anew has its segments laid out. -/
theorem segmentsOf_layOut (s : Store) (x : StreamId) :
    (s.putSegments (withOffsets 0 (s.segmentsOf x))).segmentsOf x =
      withOffsets 0 (s.segmentsOf x) := by
  refine segmentsOf_putSegments (ascending_withOffsets ?_) (fun r hr => ?_) fun r hr => ?_
  · exact s.segments.ascending.sublist List.filter_sublist
  · obtain ⟨k, hk, _, rfl⟩ := mem_withOffsets hr
    exact (mem_segmentsOf.1 hk).2
  · rw [map_withOffsets fun _ _ => rfl]
    exact List.mem_map_of_mem hr

/-! ## The numbers of all committed objects -/

/-- The numbers of committed objects are those that its segments give. -/
def Booked (s : Store) : Prop :=
  ∀ o ∈ s.objects.rows, o.hasStatus .committed = true → Books o (s.segmentsOf o.stream)

theorem booked_empty : Store.empty.Booked := fun _ ho => absurd ho List.not_mem_nil

/-- An object that is completed gets the numbers that its segments give. -/
theorem books_complete (r : CommitObject) (metadata : Option Metadata) (o : ObjectRow)
    (rows : List SegmentRow) : Books (r.row metadata o rows) (withOffsets 0 rows) where
  count := by
    have hlen := congrArg List.length (map_withOffsets (f := SegmentRow.id) (fun _ _ => rfl) 0 rows)
    rw [List.length_map, List.length_map] at hlen
    unfold CommitObject.row
    dsimp only
    rw [hlen]
  plain := by
    rw [sumOf_eq_sum, map_withOffsets fun _ _ => rfl, ← sumOf_eq_sum]
    rfl
  encrypted := by
    rw [sumOf_eq_sum, map_withOffsets fun _ _ => rfl, ← sumOf_eq_sum]
    rfl
  fixed := by
    rw [fixedSegmentSize_congr (map_withOffsets (fun _ _ => rfl) 0 rows)]
    rfl
  laid_out := laidOut_withOffsets 0 rows

/-- A committed object keeps its numbers in a change that leaves committed streams alone. -/
theorem Booked.of_keepsCommitted (hb : s.Booked) (hk : s.KeepsCommitted s')
    (ho : o ∈ s.objects.rows) (hcommitted : o.hasStatus .committed = true) :
    Books o (s'.segmentsOf o.stream) := by
  rw [segmentsOf_congr (hk.rows o.stream ⟨o, ho, rfl, hcommitted⟩)]
  exact hb o ho hcommitted

end Store

open Store

variable {s s' : Store} {x : StreamId}

/-- **Uploads keep the numbers of committed objects right,** and get them right at the end. -/
theorem UploadStep.booked (h : UploadStep Lacks s s') (hs : s.Coherent) (hb : s.Booked) :
    s'.Booked := by
  have hkeeps := h.keepsCommitted hs
  intro o' ho' hcommitted
  cases h with
  | nodes => exact hb.of_keepsCommitted hkeeps ho' hcommitted
  | segment => exact hb.of_keepsCommitted hkeeps ho' hcommitted
  | drop => exact hb.of_keepsCommitted hkeeps ho' hcommitted
  | start hstatus =>
    rcases Table.mem_insert.1 ho' with rfl | ⟨ho', -⟩
    · exact absurd hcommitted (ObjectRow.not_committed_of_pending hstatus)
    · exact hb.of_keepsCommitted hkeeps ho' hcommitted
  | @complete o ho _ r metadata =>
    rcases Table.mem_insert.1 ho' with rfl | ⟨ho', -⟩
    · change Books _ ((s.putSegments (withOffsets 0 (s.segmentsOf o.stream))).segmentsOf o.stream)
      rw [segmentsOf_layOut]
      exact books_complete r metadata o (s.segmentsOf o.stream)
    · exact hb.of_keepsCommitted hkeeps ho' hcommitted
  | @metadata o ho hstatus parts =>
    rcases Table.mem_insert.1 ho' with rfl | ⟨ho', -⟩
    · exact (hb o ho hstatus).congr ⟨rfl, rfl, rfl, rfl⟩ rfl
    · exact hb.of_keepsCommitted hkeeps ho' hcommitted

section Copied

variable {now : Instant} {f : FinishCopy} {o : ObjectRow} {source : Object}
  {metadata : Option Metadata} {pairs : List (SegmentRow × SegmentKey)} {object : Object}
  (h : s.Copied now f o source metadata pairs object s') (hfresh : s.Lacks f.newStream)

include h hfresh

theorem Store.Copied.slices_new : (s'.segmentsOf f.newStream).map SegmentRow.slice =
    (s.segmentsOf f.source.stream).map SegmentRow.slice := by
  refine slices_eq fun p => (h.row?_new hfresh p).imp fun c k _ _ hc => ?_
  obtain ⟨q, -, -, rfl⟩ := hc
  rfl

/-- **A copy takes over the numbers of its source** with the slices that they say of. -/
theorem Store.Copied.booked (hb : s.Booked) : s'.Booked := by
  intro o' ho' hcommitted
  rcases h.mem_objects.1 ho' with rfl | ho'
  · obtain ⟨ho, -, hstream, hstatus⟩ := objectOf?_eq_some h.found
    have hslices := h.slices_new hfresh
    rw [← hstream] at hslices
    obtain ⟨_, _, count, fixed, -, -, hcount, hfixed, rfl⟩ := ObjectRow.view_eq_ok.1 h.source_view
    -- numbers that are read and written again are the same
    refine (hb o ho hstatus).congr ?_ hslices
    exact ⟨int32?_eq_some hcount, rfl, rfl, int32?_eq_some hfixed⟩
  · have hne := hfresh.1 o' ho'
    rw [segmentsOf_congr (h.row?_of_ne hne)]
    exact hb o' ho' hcommitted

end Copied

/-- **A deletion leaves the slices of streams that stay,** so their numbers are right still. -/
theorem DeletionStep.slices_eq {rows : List ObjectRow} {orphaned : List SegmentRow}
    (h : DeletionStep s rows orphaned s') (hs : s.Coherent) (hx : x ∉ goneStreams rows) :
    (s'.segmentsOf x).map SegmentRow.slice = (s.segmentsOf x).map SegmentRow.slice := by
  refine Store.slices_eq fun p => (h.row?_rel hs hx p).imp fun r k _ _ hrk => ?_
  rcases hrk with rfl | ⟨heir, rfl⟩
  · rfl
  · exact SegmentRow.slice_withPiecesOf k heir

theorem DeletionStep.booked {rows : List ObjectRow} {orphaned : List SegmentRow}
    (h : DeletionStep s rows orphaned s') (hs : s.Coherent) (hb : s.Booked) : s'.Booked := by
  intro o ho hcommitted
  obtain ⟨ho, hstays⟩ := (h.mem_objects hs).1 ho
  exact (hb o ho hcommitted).congr ⟨rfl, rfl, rfl, rfl⟩ (h.slices_eq hs hstays)

theorem Change.booked (h : Change Lacks s s') (hs : s.Coherent) (hb : s.Booked) : s'.Booked := by
  cases h with
  | upload h => exact h.booked hs hb
  | copy hfresh hcopy =>
    obtain ⟨_, _, _, _, hcopied⟩ := copied_of_ok hcopy
    exact hcopied.booked hfresh hb
  | delete h => exact h.booked hs hb

/-- **A change leaves the slices of a committed object that stays.** -/
theorem Change.slices_eq (h : Change Lacks s s') (hs : s.Coherent) (hx : s.IsCommitted x)
    (hstays : ∃ o ∈ s'.objects.rows, o.stream = x) :
    (s'.segmentsOf x).map SegmentRow.slice = (s.segmentsOf x).map SegmentRow.slice := by
  cases h with
  | upload h => rw [segmentsOf_congr ((h.keepsCommitted hs).rows x hx)]
  | copy hfresh hcopy =>
    obtain ⟨_, _, _, _, hcopied⟩ := copied_of_ok hcopy
    rw [segmentsOf_congr (hcopied.row?_of_ne (hfresh.ne_of_committed hx))]
  | delete h =>
    obtain ⟨o, ho, rfl⟩ := hstays
    exact h.slices_eq hs ((h.mem_objects hs).1 ho).2

namespace Site

variable {σ : Site}

/-- The numbers of committed objects are right throughout a run with fresh stream ids. -/
theorem Reachable.booked (hσ : σ.Reachable Lacks) (hs : σ.store = some s) : s.Booked := by
  -- changes keep the numbers right on coherent tables, so both are carried along
  have hboth : s.Coherent ∧ s.Booked :=
    hσ.invariant (P := fun s => s.Coherent ∧ s.Booked) ⟨coherent_empty, booked_empty⟩
      (fun _ _ hc h => ⟨hc.coherent h.1, hc.booked h.1 h.2⟩) hs
  exact hboth.2

/-- **The numbers of a committed object say what its segments are,** whether it was uploaded, copied
or handed the pieces of a deleted object, in runs with fresh stream ids and if its segments are not
too many for a 32-bit count. -/
theorem Reachable.accounts_exact (hσ : σ.Reachable Lacks) (hs : σ.store = some s) {o : ObjectRow}
    (ho : o ∈ s.objects.rows) (hcommitted : o.hasStatus .committed = true)
    (hfew : (s.segmentsOf o.stream).length < 2147483648) : Accounts o (s.segmentsOf o.stream) :=
  (hσ.booked hs o ho hcommitted).accounts ((hσ.coherent hs).ascending_places o.stream) hfew

end Site

/-! ### Copies whose source is deleted, and an upload of three segments -/

namespace Sample

/-- A remote segment at an index, whose offset is only known when the upload is completed. -/
def slab (o : ObjectStream) (index : UInt32) (plainSize : Int32) : Call :=
  .commitSegment {
    stream := o, position := ⟨0, index⟩, rootPiece := .ofNat 3, keyNonce := [1], key := [2]
    plainOffset := 0, plainSize, encryptedSize := 7, redundancy := { algorithm := 1 }
    pieces := [⟨0, .ofNat 9⟩] }

/-- The deletion of the object of which there are two copies, and an upload of three segments. -/
def slabs : List Event :=
  deletion :: [begin (identity 4 4), slab (identity 4 4) 2 2, slab (identity 4 4) 0 5,
    slab (identity 4 4) 1 5, commit (identity 4 4)].map (.call 0 moment)

/-- The site with an heir of the deleted object, another copy, and the upload. -/
def shelf : Site := site.run slabs

theorem reachable_shelf : shelf.Reachable Lacks := reachable_site.run (by decide +kernel)

end Sample

/-- The numbers of all three objects say what their segments are. -/
theorem Sample.accounts_exact_shelf :
    ∃ s, Sample.shelf.store = some s ∧
      s.objects.rows.map (fun o => (o.segmentCount, o.fixedSegmentSize)) =
        [(1, 5), (1, 5), (3, 5)] ∧
      ∀ o ∈ s.objects.rows, Accounts o (s.segmentsOf o.stream) := by
  obtain ⟨s, hstands⟩ := Sample.reachable_shelf.stands
  have hnumbers : Sample.shelf.objects.map (fun o => (o.segmentCount, o.fixedSegmentSize)) =
      [(1, 5), (1, 5), (3, 5)] := by decide +kernel
  have hfacts : ∀ o ∈ Sample.shelf.objects, o.hasStatus .committed = true ∧
      Sample.shelf.store.all fun s => decide ((s.segmentsOf o.stream).length < 2147483648) := by
    decide +kernel
  have hobjects : Sample.shelf.objects = s.objects.rows := by
    rw [Site.objects, hstands.store]
    rfl
  rw [hobjects] at hnumbers hfacts
  refine ⟨s, hstands.store, hnumbers, fun o ho => ?_⟩
  obtain ⟨hcommitted, hfew⟩ := hfacts o ho
  rw [hstands.store, Option.all_some, decide_eq_true_eq] at hfew
  exact Site.Reachable.accounts_exact Sample.reachable_shelf hstands.store ho hcommitted hfew

end ObjectCatalog
