import ObjectCatalog.Proofs.Completions

/-!
# Completing an upload with listed segments

A completion with a list of segments looks the segments up in one pass, takes out the others and tells
what pieces these held. It completes what the plain completion would complete on tables from which the
others have been taken.

* `checkAscending_eq_ok_iff`: which lists are in order.
* `Store.Trimmed`, `Store.unlisted`: the tables without the segments that are not listed, and these
  segments.
* `SegmentRow.Releases`: what is reported of a row that is removed.
* `Catalog.run_commitObjectWithSegments`: **the call is a plain completion of the trimmed tables.**
* `Site.Reachable.commit_listed`: the same at every reachable site, with what the call reports.
-/

namespace ObjectCatalog

open Store

variable {s : Store} {c : Catalog} {x : StreamId}

/-! ## Lists in order -/

/-- Positions are checked for strictly ascending order. -/
theorem checkAscending_eq_ok_iff {ps : List Position} :
    checkAscending ps = .ok () ↔ Ascending id ps := by
  induction ps with
  | nil => exact iff_of_true rfl .nil
  | cons p rest ih =>
    cases rest with
    | nil => exact iff_of_true rfl (List.pairwise_singleton _ _)
    | cons q rest =>
      unfold Ascending at ih ⊢
      rw [checkAscending, Except.bind_eq_ok]
      constructor
      · rintro ⟨_, hne, h⟩
        obtain ⟨_, hnot, h⟩ := Except.bind_eq_ok.1 h
        rw [reject_eq_ok, decide_eq_false_iff_not] at hne hnot
        have hlt : compare p q = .lt := by
          cases horder : compare p q with
          | lt => rfl
          | eq => exact absurd (Std.LawfulEqOrd.eq_of_compare horder) hne
          | gt => exact absurd horder hnot
        refine List.pairwise_cons.2 ⟨fun k hk => ?_, ih.1 h⟩
        rcases List.mem_cons.1 hk with rfl | hk
        · exact hlt
        · exact Std.TransCmp.lt_trans hlt ((List.pairwise_cons.1 (ih.1 h)).1 k hk)
      · intro h
        obtain ⟨hp, hrest⟩ := List.pairwise_cons.1 h
        have hlt : compare p q = .lt := hp q List.mem_cons_self
        have hne : p ≠ q := ne_of_compare_lt hlt
        refine ⟨(), reject_eq_ok.2 (decide_eq_false hne), Except.bind_eq_ok.2 ⟨(), ?_, ih.2 hrest⟩⟩
        rw [reject_eq_ok, hlt]
        rfl

/-! ## Tables without the other segments -/

/-- A stream has a segment at a place just when one of its rows stands there. -/
theorem Store.AllRows.segment?_isSome_iff (hall : s.AllRows SegmentRow.Sane) {p : Position} :
    (s.segment? x p).isSome = true ↔ ∃ r ∈ s.segmentsOf x, r.place = p := by
  rw [segment?_eq, Option.isSome_iff_exists]
  constructor
  · rintro ⟨r, hr⟩
    obtain ⟨hmem, hstream, hposition⟩ := row?_eq_some_iff.1 hr
    exact ⟨r, mem_segmentsOf.2 ⟨hmem, hstream⟩, SegmentRow.place_eq hposition⟩
  · rintro ⟨r, hr, rfl⟩
    have hmem := mem_segmentsOf.1 hr
    refine ⟨r, row?_eq_some_iff.2 ⟨hmem.1, hmem.2, ?_⟩⟩
    exact (hall r hmem.1).column_place.symm

/-- What every row of some tables has, every row has after some segments were dropped. -/
theorem Store.AllRows.dropOtherSegments {quality : NodeTable → SegmentRow → Prop}
    (hall : s.AllRows quality) (x : StreamId) (kept : List Position) :
    (s.dropOtherSegments x kept).AllRows quality :=
  fun r hr => hall r (List.mem_filter.1 hr).1

namespace Store

/-- The segments of a stream that are not at the positions of a list, in position order. -/
def unlisted (s : Store) (x : StreamId) (listed : List Position) : List SegmentRow :=
  (s.segmentsOf x).filter fun row => !decide (row.place ∈ listed)

/-- Tables that are as others, but without the segments of a stream that are not listed. -/
structure Trimmed (s : Store) (x : StreamId) (listed : List Position) (s₀ : Store) : Prop where
  objects : s₀.objects = s.objects
  copies : s₀.copies = s.copies
  nodes : s₀.nodes = s.nodes
  segments : ∀ row, row ∈ s₀.segments.rows ↔
    row ∈ s.segments.rows ∧ (row.stream = x → row.place ∈ listed)

theorem trimmed_dropOtherSegments (s : Store) (x : StreamId) (listed : List Position) :
    s.Trimmed x listed (s.dropOtherSegments x listed) where
  objects := rfl
  copies := rfl
  nodes := rfl
  segments row := by
    unfold dropOtherSegments
    rw [Table.rows_filter, List.mem_filter]
    refine and_congr_right fun _ => ?_
    rw [Bool.or_eq_true, decide_eq_true_eq, decide_eq_true_eq, imp_iff_not_or]

/-- Nothing is dropped when all positions are listed. -/
theorem dropOtherSegments_all (s : Store) (x : StreamId) :
    s.dropOtherSegments x ((s.segmentsOf x).map SegmentRow.place) = s := by
  have hrows : s.segments.filter (fun r => r.stream ≠ x ||
      decide (r.place ∈ (s.segmentsOf x).map SegmentRow.place)) = s.segments := by
    refine Table.ext (List.filter_eq_self.2 fun r hr => ?_)
    rw [Bool.or_eq_true, decide_eq_true_eq, decide_eq_true_eq, ← imp_iff_not_or]
    exact fun hstream => List.mem_map_of_mem (mem_segmentsOf.2 ⟨hr, hstream⟩)
  unfold dropOtherSegments
  rw [hrows]

theorem unlisted_all (s : Store) (x : StreamId) :
    s.unlisted x ((s.segmentsOf x).map SegmentRow.place) = [] := by
  refine List.filter_eq_nil_iff.2 fun r hr hnot => ?_
  rw [decide_eq_true (List.mem_map_of_mem hr)] at hnot
  cases hnot

end Store

/-! ## Released pieces -/

/-- A row that is removed, and what is reported of it: its root piece id and its pieces. -/
structure SegmentRow.Releases (t : NodeTable) (r : SegmentRow) (out : ReleasedPieces) : Prop where
  rootPiece : r.rootPiece? = some out.rootPiece
  pieces : (Blob.stored r.blob >>= t.piecesOf) = .ok out.pieces

/-- What a row that can be read releases can be told. -/
theorem SegmentRow.Sane.exists_released {t : NodeTable} {r : SegmentRow} (h : r.Sane t) :
    ∃ out, SegmentRow.released t r = .ok out ∧ r.Releases t out := by
  obtain ⟨aliases, hstored, hcovers⟩ := h.stored
  obtain ⟨pieces, hpieces⟩ := hcovers.piecesOf_ok
  obtain ⟨root, hroot⟩ := Option.isSome_iff_exists.1 (SegmentRow.isReadable_iff.1 h.readable).1
  refine ⟨⟨root, pieces⟩, ?_, hroot, ?_⟩
  · rw [SegmentRow.released, hstored, hroot]
    change (t.piecesOf aliases >>= _) = _
    rw [hpieces]
    rfl
  · rw [hstored]
    exact hpieces

/-- Removed rows are reported one by one, and nothing is looked up if none of them has pieces. -/
theorem Catalog.run_release (hcache : c.cache.Within s.nodes) {rows : List SegmentRow}
    (hrows : ∀ r ∈ rows, r.Sane s.nodes) : ∃ released cache,
      c.run (reading (SegmentRow.release s.nodes rows)) = (.ok released, { c with cache }) ∧
        List.Forall₂ (SegmentRow.Releases s.nodes) (rows.filter (·.holdsPieces)) released ∧
          (rows = [] → cache = c.cache) := by
  have hout : ∀ r ∈ rows.filter (·.holdsPieces), ∃ out, SegmentRow.released s.nodes r = .ok out :=
    fun r hr => by
      obtain ⟨out, hout, -⟩ := (hrows r (List.mem_filter.1 hr).1).exists_released
      exact ⟨out, hout⟩
  obtain ⟨released, hreleased⟩ := Except.exists_mapM_eq_ok hout
  have hrel : List.Forall₂ (SegmentRow.Releases s.nodes) (rows.filter (·.holdsPieces)) released := by
    refine (List.forall₂_iff_zip.1 (Except.mapM_eq_ok_iff.1 hreleased)).elim fun hlength hzip =>
      List.forall₂_iff_zip.2 ⟨hlength, fun {r out} hmem => ?_⟩
    have hr := (List.mem_filter.1 (List.of_mem_zip hmem).1).1
    obtain ⟨out', hout', hreleases⟩ := (hrows r hr).exists_released
    rw [hzip hmem, Except.ok.injEq] at hout'
    rw [hout']
    exact hreleases
  cases rows with
  | nil =>
    cases hreleased
    exact ⟨[], c.cache, rfl, .nil, fun _ => rfl⟩
  | cons r rest =>
    obtain ⟨cache, -, hrun⟩ :=
      run_reading_gives hcache (SegmentRow.gives_release s.nodes (r :: rest))
    rw [hreleased] at hrun
    exact ⟨released, cache, hrun, hrel, fun hnil => by cases hnil⟩

/-! ## The call -/

namespace Catalog

variable {r : CommitObjectWithSegments}

/-- The rows that are listed are all there, so none of the list is absent. -/
theorem find?_absent_eq_none_iff (hall : s.AllRows SegmentRow.Sane) {listed : List Position} :
    (listed.find? fun p => !(s.segmentsOf x).any fun row => decide (row.place = p)) = none ↔
      ∀ p ∈ listed, (s.segment? x p).isSome = true := by
  rw [List.find?_eq_none]
  refine forall₂_congr fun p _ => ?_
  rw [hall.segment?_isSome_iff, Bool.not_eq_true', Bool.not_eq_false, List.any_eq_true]
  simp only [decide_eq_true_eq]

/-- **A completion with listed segments that are there is a plain completion of the tables without
the others.** -/
theorem run_commitObjectWithSegments (hstore : c.store = some s) (hcache : c.cache.Within s.nodes)
    (hall : s.AllRows SegmentRow.Sane) (hlisted : Ascending id r.segments)
    (hthere : ∀ p ∈ r.segments, (s.segment? r.commit.stream.stream p).isSome = true) :
    ∃ released cache cache', (c.run (commitObjectWithSegments r) =
        match (s.dropOtherSegments r.commit.stream.stream r.segments).commitObject c.settings
          r.commit with
        | .ok (object, s') => (.ok (object, released), { c with store := some s', cache })
        | .error e => (.error e, { c with cache := cache' })) ∧
      List.Forall₂ (SegmentRow.Releases s.nodes)
        ((s.unlisted r.commit.stream.stream r.segments).filter (·.holdsPieces)) released ∧
      (s.unlisted r.commit.stream.stream r.segments = [] → cache = c.cache ∧ cache' = c.cache) := by
  have hstored : ∀ k ∈ s.segmentsOf r.commit.stream.stream, k.Sane s.nodes := fun k hk =>
    hall k (mem_segmentsOf.1 hk).1
  have hdropped : ∀ k ∈ s.unlisted r.commit.stream.stream r.segments, k.Sane s.nodes := fun k hk =>
    hstored k (List.mem_filter.1 hk).1
  obtain ⟨released, cache, hread, hrel, hnone⟩ := run_release hcache hdropped
  -- the pending object is looked up before the segments are dropped
  have hsame : (s.dropOtherSegments r.commit.stream.stream r.segments).pendingForCommit
      r.commit.stream = s.pendingForCommit r.commit.stream := rfl
  unfold commitObjectWithSegments
  rw [run_lift_bind]
  cases hcheck : r.commit.check with
  | error e =>
    refine ⟨released, cache, c.cache, ?_, hrel, fun hnil => ⟨hnone hnil, rfl⟩⟩
    rw [Store.commitObject, hcheck]
    rfl
  | ok metadata =>
    dsimp only
    rw [run_lift_bind, checkAscending_eq_ok_iff.2 hlisted]
    dsimp only
    rw [run_tables_bind hstore, run_lift_bind, Store.commitObject_of_check hcheck, hsame]
    cases hpending : s.pendingForCommit r.commit.stream with
    | error e => exact ⟨released, cache, c.cache, rfl, hrel, fun hnil => ⟨hnone hnil, rfl⟩⟩
    | ok pending =>
      dsimp only
      rw [run_lift_bind, SegmentRow.require_of_forall fun k hk => (hstored k hk).readable]
      dsimp only
      rw [(find?_absent_eq_none_iff hall).2 hthere]
      dsimp only
      rw [List.partition_eq_filter_filter]
      refine ⟨released, cache, cache, ?_, hrel, fun hnil => ⟨hnone hnil, hnone hnil⟩⟩
      refine (run_bind_ok hread).trans ?_
      rw [run_get_bind, run_lift_bind, ← segmentsOf_dropOtherSegments]
      change _ = match (s.dropOtherSegments r.commit.stream.stream r.segments).complete c.settings
          r.commit metadata pending ((s.dropOtherSegments r.commit.stream.stream
            r.segments).segmentsOf r.commit.stream.stream) with
        | Except.ok (object, s') => _
        | Except.error e => _
      cases (s.dropOtherSegments r.commit.stream.stream r.segments).complete c.settings
          r.commit metadata pending ((s.dropOtherSegments r.commit.stream.stream
            r.segments).segmentsOf r.commit.stream.stream) <;> rfl

/-- What a list is like with which an upload was completed. -/
theorem listed_of_ok (hstore : c.store = some s) (hall : s.AllRows SegmentRow.Sane)
    {out : Object × List ReleasedPieces}
    (hok : (c.run (commitObjectWithSegments r)).1 = .ok out) :
    Ascending id r.segments ∧
      ∀ p ∈ r.segments, (s.segment? r.commit.stream.stream p).isSome = true := by
  unfold commitObjectWithSegments at hok
  obtain ⟨metadata, -, hok⟩ := run_lift_bind_eq_ok.1 hok
  obtain ⟨_, hlisted, hok⟩ := run_lift_bind_eq_ok.1 hok
  rw [run_tables_bind hstore] at hok
  obtain ⟨pending, -, hok⟩ := run_lift_bind_eq_ok.1 hok
  obtain ⟨_, -, hok⟩ := run_lift_bind_eq_ok.1 hok
  refine ⟨checkAscending_eq_ok_iff.1 hlisted, (find?_absent_eq_none_iff hall).1 ?_⟩
  cases hfind : r.segments.find? fun p =>
      !(s.segmentsOf r.commit.stream.stream).any fun row => decide (row.place = p) with
  | none => rfl
  | some absent => rw [hfind] at hok; cases hok

/-- What it takes to complete an upload with a list, and what comes of it. -/
theorem run_commitObjectWithSegments_eq_ok (hstore : c.store = some s)
    (hcache : c.cache.Within s.nodes) (hall : s.AllRows SegmentRow.Sane) {object : Object}
    {released : List ReleasedPieces}
    (hok : (c.run (commitObjectWithSegments r)).1 = .ok (object, released)) :
    ∃ s', (s.dropOtherSegments r.commit.stream.stream r.segments).commitObject c.settings r.commit =
        .ok (object, s') ∧
      (c.run (commitObjectWithSegments r)).2.store = some s' ∧
      List.Forall₂ (SegmentRow.Releases s.nodes)
        ((s.unlisted r.commit.stream.stream r.segments).filter (·.holdsPieces)) released := by
  obtain ⟨hlisted, hthere⟩ := listed_of_ok hstore hall hok
  obtain ⟨released', cache, cache', hrun, hrel, -⟩ :=
    run_commitObjectWithSegments hstore hcache hall hlisted hthere
  rw [hrun] at hok ⊢
  cases hplain : (s.dropOtherSegments r.commit.stream.stream r.segments).commitObject c.settings
      r.commit with
  | error e => rw [hplain] at hok; cases hok
  | ok out =>
    rw [hplain] at hok
    cases hok
    exact ⟨out.2, rfl, rfl, hrel⟩

/-- A list that is in order and all there is no obstacle. -/
theorem exists_ok_of_listed (hstore : c.store = some s) (hcache : c.cache.Within s.nodes)
    (hall : s.AllRows SegmentRow.Sane) (hlisted : Ascending id r.segments)
    (hthere : ∀ p ∈ r.segments, (s.segment? r.commit.stream.stream p).isSome = true)
    {out : Object × Store} (hplain : (s.dropOtherSegments r.commit.stream.stream
      r.segments).commitObject c.settings r.commit = .ok out) :
    ∃ out, (c.run (commitObjectWithSegments r)).1 = .ok out := by
  obtain ⟨released, cache, cache', hrun, -⟩ :=
    run_commitObjectWithSegments hstore hcache hall hlisted hthere
  rw [hrun, hplain]
  exact ⟨(out.1, released), rfl⟩

/-- **A completion with all segments listed is the plain completion,** and reports nothing. -/
theorem run_commitObjectWithSegments_all (hstore : c.store = some s)
    (hcache : c.cache.Within s.nodes) (hall : s.AllRows SegmentRow.Sane)
    (hcomplete : r.segments = (s.segmentsOf r.commit.stream.stream).map SegmentRow.place) :
    c.run (commitObjectWithSegments r) =
      ((c.run (commitObject r.commit)).1.map (·, []), (c.run (commitObject r.commit)).2) := by
  have hlisted : Ascending id r.segments := by
    rw [hcomplete]
    exact List.pairwise_map.2 (hall.ascending_places _)
  have hthere : ∀ p ∈ r.segments, (s.segment? r.commit.stream.stream p).isSome = true := by
    intro p hp
    rw [hcomplete] at hp
    obtain ⟨row, hrow, hplace⟩ := List.mem_map.1 hp
    exact hall.segment?_isSome_iff.2 ⟨row, hrow, hplace⟩
  obtain ⟨released, cache, cache', hrun, hrel, hnone⟩ :=
    run_commitObjectWithSegments hstore hcache hall hlisted hthere
  rw [hrun, run_commitObject hstore hall]
  -- no segment is dropped, so nothing is looked up
  rw [hcomplete, unlisted_all] at hrel hnone
  rw [hcomplete, dropOtherSegments_all]
  obtain ⟨rfl, rfl⟩ := hnone rfl
  cases hrel
  cases s.commitObject c.settings r.commit <;> rfl

end Catalog

namespace Site

variable {σ : Site} {h : Handle} {allow : Store → StreamId → Prop}

/-- **A completion with listed segments is a plain completion of tables without the others.** It
succeeds just when the list is in strict order, all of it is there, and the plain completion of these
tables succeeds; it gives the same object, leaves the same tables, and reports what the others held, in
position order. With all positions listed it is the plain completion, and reports nothing. -/
theorem Reachable.commit_listed (hσ : σ.Reachable allow) (hs : σ.store = some s) (hh : h ∈ σ.handles)
    (r : CommitObjectWithSegments) :
    let x := r.commit.stream.stream
    let c := σ.catalog h
    let listed := c.run (Catalog.commitObjectWithSegments r)
    (∃ s₀, s.Trimmed x r.segments s₀ ∧
      let plain := Catalog.run { c with store := some s₀ } (Catalog.commitObject r.commit)
      ((∃ out, listed.1 = .ok out) ↔
        Ascending id r.segments ∧ (∀ p ∈ r.segments, (s.segment? x p).isSome = true) ∧
          ∃ object, plain.1 = .ok object) ∧
      ∀ object released, listed.1 = .ok (object, released) →
        plain.1 = .ok object ∧ listed.2.store = plain.2.store ∧
          Ascending SegmentRow.place (s.unlisted x r.segments) ∧
          List.Forall₂ (SegmentRow.Releases s.nodes)
            ((s.unlisted x r.segments).filter (·.holdsPieces)) released ∧
          ∀ row ∈ s.unlisted x r.segments, row.holdsPieces = false ↔
            Blob.stored row.blob = .ok []) ∧
    (r.segments = (s.segmentsOf x).map SegmentRow.place →
      let plain := c.run (Catalog.commitObject r.commit)
      listed = (plain.1.map (·, []), plain.2)) := by
  obtain ⟨s', hstands⟩ := hσ.stands
  obtain rfl : s' = s := Option.some.inj (hstands.store.symm.trans hs)
  have hall := hσ.sane hs
  obtain ⟨hstore, hcache, -⟩ := hstands.open hh
  have htrimmed := hall.dropOtherSegments r.commit.stream.stream r.segments
  dsimp only
  refine ⟨⟨_, trimmed_dropOtherSegments s' r.commit.stream.stream r.segments, ⟨?_, ?_⟩, ?_⟩,
    Catalog.run_commitObjectWithSegments_all hstore hcache hall⟩
  · rintro ⟨⟨object, released⟩, hok⟩
    obtain ⟨hlisted, hthere⟩ := Catalog.listed_of_ok hstore hall hok
    obtain ⟨s₁, hplain, -⟩ := Catalog.run_commitObjectWithSegments_eq_ok hstore hcache hall hok
    refine ⟨hlisted, hthere, object, ?_⟩
    rw [Catalog.run_commitObject rfl htrimmed, hplain]
  · rintro ⟨hlisted, hthere, object, hok⟩
    obtain ⟨s₁, hplain, -⟩ := (Catalog.run_commitObject_eq_ok rfl htrimmed).1 hok
    exact Catalog.exists_ok_of_listed hstore hcache hall hlisted hthere hplain
  · intro object released hok
    obtain ⟨s₁, hplain, hleft, hrel⟩ :=
      Catalog.run_commitObjectWithSegments_eq_ok hstore hcache hall hok
    rw [Catalog.run_commitObject rfl htrimmed, hplain]
    refine ⟨rfl, hleft, (hall.ascending_places _).sublist List.filter_sublist, hrel, ?_⟩
    intro row hrow
    have hmem := (mem_segmentsOf.1 (List.mem_filter.1 hrow).1).1
    exact (hσ.packed hs row hmem).holdsPieces_eq_false_iff

end Site

namespace Sample

/-- The completion of the upload of two parts with the segments of the first one. -/
def closingFirst : CommitObjectWithSegments := { commit := closing, segments := [⟨0, 0⟩, ⟨0, 1⟩] }

end Sample

/-- The segment of the other part goes, and its pieces are reported. -/
theorem Sample.commit_listed_parted : ∃ s h object released, parted.store = some s ∧
    h ∈ parted.handles ∧
    ((parted.catalog h).run (Catalog.commitObjectWithSegments closingFirst)).1 =
      .ok (object, released) ∧ released.length = 1 ∧
    List.Forall₂ (SegmentRow.Releases s.nodes)
      ((s.unlisted (identity 1 1).stream closingFirst.segments).filter (·.holdsPieces)) released := by
  obtain ⟨s, hstands⟩ := reachable_parted.stands
  obtain ⟨h, hh, hone⟩ : ∃ h ∈ parted.handles,
      (((parted.catalog h).run (Catalog.commitObjectWithSegments closingFirst)).1.toOption.any
        fun out => out.2.length = 1) = true := by decide +kernel
  cases hrun : ((parted.catalog h).run (Catalog.commitObjectWithSegments closingFirst)).1 with
  | error e => rw [hrun] at hone; cases hone
  | ok out =>
    rw [hrun] at hone
    obtain ⟨⟨s₀, -, -, hdone⟩, -⟩ :=
      Site.Reachable.commit_listed reachable_parted hstands.store hh closingFirst
    obtain ⟨-, -, -, hrel, -⟩ := hdone out.1 out.2 hrun
    exact ⟨s, h, out.1, out.2, hstands.store, hh, hrun, of_decide_eq_true hone, hrel⟩

end ObjectCatalog
