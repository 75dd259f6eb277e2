import ObjectCatalog.Proofs.CopyReads
import ObjectCatalog.Proofs.ScanCalls

/-!
# Ways to read a segment

A segment is read by its position, as the last one of an object, in a page of its stream, or in a
scan. All of these resolve the stored row, in batches of one or of many and through the cache of some
handle. What comes out depends on the row and on the setting for copies only.

* `Store.AllRows.read_row`: the row at a position is what is read there.
* `Catalog.run_listSegments`: **a page is the rows whose turn it is, each resolved by itself.**
* `Catalog.run_getLastSegment`: the last segment is the last row of the latest version's stream,
  resolved. `Store.last_of_page`: the page that is the last one ends with it.
* `Site.Reachable.reads_agree`: **at every reachable site any two handles with one setting read the
  same segments, whichever way they read them.**
-/

namespace ObjectCatalog

open Store

variable {s : Store} {x : StreamId} {p : Position} {r : SegmentRow} {v : Segment}
  {serverSideCopy : Bool}

/-! ## Rows and what is read of them -/

namespace Store

/-- A segment stands where its row does, and is as old. -/
theorem of_resolved (h : s.resolved serverSideCopy r = .ok v) :
    v.stream = r.stream ∧ v.position = r.place ∧ v.createdAt = r.createdAt := by
  unfold resolved at h
  obtain ⟨r', hw, h⟩ := Except.bind_eq_ok.1 h
  obtain ⟨aliases, -, h⟩ := Except.bind_eq_ok.1 h
  obtain ⟨pieces, -, h⟩ := Except.bind_eq_ok.1 h
  cases h
  -- the ancestor gives pieces, a root piece id and a repair time, and nothing else
  rcases of_withAncestor hw with rfl | ⟨k, -, rfl⟩
  · exact ⟨rfl, rfl, rfl⟩
  · exact ⟨rfl, rfl, rfl⟩

end Store

/-- A row that can be read is stored under its place. -/
theorem SegmentRow.Sane.column_place {n : NodeTable} (h : r.Sane n) : r.place.column = r.position := by
  obtain ⟨q, -, hq⟩ := h.position
  rw [SegmentRow.place_eq hq, hq]

namespace Store

/-- **The row at a position is what is read there.** -/
theorem AllRows.read_row (hall : s.AllRows SegmentRow.Sane) (hr : r ∈ s.segments.rows)
    (hzero : r.stream.isZero = false) :
    s.read serverSideCopy r.stream r.place = s.resolved serverSideCopy r := by
  have hsane := hall r hr
  have hrow : s.row? r.stream r.place.column = some r := by
    rw [hsane.column_place]
    exact row?_self hr
  exact read_of_row? hzero hrow hsane.readable

/-- What is read at a position is a row that stands there, resolved. -/
theorem row_of_read (h : s.read serverSideCopy x p = .ok v) :
    x.isZero = false ∧ ∃ r ∈ s.segments.rows,
      r.stream = x ∧ r.place = p ∧ s.resolved serverSideCopy r = .ok v := by
  obtain ⟨hzero, r, hrow, -, hresolved⟩ := read_eq_ok h
  obtain ⟨hr, hstream, hposition⟩ := row?_eq_some_iff.1 hrow
  exact ⟨hzero, r, hr, hstream, SegmentRow.place_eq hposition, hresolved⟩

/-- Rows of a stream stand in the order of their positions. -/
theorem pairwise_segmentsOf (s : Store) (x : StreamId) :
    (s.segmentsOf x).Pairwise fun a b => a.position < b.position :=
  (List.pairwise_map.1 (ascending_positions s x)).imp Std.compare_eq_lt.1

/-- The last row of a stream has the highest position. -/
theorem position_le_of_getLast? (hlast : (s.segmentsOf x).getLast? = some r) {k : SegmentRow}
    (hk : k ∈ s.segmentsOf x) : k.position ≤ r.position := by
  obtain ⟨before, hrows⟩ := List.getLast?_eq_some_iff.1 hlast
  have hpair := s.pairwise_segmentsOf x
  rw [hrows] at hk hpair
  obtain ⟨-, -, hbefore⟩ := List.pairwise_append.1 hpair
  rcases List.mem_append.1 hk with hk | hk
  · exact (hbefore k hk r List.mem_cons_self).le
  · rw [List.mem_singleton.1 hk]

/-- Rows behind a cursor end with the last row of the stream. -/
theorem getLast?_segmentsAfter (hlast : (s.segmentsOf x).getLast? = some r)
    {cursor : Option Position} (hne : s.segmentsAfter x cursor ≠ []) :
    (s.segmentsAfter x cursor).getLast? = some r := by
  obtain ⟨before, hrows⟩ := List.getLast?_eq_some_iff.1 hlast
  obtain ⟨k, hk⟩ := List.exists_mem_of_ne_nil _ hne
  obtain ⟨hkx, hafter⟩ := List.mem_filter.1 hk
  have hle := position_le_of_getLast? hlast hkx
  -- the cursor is below some row, so it is below the last one
  have hr : cursor.all (·.column < r.position) = true := by
    cases cursor with
    | none => rfl
    | some q =>
      have hlt : q.column < k.position := by simpa using hafter
      simp only [Option.all_some, decide_eq_true_eq]
      omega
  unfold segmentsAfter
  rw [hrows, List.filter_append, List.filter_cons, if_pos hr, List.filter_nil]
  exact List.getLast?_concat

/-- The last segment of the latest version of a key, as the tables say. -/
def last (s : Store) (serverSideCopy : Bool) (l : Location) : Except Error Segment := do
  l.check
  let object ← s.latestCommitted l
  match (s.segmentsOf object.stream.stream).getLast? with
  | none => throw (.segmentNotFound (.last object.stream.stream))
  | some row => s.resolved serverSideCopy row

theorem last_eq_ok {l : Location} (h : s.last serverSideCopy l = .ok v) :
    l.check = .ok () ∧ ∃ o, s.latestCommitted l = .ok o ∧
      ∃ r, (s.segmentsOf o.stream.stream).getLast? = some r ∧
        s.resolved serverSideCopy r = .ok v := by
  obtain ⟨_, hcheck, h⟩ := Except.bind_eq_ok.1 h
  obtain ⟨o, ho, h⟩ := Except.bind_eq_ok.1 h
  cases hlast : (s.segmentsOf o.stream.stream).getLast? with
  | none =>
    rw [hlast] at h
    cases h
  | some r =>
    rw [hlast] at h
    exact ⟨hcheck, o, ho, r, hlast, h⟩

/-! ## Pages -/

/-- Readable rows are resolved each by itself, as the tables say. -/
theorem gives_resolveAll {rows : List SegmentRow} (hreadable : ∀ r ∈ rows, r.isReadable = true)
    (statement : Statement) : Lookup.Gives s.nodes (s.resolveAll serverSideCopy statement rows)
      (rows.mapM (s.resolved serverSideCopy)) := by
  unfold resolveAll
  rw [SegmentRow.require_of_forall hreadable]
  exact s.gives_resolveBatch serverSideCopy rows

/-- A page of the segments of a stream, as the tables say. -/
def page (s : Store) (serverSideCopy : Bool) (x : StreamId) (cursor : Option Position)
    (limit : Nat) : Except Error (List Segment × Bool) := do
  reject x.isZero .noStream
  let segments ←
    ((s.segmentsAfter x cursor).take (pageSize limit)).mapM (s.resolved serverSideCopy)
  return (segments, decide (pageSize limit < (s.segmentsAfter x cursor).length))

theorem page_eq_ok {cursor : Option Position} {limit : Nat} {segments : List Segment} {more : Bool}
    (h : s.page serverSideCopy x cursor limit = .ok (segments, more)) :
    x.isZero = false ∧
      List.Forall₂ (fun r v => s.resolved serverSideCopy r = .ok v)
        ((s.segmentsAfter x cursor).take (pageSize limit)) segments ∧
      (more = true ↔ pageSize limit < (s.segmentsAfter x cursor).length) := by
  obtain ⟨_, hzero, h⟩ := Except.bind_eq_ok.1 h
  obtain ⟨segments', hsegments, h⟩ := Except.bind_eq_ok.1 h
  cases h
  exact ⟨reject_eq_ok.1 hzero, Except.mapM_eq_ok_iff.1 hsegments, decide_eq_true_iff⟩

/-- **The segments of a page are what is read at the positions of its rows.** -/
theorem AllRows.read_of_page (hall : s.AllRows SegmentRow.Sane) {cursor : Option Position}
    {limit : Nat} {segments : List Segment} {more : Bool}
    (h : s.page serverSideCopy x cursor limit = .ok (segments, more)) :
    List.Forall₂ (fun r v => v.position = r.place ∧ s.read serverSideCopy x r.place = .ok v)
      ((s.segmentsAfter x cursor).take (pageSize limit)) segments := by
  obtain ⟨hzero, hrel, -⟩ := page_eq_ok h
  refine (List.forall₂_iff_zip.1 hrel).elim fun hlength hzip =>
    List.forall₂_iff_zip.2 ⟨hlength, fun {r v} hrv => ?_⟩
  have hv : s.resolved serverSideCopy r = .ok v := hzip hrv
  have hrx : r ∈ s.segmentsOf x :=
    (List.mem_filter.1 (List.mem_of_mem_take (List.of_mem_zip hrv).1)).1
  obtain ⟨hr, rfl⟩ := mem_segmentsOf.1 hrx
  exact ⟨(of_resolved hv).2.1, by rw [hall.read_row hr hzero, hv]⟩

/-- No page of a stream goes beyond its last row. -/
theorem AllRows.column_le_of_page (hall : s.AllRows SegmentRow.Sane)
    (hlast : (s.segmentsOf x).getLast? = some r) (hv : s.resolved serverSideCopy r = .ok v)
    {cursor : Option Position} {limit : Nat} {segments : List Segment} {more : Bool}
    (h : s.page serverSideCopy x cursor limit = .ok (segments, more)) {w : Segment}
    (hw : w ∈ segments) : w.position.column ≤ v.position.column := by
  obtain ⟨-, hrel, -⟩ := page_eq_ok h
  obtain ⟨k, hk, hkw⟩ := Except.exists_of_forall₂ hrel hw
  have hkx : k ∈ s.segmentsOf x := (List.mem_filter.1 (List.mem_of_mem_take hk)).1
  have hrx : r ∈ s.segmentsOf x := List.mem_of_getLast? hlast
  rw [(of_resolved hkw).2.1, (of_resolved hv).2.1,
    (hall k (mem_segmentsOf.1 hkx).1).column_place, (hall r (mem_segmentsOf.1 hrx).1).column_place]
  exact position_le_of_getLast? hlast hkx

/-- The last page of a stream ends with its last row. -/
theorem last_of_page (hlast : (s.segmentsOf x).getLast? = some r)
    (hv : s.resolved serverSideCopy r = .ok v) {cursor : Option Position} {limit : Nat}
    {segments : List Segment} (h : s.page serverSideCopy x cursor limit = .ok (segments, false))
    (hne : segments ≠ []) : segments.getLast? = some v := by
  obtain ⟨-, hrel, hmore⟩ := page_eq_ok h
  have hall : (s.segmentsAfter x cursor).length ≤ pageSize limit := by
    by_contra hfew
    exact Bool.false_ne_true (hmore.2 (by omega))
  rw [List.take_of_length_le hall] at hrel
  have hrows : s.segmentsAfter x cursor ≠ [] := by
    intro hnil
    rw [hnil, List.forall₂_nil_left_iff] at hrel
    exact hne hrel
  have hback := List.rel_reverse hrel
  have hfirst := getLast?_segmentsAfter hlast hrows
  rw [List.getLast?_eq_head?_reverse] at hfirst ⊢
  obtain ⟨before, hbefore⟩ := List.head?_eq_some_iff.1 hfirst
  rw [hbefore, List.forall₂_cons_left_iff] at hback
  obtain ⟨w, rest, hw, -, hreverse⟩ := hback
  rw [hv, Except.ok.injEq] at hw
  rw [hreverse, hw]
  rfl

end Store

/-! ## Batches -/

namespace Store

/-- **A batch is resolved as each of its rows would be alone,** through any two caches of the alias
table. -/
theorem resolveBatch_ok_iff {c c' : AliasCache} (hc : c.Within s.nodes) (hc' : c'.Within s.nodes)
    {rows : List SegmentRow} {segments : List Segment} :
    ((s.resolveBatch serverSideCopy rows).run c).1 = .ok segments ↔
      List.Forall₂ (fun r v => ((s.resolveBatch serverSideCopy [r]).run c').1 = .ok [v])
        rows segments := by
  have halone : ∀ r v, ((s.resolveBatch serverSideCopy [r]).run c').1 = .ok [v] ↔
      s.resolved serverSideCopy r = .ok v := by
    intro r v
    rw [(s.gives_resolveBatch serverSideCopy [r] c' hc').1, Except.mapM_eq_ok_iff,
      List.forall₂_cons, List.forall₂_nil_left_iff, and_iff_left rfl]
  simp only [halone]
  rw [(s.gives_resolveBatch serverSideCopy rows c hc).1, Except.mapM_eq_ok_iff]

end Store

/-! ## Calls -/

namespace Catalog

variable {c : Catalog}

/-- **A page is the rows whose turn it is, each resolved by itself.** -/
theorem run_listSegments (hstore : c.store = some s) (hcache : c.cache.Within s.nodes)
    (hall : s.AllRows SegmentRow.Sane) (x : StreamId) (cursor : Option Position) (limit : Nat) :
    ∃ cache, cache.Within s.nodes ∧ c.run (listSegments x cursor limit) =
      (s.page c.settings.serverSideCopy x cursor limit, { c with cache }) := by
  have hreadable : ∀ n, ∀ r ∈ (s.segmentsAfter x cursor).take n, r.isReadable = true := by
    intro n r hr
    have hrx : r ∈ s.segmentsOf x := (List.mem_filter.1 (List.mem_of_mem_take hr)).1
    exact (hall r (mem_segmentsOf.1 hrx).1).readable
  unfold listSegments page
  rw [run_reject_bind]
  cases hzero : x.isZero with
  | true => exact ⟨c.cache, hcache, rfl⟩
  | false =>
    rw [if_neg Bool.false_ne_true, run_tables_bind hstore]
    dsimp only
    rw [run_lift_bind, SegmentRow.require_of_forall (hreadable _)]
    dsimp only
    obtain ⟨cache, hwithin, hrun⟩ := run_reading_gives hcache <|
      gives_resolveAll (hreadable (pageSize limit)) .listSegments
    have hresolve : c.run (resolveAll s .listSegments
        (((s.segmentsAfter x cursor).take (pageSize limit + 1)).take (pageSize limit))) =
          (((s.segmentsAfter x cursor).take (pageSize limit)).mapM
            (s.resolved c.settings.serverSideCopy), { c with cache }) := by
      rw [List.take_take, Nat.min_eq_left (Nat.le_succ _), resolveAll, run_get_bind]
      exact hrun
    have hmore : pageSize limit < ((s.segmentsAfter x cursor).take (pageSize limit + 1)).length ↔
        pageSize limit < (s.segmentsAfter x cursor).length := by
      rw [List.length_take]
      omega
    refine ⟨cache, hwithin, ?_⟩
    rw [run_bind, hresolve, decide_eq_decide.2 hmore]
    cases ((s.segmentsAfter x cursor).take (pageSize limit)).mapM
      (s.resolved c.settings.serverSideCopy) <;> rfl

/-- **The last segment is the last row of the latest version's stream, resolved.** -/
theorem run_getLastSegment (hstore : c.store = some s) (hcache : c.cache.Within s.nodes)
    (hall : s.AllRows SegmentRow.Sane) (l : Location) :
    (c.run (getLastSegment l)).1 = s.last c.settings.serverSideCopy l := by
  unfold getLastSegment Store.last
  rw [run_lift_bind]
  cases l.check with
  | error e => rfl
  | ok u =>
    dsimp only
    rw [run_tables_bind hstore, run_lift_bind]
    cases s.latestCommitted l with
    | error e => rfl
    | ok o =>
      cases hlast : (s.segmentsOf o.stream.stream).getLast? with
      | none =>
        simp only [hlast, bind, Except.bind]
        rfl
      | some r =>
        have hr : r ∈ s.segments.rows := (mem_segmentsOf.1 (List.mem_of_getLast? hlast)).1
        have hreadable : ∀ k ∈ [r], k.isReadable = true := by
          intro k hk
          rw [List.mem_singleton.1 hk]
          exact (hall r hr).readable
        obtain ⟨cache, -, hrun⟩ :=
          run_reading_gives hcache (s.gives_resolve c.settings.serverSideCopy r)
        have hresolve : c.run (resolve s .getLastSegment r) =
            (s.resolved c.settings.serverSideCopy r, { c with cache }) := by
          rw [resolve, run_lift_bind, SegmentRow.require_of_forall hreadable]
          exact hrun
        simp only [hlast, bind, Except.bind]
        exact congrArg Prod.fst hresolve

/-- The latest version is the same for every handle. -/
theorem run_getLatestVersion (hstore : c.store = some s) {l : Location} (hcheck : l.check = .ok ()) :
    (c.run (getLatestVersion l)).1 = s.latestCommitted l := by
  unfold getLatestVersion
  rw [run_lift_bind, hcheck]
  dsimp only
  rw [run_tables_bind hstore]
  rfl

end Catalog

namespace Site

variable {σ : Site} {h h' : Handle} {allow : Store → StreamId → Prop}

/-- What a handle gets for a page of the segments of a stream. -/
def listSegments (σ : Site) (h : Handle) (x : StreamId) (cursor : Option Position) (limit : Nat) :
    Except Error (List Segment × Bool) :=
  ((σ.catalog h).run (Catalog.listSegments x cursor limit)).1

/-- What a handle gets for the last segment of the latest version of a key. -/
def lastSegment (σ : Site) (h : Handle) (l : Location) : Except Error Segment :=
  ((σ.catalog h).run (Catalog.getLastSegment l)).1

theorem Stands.listSegments_eq (hσ : σ.Stands s) (hh : h ∈ σ.handles)
    (hall : s.AllRows SegmentRow.Sane) (x : StreamId) (cursor : Option Position) (limit : Nat) :
    σ.listSegments h x cursor limit = s.page h.settings.serverSideCopy x cursor limit := by
  have hopen := hσ.open hh
  obtain ⟨cache, -, hrun⟩ := Catalog.run_listSegments hopen.store hopen.cache hall x cursor limit
  rw [listSegments, hrun]
  rfl

theorem Stands.lastSegment_eq (hσ : σ.Stands s) (hh : h ∈ σ.handles)
    (hall : s.AllRows SegmentRow.Sane) (l : Location) :
    σ.lastSegment h l = s.last h.settings.serverSideCopy l :=
  Catalog.run_getLastSegment (hσ.open hh).store (hσ.open hh).cache hall l

/-- The last segment of the latest version is what is read at its position. It is at the end of the
last page of the stream. -/
theorem Stands.read_of_last (hσ : σ.Stands s) (hh : h ∈ σ.handles)
    (hall : s.AllRows SegmentRow.Sane) {l : Location} (hv : s.last h.settings.serverSideCopy l = .ok v) :
    ∃ o, ((σ.catalog h).run (Catalog.getLatestVersion l)).1 = .ok o ∧
      (o.stream.stream.isZero = false → σ.read h o.stream.stream v.position = .ok v) ∧
      ∀ cursor limit segments more,
        σ.listSegments h o.stream.stream cursor limit = .ok (segments, more) →
          (∀ w ∈ segments, w.position.column ≤ v.position.column) ∧
          (more = false → segments ≠ [] → segments.getLast? = some v) := by
  obtain ⟨hcheck, o, ho, r, hlast, hresolved⟩ := last_eq_ok hv
  obtain ⟨hr, hstream⟩ := mem_segmentsOf.1 (List.mem_of_getLast? hlast)
  refine ⟨o, ?_, fun hzero => ?_, fun cursor limit segments more hpage => ?_⟩
  · rw [Catalog.run_getLatestVersion (hσ.open hh).store hcheck, ho]
  · have hzero' : r.stream.isZero = false := by rw [hstream]; exact hzero
    rw [hσ.read_eq hh, (of_resolved hresolved).2.1, ← hstream, hall.read_row hr hzero']
    exact hresolved
  · rw [hσ.listSegments_eq hh hall] at hpage
    refine ⟨fun w hw => hall.column_le_of_page hlast hresolved hpage hw, fun hmore hne => ?_⟩
    subst hmore
    exact last_of_page hlast hresolved hpage hne

/-- An entry of a scan is what is read at its position, without keys. -/
theorem Stands.read_of_shown (hσ : σ.Stands s) (hh : h ∈ σ.handles)
    (hall : s.AllRows SegmentRow.Sane) (hr : r ∈ s.segments.rows) {entry : LoopSegment}
    (hentry : s.shown h.settings.serverSideCopy r = .ok entry)
    (hzero : entry.stream.isZero = false) :
    ∃ v, σ.read h entry.stream entry.position = .ok v ∧ entry = v.forLoop := by
  unfold shown at hentry
  cases hv : s.resolved h.settings.serverSideCopy r with
  | error e =>
    rw [hv] at hentry
    cases hentry
  | ok v =>
    rw [hv] at hentry
    cases hentry
    obtain ⟨hstream, hplace, -⟩ := of_resolved hv
    have hzero' : r.stream.isZero = false := by rw [← hstream]; exact hzero
    refine ⟨v, ?_, rfl⟩
    show σ.read h v.stream v.position = .ok v
    rw [hσ.read_eq hh, hstream, hplace, hall.read_row hr hzero', hv]

/-- A batch shows rows of the tables, whatever happened since the scan found these. -/
theorem Stands.shown_of_outcome (hσ : σ.Stands s) (hh : h ∈ σ.handles)
    (hall : s.AllRows SegmentRow.Sane) {now : Instant} {n : Nat} {asOf : Option Instant}
    {found : Nat → Catalog} (hfound : found 0 = σ.catalog h)
    (hlater : ∀ k, σ.Later h.settings.serverSideCopy (found k)) {k : Nat} {batch : List LoopSegment}
    (hbatch : (SegmentScan.start now n asOf).outcome found k = .ok batch) {entry : LoopSegment}
    (hentry : entry ∈ batch) :
    ∃ r ∈ s.segments.rows, s.shown h.settings.serverSideCopy r = .ok entry := by
  have hfirst : (SegmentScan.start now n asOf).snapshot.or (found 0).store = some s := by
    rw [hfound]
    exact (hσ.open hh).store
  have hat := SegmentScan.at_start hall now n asOf
  have hroom := SegmentScan.capacity_of_outcome hbatch
  rw [SegmentScan.outcome_eq hat (loopBatch_pos n) hroom hall hfirst
    (fun k => hσ.reads_later (hlater k)) k] at hbatch
  obtain ⟨r, hr, hshown⟩ := Except.exists_of_forall₂ (Except.mapM_eq_ok_iff.1 hbatch) hentry
  exact ⟨r, (List.mem_filter.1 (List.mem_of_mem_drop (List.mem_of_mem_take hr))).1, hshown⟩

/-- A segment that is as old as a scan wants is in the scan. -/
theorem shown_of_read {σ : Site} (hσ : σ.Stands s) (hh : h ∈ σ.handles)
    (hall : s.AllRows SegmentRow.Sane) {now : Instant} {n : Nat} {asOf : Option Instant}
    {batches : List (List LoopSegment)} (hok : σ.scanSegments h now n asOf = .ok batches)
    (hv : s.read h.settings.serverSideCopy x p = .ok v)
    (hold : v.createdAt.notAfter (asOf.getD now) = true) : v.forLoop ∈ batches.flatten := by
  have hdrained := drained_scanSegments hσ hh hall now (capacity_of_scanSegments hok) asOf
  rw [hok] at hdrained
  cases hdrained with
  | @batches entries _ hentries hbatched =>
    obtain ⟨-, r, hr, -, -, hresolved⟩ := row_of_read hv
    have hby : r ∈ s.segmentsBy (asOf.getD now) :=
      List.mem_filter.2 ⟨hr, by rw [← (of_resolved hresolved).2.2]; exact hold⟩
    obtain ⟨entry, hmem, hentry⟩ := exists_of_forall₂_left (Except.mapM_eq_ok_iff.1 hentries) hby
    have hshown : s.shown h.settings.serverSideCopy r = .ok v.forLoop := by
      rw [shown, hresolved]
      rfl
    rw [hshown, Except.ok.injEq] at hentry
    rw [hbatched.flatten, hentry]
    exact hmem

/-- **All ways to read a segment agree,** for two handles with one setting for copies. A page is what
is read at the positions whose turn it is. The last segment is what is read at the highest position of
the latest version's stream, no page has a higher one, and the last page ends with it. What a scan
gives is what is read at the position, without keys, whatever happens between its batches; and
whatever is read that is as old as a scan wants is in the scan. A batch of rows is resolved as each row
is alone, through any two caches of the alias table. -/
theorem Reachable.reads_agree (hσ : σ.Reachable allow) (hs : σ.store = some s) (hh : h ∈ σ.handles)
    (hh' : h' ∈ σ.handles) (hsame : h'.settings.serverSideCopy = h.settings.serverSideCopy) :
    (∀ x cursor limit segments more, σ.listSegments h x cursor limit = .ok (segments, more) →
      List.Forall₂ (fun r v => v.position = r.place ∧ σ.read h' x r.place = .ok v)
        ((s.segmentsAfter x cursor).take (pageSize limit)) segments ∧
      (more = true ↔ pageSize limit < (s.segmentsAfter x cursor).length)) ∧
    (∀ l v, σ.lastSegment h l = .ok v →
      ∃ o, ((σ.catalog h').run (Catalog.getLatestVersion l)).1 = .ok o ∧
        (o.stream.stream.isZero = false → σ.read h' o.stream.stream v.position = .ok v) ∧
        ∀ cursor limit segments more,
          σ.listSegments h' o.stream.stream cursor limit = .ok (segments, more) →
            (∀ w ∈ segments, w.position.column ≤ v.position.column) ∧
            (more = false → segments ≠ [] → segments.getLast? = some v)) ∧
    (∀ now n asOf (found : Nat → Catalog), found 0 = σ.catalog h →
      (∀ k, σ.Later h.settings.serverSideCopy (found k)) → ∀ k batch,
        (SegmentScan.start now n asOf).outcome found k = .ok batch → ∀ entry ∈ batch,
          entry.stream.isZero = false →
            ∃ v, σ.read h' entry.stream entry.position = .ok v ∧ entry = v.forLoop) ∧
    (∀ now n asOf batches, σ.scanSegments h now n asOf = .ok batches → ∀ x p v,
      σ.read h' x p = .ok v → v.createdAt.notAfter (asOf.getD now) = true →
        v.forLoop ∈ batches.flatten) ∧
    ∀ c c' : AliasCache, c.Within s.nodes → c'.Within s.nodes → ∀ rows segments,
      ((s.resolveBatch h.settings.serverSideCopy rows).run c).1 = .ok segments ↔
        List.Forall₂ (fun r v =>
          ((s.resolveBatch h'.settings.serverSideCopy [r]).run c').1 = .ok [v]) rows segments := by
  obtain ⟨s', hstands⟩ := hσ.stands
  have heq : s' = s := Option.some.inj (hstands.store.symm.trans hs)
  subst heq
  have hall := hσ.sane hs
  have hread : ∀ x p, σ.read h' x p = s'.read h.settings.serverSideCopy x p := by
    intro x p
    rw [hstands.read_eq hh', hsame]
  refine ⟨?_, ?_, ?_, ?_, ?_⟩
  · intro x cursor limit segments more hpage
    rw [hstands.listSegments_eq hh hall] at hpage
    simp only [hread]
    exact ⟨hall.read_of_page hpage, (page_eq_ok hpage).2.2⟩
  · intro l v hv
    rw [hstands.lastSegment_eq hh hall, ← hsame] at hv
    exact hstands.read_of_last hh' hall hv
  · intro now n asOf found hfound hlater k batch hbatch entry hentry hzero
    obtain ⟨r, hr, hshown⟩ := hstands.shown_of_outcome hh hall hfound hlater hbatch hentry
    rw [← hsame] at hshown
    exact hstands.read_of_shown hh' hall hr hshown hzero
  · intro now n asOf batches hok x p v hv hold
    rw [hread] at hv
    exact shown_of_read hstands hh hall hok hv hold
  · intro c c' hc hc' rows segments
    rw [hsame]
    exact resolveBatch_ok_iff hc hc'

end Site

/-! ### Two handles -/

namespace Sample

/-- The site on which an upload was copied, with a second handle. -/
def reopened : Site := site.step (.opening {})

theorem reachable_reopened : reopened.Reachable Lacks :=
  reachable_site.step fun x hx => by cases hx

end Sample

/-- The handle that made the copies lists one of them, and a new one reads the same by position. -/
theorem Sample.reads_agree_reopened : ∃ h ∈ reopened.handles, ∃ h' ∈ reopened.handles,
    h.cache.size = 1 ∧ h'.cache.size = 0 ∧ ∃ segments,
      reopened.listSegments h (.ofNat 2) none 0 = .ok (segments, false) ∧ segments.length = 1 ∧
        ∀ v ∈ segments, reopened.read h' (.ofNat 2) v.position = .ok v := by
  obtain ⟨s, hstands⟩ := reachable_reopened.stands
  have hlisted : ∃ h ∈ reopened.handles, ∃ h' ∈ reopened.handles, h.cache.size = 1 ∧
      h'.cache.size = 0 ∧ h'.settings.serverSideCopy = h.settings.serverSideCopy ∧
        (reopened.listSegments h (.ofNat 2) none 0).toOption.map (fun out => (out.1.length, out.2)) =
          some (1, false) := by decide +kernel
  obtain ⟨h, hh, h', hh', hsize, hsize', hsame, hpage⟩ := hlisted
  obtain ⟨hlist, -⟩ := Site.Reachable.reads_agree reachable_reopened hstands.store hh hh' hsame
  refine ⟨h, hh, h', hh', hsize, hsize', ?_⟩
  cases hout : reopened.listSegments h (.ofNat 2) none 0 with
  | error e =>
    rw [hout] at hpage
    cases hpage
  | ok out =>
    obtain ⟨segments, more⟩ := out
    rw [hout] at hpage
    obtain ⟨hlength, hmore⟩ : segments.length = 1 ∧ more = false := by
      simpa [Except.toOption] using hpage
    subst hmore
    refine ⟨segments, rfl, hlength, fun v hv => ?_⟩
    obtain ⟨r, -, hplace, hread⟩ := Except.exists_of_forall₂ (hlist _ _ _ _ _ hout).1 hv
    rw [hplace]
    exact hread

end ObjectCatalog
