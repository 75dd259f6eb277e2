import ObjectCatalog.Proofs.Completions
import ObjectCatalog.Proofs.ReadPaths

/-!
# Pages of segments

A page of the segments of a stream starts behind a cursor. Statements compare stored positions, which
are signed: a cursor of a part above `Position.maxPart` is stored below all positions that segments can
have, so it cuts nothing off.

* `Position.column_neg`: where such a cursor is stored.
* `Store.segmentsBehind`: the rows behind a cursor in the order of parts and indexes.
  `Store.AllRows.segmentsAfter_eq`: **a statement selects these if it can tell the cursor.**
* `Store.segmentsAfter_of_append`: behind the last row of a page lie the rows that are left.
* `Catalog.pageThrough`, `Catalog.run_pageThrough`: **a client that takes page after page gets what a
  single page of the joint size would hold.**
* `Site.Reachable.pages_of_segments`: what any page and any client sees of a stream at a reachable site.
-/

namespace ObjectCatalog

open Store

variable {s : Store} {x : StreamId} {r : SegmentRow} {cursor : Option Position}
  {serverSideCopy : Bool}

/-! ## Cursors -/

namespace Position

variable {p : Position}

/-- A part that can be stored is stored as it is. -/
theorem column_nonneg (hp : p.part ≤ maxPart) : 0 ≤ p.column := by
  rw [column_of_le hp]
  exact Int.natCast_nonneg _

/-- A greater part wraps around. -/
theorem column_neg (hp : maxPart < p.part) : p.column < 0 := by
  have hpart : 2147483647 < p.part.toNat := UInt32.lt_iff_toNat_lt.1 hp
  have hbound := p.part.toNat_lt
  have hindex := p.index.toNat_lt
  unfold column encode
  rw [Int.bmod_def]
  omega

/-- A cursor, unless statements cannot tell it from none. -/
def tellable (cursor : Option Position) : Option Position :=
  cursor.filter fun p => p.part ≤ maxPart

end Position

/-- What lies above one of strictly ascending keys comes after it. -/
theorem filter_above {α : Type} (key : α → Int) {before rest : List α} {a : α}
    (h : (before ++ a :: rest).Pairwise fun b c => key b < key c) :
    (before ++ a :: rest).filter (fun b => key a < key b) = rest := by
  obtain ⟨-, hafter, hbefore⟩ := List.pairwise_append.1 h
  have hnone : before.filter (fun b => key a < key b) = [] := by
    refine List.filter_eq_nil_iff.2 fun b hb => ?_
    have hlt := hbefore b hb a List.mem_cons_self
    rw [decide_eq_true_eq]
    omega
  have hall : rest.filter (fun b => key a < key b) = rest :=
    List.filter_eq_self.2 fun b hb => decide_eq_true ((List.pairwise_cons.1 hafter).1 b hb)
  rw [List.filter_append, hnone, List.nil_append, List.filter_cons, hall]
  simp

namespace Store

/-- The rows of a stream behind a cursor, by part and then by index. -/
def segmentsBehind (s : Store) (x : StreamId) (cursor : Option Position) : List SegmentRow :=
  (s.segmentsOf x).filter fun r => cursor.all fun p => compare p r.place = .lt

/-- **A statement selects the rows behind its cursor,** if it can tell the cursor. -/
theorem AllRows.segmentsAfter_eq (hall : s.AllRows SegmentRow.Sane) (x : StreamId)
    (cursor : Option Position) :
    s.segmentsAfter x cursor = s.segmentsBehind x (Position.tellable cursor) := by
  refine List.filter_congr fun r hr => ?_
  obtain ⟨q, hq, hrow⟩ := (hall r (mem_segmentsOf.1 hr).1).position
  cases cursor with
  | none => rfl
  | some p =>
    unfold Position.tellable
    rw [Option.all_some, hrow, Option.filter_some]
    by_cases hp : p.part ≤ Position.maxPart
    · have hlt := Position.column_lt_iff hp hq
      simp only [hp, decide_true, if_true, Option.all_some, SegmentRow.place_eq hrow, hlt]
    · have hneg := Position.column_neg (UInt32.not_le.1 hp)
      have hnonneg := Position.column_nonneg hq
      have hlt : p.column < q.column := by omega
      simp only [hp, hlt, decide_true, decide_false, Bool.false_eq_true, if_false, Option.all_none]

/-- **Behind a row of a selection lies the rest of it.** -/
theorem segmentsAfter_of_append {before rest : List SegmentRow}
    (hrows : s.segmentsAfter x cursor = before ++ r :: rest) (hr : r.place.column = r.position) :
    s.segmentsAfter x (some r.place) = rest := by
  have hmem : r ∈ s.segmentsAfter x cursor := by
    rw [hrows]
    exact List.mem_append_right _ List.mem_cons_self
  have hcursor : cursor.all (·.column < r.position) = true := (List.mem_filter.1 hmem).2
  -- whatever lies behind the row lies behind the cursor too
  have hsame : s.segmentsAfter x (some r.place) =
      (s.segmentsAfter x cursor).filter fun k => decide (r.position < k.position) := by
    unfold segmentsAfter
    rw [List.filter_filter]
    refine List.filter_congr fun k _ => ?_
    rw [Option.all_some, hr]
    cases cursor with
    | none => simp
    | some p =>
      have hp : p.column < r.position := by simpa using hcursor
      have himp : r.position < k.position → p.column < k.position := fun hk => by omega
      simpa using himp
  have hasc : (before ++ r :: rest).Pairwise fun a b => a.position < b.position := by
    rw [← hrows]
    exact (s.pairwise_segmentsOf x).sublist List.filter_sublist
  rw [hsame, hrows]
  exact filter_above SegmentRow.position hasc

/-! ## Pages of any size -/

/-- A page of the segments of a stream that holds up to a number of them. -/
def pageOf (s : Store) (serverSideCopy : Bool) (x : StreamId) (cursor : Option Position) (n : Nat) :
    Except Error (List Segment × Bool) := do
  reject x.isZero .noStream
  let segments ← ((s.segmentsAfter x cursor).take n).mapM (s.resolved serverSideCopy)
  return (segments, decide (n < (s.segmentsAfter x cursor).length))

theorem pageSize_pos (limit : Nat) : 0 < pageSize limit := by
  unfold pageSize pageLimit
  split <;> omega

/-- A row is read at its place, where the segment stands that it resolves to. -/
theorem AllRows.resolved_iff (hall : s.AllRows SegmentRow.Sane) (hzero : x.isZero = false)
    (hr : r ∈ s.segmentsOf x) {v : Segment} : s.resolved serverSideCopy r = .ok v ↔
      v.position = r.place ∧ s.read serverSideCopy x r.place = .ok v := by
  obtain ⟨hmem, rfl⟩ := mem_segmentsOf.1 hr
  rw [hall.read_row hmem hzero]
  constructor
  · intro hv
    exact ⟨(of_resolved hv).2.1, hv⟩
  · intro hv
    exact hv.2

/-- **A page holds what is read at the places behind the cursor,** if all of it can be read. -/
theorem AllRows.pageOf_eq_ok_iff (hall : s.AllRows SegmentRow.Sane) (hzero : x.isZero = false)
    {n : Nat} {segments : List Segment} {more : Bool} :
    s.pageOf serverSideCopy x cursor n = .ok (segments, more) ↔
      List.Forall₂ (fun r v => v.position = r.place ∧ s.read serverSideCopy x r.place = .ok v)
        ((s.segmentsAfter x cursor).take n) segments ∧
      (more = true ↔ n < (s.segmentsAfter x cursor).length) := by
  have hrows : ∀ r ∈ (s.segmentsAfter x cursor).take n, r ∈ s.segmentsOf x := by
    intro r hr
    exact (List.mem_filter.1 (List.mem_of_mem_take hr)).1
  have hmap : ((s.segmentsAfter x cursor).take n).mapM (s.resolved serverSideCopy) = .ok segments ↔
      List.Forall₂ (fun r v => v.position = r.place ∧ s.read serverSideCopy x r.place = .ok v)
        ((s.segmentsAfter x cursor).take n) segments := by
    rw [Except.mapM_eq_ok_iff, List.forall₂_iff_zip, List.forall₂_iff_zip]
    refine and_congr_right fun _ => forall₂_congr fun r v => imp_congr_right fun hrv => ?_
    exact hall.resolved_iff hzero (hrows r (List.of_mem_zip hrv).1)
  unfold pageOf
  rw [hzero, ← hmap]
  cases ((s.segmentsAfter x cursor).take n).mapM (s.resolved serverSideCopy) with
  | error e => simp [reject, bind, Except.bind, pure, Except.pure]
  | ok segments' =>
    simp only [reject, Bool.false_eq_true, if_false, bind, Except.bind, pure, Except.pure,
      Except.ok.injEq, Prod.mk.injEq]
    refine and_congr_right fun _ => ?_
    rw [eq_comm, Bool.eq_iff_iff, decide_eq_true_iff]

/-- A page that is not empty ends with the segment of its last row. -/
theorem getLast?_of_mapM_take {rows : List SegmentRow} {f : SegmentRow → Except Error Segment}
    {k : Nat} (hk : k < rows.length) {page : List Segment}
    (hpage : (rows.take (k + 1)).mapM f = .ok page) :
    ∃ v, f rows[k] = .ok v ∧ page.getLast? = some v := by
  rw [List.take_succ_eq_append_getElem hk, List.mapM_append] at hpage
  obtain ⟨front, -, hpage⟩ := Except.bind_eq_ok.1 hpage
  obtain ⟨last, hlast, hpage⟩ := Except.bind_eq_ok.1 hpage
  rw [Except.mapM_eq_ok_iff, List.forall₂_cons_left_iff] at hlast
  obtain ⟨v, rest, hv, hrest, rfl⟩ := hlast
  rw [List.forall₂_nil_left_iff] at hrest
  subst hrest
  cases hpage
  exact ⟨v, hv, List.getLast?_concat⟩

/-- **A page is a smaller one and, if there are more, a page behind its last segment.** -/
theorem AllRows.pageOf_add (hall : s.AllRows SegmentRow.Sane) {n : Nat} (hn : 0 < n) (m : Nat) :
    s.pageOf serverSideCopy x cursor (n + m) = (do
      let (page, more) ← s.pageOf serverSideCopy x cursor n
      if more then
        let (rest, more) ← s.pageOf serverSideCopy x (page.getLast?.map (·.position)) m
        return (page ++ rest, more)
      else return (page, false)) := by
  unfold pageOf
  cases hzero : x.isZero with
  | true => rfl
  | false =>
    by_cases hmore : n < (s.segmentsAfter x cursor).length
    · rw [List.take_add, List.mapM_append]
      cases hpage : ((s.segmentsAfter x cursor).take n).mapM (s.resolved serverSideCopy) with
      | error e => rfl
      | ok page =>
        -- the other page starts behind the last row of the smaller one
        obtain ⟨k, rfl⟩ : ∃ k, n = k + 1 := ⟨n - 1, by omega⟩
        have hk : k < (s.segmentsAfter x cursor).length := by omega
        obtain ⟨v, hv, hlast⟩ := getLast?_of_mapM_take hk hpage
        have hmem : (s.segmentsAfter x cursor)[k] ∈ s.segmentsOf x :=
          (List.mem_filter.1 (List.getElem_mem hk)).1
        have hsplit : s.segmentsAfter x cursor = (s.segmentsAfter x cursor).take k ++
            (s.segmentsAfter x cursor)[k] :: (s.segmentsAfter x cursor).drop (k + 1) := by
          rw [← List.drop_eq_getElem_cons hk, List.take_append_drop]
        have hbehind : s.segmentsAfter x (page.getLast?.map (·.position)) =
            (s.segmentsAfter x cursor).drop (k + 1) := by
          rw [hlast, Option.map_some, (of_resolved hv).2.1]
          exact segmentsAfter_of_append hsplit (hall _ (mem_segmentsOf.1 hmem).1).column_place
        have hleft : k + 1 + m < (s.segmentsAfter x cursor).length ↔
            m < ((s.segmentsAfter x cursor).drop (k + 1)).length := by
          rw [List.length_drop]
          omega
        simp only [reject, Bool.false_eq_true, if_false, bind, Except.bind, pure, Except.pure,
          hmore, decide_true, if_true, hbehind, decide_eq_decide.2 hleft]
        cases (((s.segmentsAfter x cursor).drop (k + 1)).take m).mapM
          (s.resolved serverSideCopy) <;> rfl
    · have hall : (s.segmentsAfter x cursor).length ≤ n := by omega
      have hno : ¬ n + m < (s.segmentsAfter x cursor).length := by omega
      rw [List.take_of_length_le hall, List.take_of_length_le (by omega)]
      cases (s.segmentsAfter x cursor).mapM (s.resolved serverSideCopy) with
      | error e => rfl
      | ok page =>
        simp [reject, hmore, hno, bind, Except.bind, pure, Except.pure]

end Store

namespace Catalog

variable {c : Catalog}

/-- What a client does that takes page after page of the segments of a stream, with one limit after
the other and each page behind the last segment that it has got, until there are no more. -/
def pageThrough (x : StreamId) : Nat → List Nat → Option Position → Action (List Segment × Bool)
  | limit, [], cursor => listSegments x cursor limit
  | limit, next :: limits, cursor => do
    let (page, more) ← listSegments x cursor limit
    if more then
      let (rest, more) ← pageThrough x next limits (page.getLast?.map (·.position))
      return (page ++ rest, more)
    else return (page, false)

/-- **A client that takes page after page gets what a single page of the joint size would hold.** -/
theorem run_pageThrough (hstore : c.store = some s) (hcache : c.cache.Within s.nodes)
    (hall : s.AllRows SegmentRow.Sane) (x : StreamId) (limit : Nat) (limits : List Nat)
    (cursor : Option Position) : (c.run (pageThrough x limit limits cursor)).1 =
      s.pageOf c.settings.serverSideCopy x cursor (pageSize limit + (limits.map pageSize).sum) := by
  induction limits generalizing c limit cursor with
  | nil =>
    obtain ⟨cache, -, hrun⟩ := run_listSegments hstore hcache hall x cursor limit
    rw [pageThrough, hrun]
    rfl
  | cons next limits ih =>
    obtain ⟨cache, hwithin, hrun⟩ := run_listSegments hstore hcache hall x cursor limit
    have hpage : s.page c.settings.serverSideCopy x cursor limit =
      s.pageOf c.settings.serverSideCopy x cursor (pageSize limit) := rfl
    rw [List.map_cons, List.sum_cons, hall.pageOf_add (pageSize_pos limit), pageThrough]
    rw [hpage] at hrun
    cases hout : s.pageOf c.settings.serverSideCopy x cursor (pageSize limit) with
    | error e =>
      rw [hout] at hrun
      rw [run_bind_error hrun]
      rfl
    | ok out =>
      rw [hout] at hrun
      rw [run_bind_ok hrun]
      obtain ⟨page, more⟩ := out
      cases more with
      | false => rfl
      | true =>
        have hrest := ih (c := { c with cache }) hstore hwithin next
          (page.getLast?.map (·.position))
        show (Catalog.run { c with cache } (pageThrough x next limits _ >>= _)).1 =
          (s.pageOf c.settings.serverSideCopy x _ _ >>= _)
        rw [run_bind, ← hrest]
        rcases Catalog.run { c with cache } (pageThrough x next limits _) with ⟨_ | _, _⟩ <;> rfl

end Catalog

namespace Site

variable {σ : Site} {h : Handle} {allow : Store → StreamId → Prop}

/-- What clients get for rows of a stream: for each the segment that is read at its place. -/
def Gets (σ : Site) (h : Handle) (x : StreamId) (rows : List SegmentRow) (segments : List Segment) :
    Prop :=
  List.Forall₂ (fun r v => v.position = r.place ∧ σ.read h x r.place = .ok v) rows segments

/-- **What is seen of a stream page by page.** Its segments have ascending positions. A page is given
out just when all of its segments can be read, and holds those at the first positions behind the
cursor, up to a limit of at most 1000; it says whether there are more. A cursor of a part above
`Position.maxPart` counts as none. A client that goes on behind the last segment it got, with limits of
its choice, gets what one page of the joint size would hold; so one that started at the first segment,
and asked more often than there are segments, has got every segment once and is told that it has. -/
theorem Reachable.pages_of_segments (hσ : σ.Reachable allow) (hs : σ.store = some s)
    (hh : h ∈ σ.handles) (hzero : x.isZero = false) :
    Ascending SegmentRow.place (s.segmentsOf x) ∧
    (∀ cursor limit segments more, σ.listSegments h x cursor limit = .ok (segments, more) ↔
      σ.Gets h x ((s.segmentsBehind x (Position.tellable cursor)).take (pageSize limit)) segments ∧
        (more = true ↔ pageSize limit < (s.segmentsBehind x (Position.tellable cursor)).length)) ∧
    (∀ limit limits cursor seen more,
      ((σ.catalog h).run (Catalog.pageThrough x limit limits cursor)).1 = .ok (seen, more) ↔
        σ.Gets h x ((s.segmentsBehind x (Position.tellable cursor)).take
          (pageSize limit + (limits.map pageSize).sum)) seen ∧
        (more = true ↔ pageSize limit + (limits.map pageSize).sum <
          (s.segmentsBehind x (Position.tellable cursor)).length)) ∧
    ∀ limit limits seen more, (s.segmentsOf x).length ≤ limits.length + 1 →
      (((σ.catalog h).run (Catalog.pageThrough x limit limits none)).1 = .ok (seen, more) ↔
        σ.Gets h x (s.segmentsOf x) seen ∧ more = false) := by
  have hstands := hσ.stands_of_store hs
  have hall := hσ.sane hs
  have hopen := hstands.open hh
  have hgets : ∀ rows segments, σ.Gets h x rows segments ↔ List.Forall₂ (fun r v =>
      v.position = r.place ∧ s.read h.settings.serverSideCopy x r.place = .ok v) rows segments := by
    intro rows segments
    unfold Gets
    simp only [hstands.read_eq hh]
  have hclient : ∀ limit limits cursor seen more,
      ((σ.catalog h).run (Catalog.pageThrough x limit limits cursor)).1 = .ok (seen, more) ↔
        σ.Gets h x ((s.segmentsBehind x (Position.tellable cursor)).take
          (pageSize limit + (limits.map pageSize).sum)) seen ∧
        (more = true ↔ pageSize limit + (limits.map pageSize).sum <
          (s.segmentsBehind x (Position.tellable cursor)).length) := by
    intro limit limits cursor seen more
    rw [Catalog.run_pageThrough hopen.store hopen.cache hall, hgets, ← hall.segmentsAfter_eq]
    exact hall.pageOf_eq_ok_iff hzero
  refine ⟨hall.ascending_places x, fun cursor limit segments more => ?_, hclient,
    fun limit limits seen more hmany => ?_⟩
  · rw [hstands.listSegments_eq hh hall, hgets, ← hall.segmentsAfter_eq]
    exact hall.pageOf_eq_ok_iff hzero
  · have hrows : s.segmentsBehind x (Position.tellable none) = s.segmentsOf x :=
      List.filter_eq_self.2 fun _ _ => rfl
    -- every page has room for a segment at least
    have hroom : limits.length ≤ (limits.map pageSize).sum := by
      have hsum := List.card_nsmul_le_sum (limits.map pageSize) 1 fun n hn => by
        obtain ⟨limit, -, rfl⟩ := List.mem_map.1 hn
        exact pageSize_pos limit
      simpa using hsum
    have hfirst := pageSize_pos limit
    have hcovers : (s.segmentsOf x).length ≤ pageSize limit + (limits.map pageSize).sum := by
      omega
    rw [hclient, hrows, List.take_of_length_le hcovers]
    refine and_congr_right fun _ => ?_
    have hno : ¬ pageSize limit + (limits.map pageSize).sum < (s.segmentsOf x).length := by omega
    rw [iff_false_right hno, Bool.not_eq_true]

end Site

/-! ### An upload of three segments -/

/-- In pages of two and of one segment the three segments are seen once each. -/
theorem Sample.pages_of_segments_parted : ∃ h ∈ parted.handles, ∃ seen,
    ((parted.catalog h).run (Catalog.pageThrough (.ofNat 1) 2 [1] none)).1 = .ok (seen, false) ∧
      seen.map (·.position) = [⟨0, 0⟩, ⟨0, 1⟩, ⟨7, 3⟩] ∧
        ∀ v ∈ seen, parted.read h (.ofNat 1) v.position = .ok v := by
  obtain ⟨s, hstands⟩ := reachable_parted.stands
  have hpaged : ∃ h ∈ parted.handles,
      ((parted.catalog h).run (Catalog.pageThrough (.ofNat 1) 2 [1] none)).1.toOption.map
        (fun out => (out.1.map (·.position), out.2)) =
          some ([⟨0, 0⟩, ⟨0, 1⟩, ⟨7, 3⟩], false) := by decide +kernel
  obtain ⟨h, hh, hpaged⟩ := hpaged
  obtain ⟨-, -, hclient, -⟩ := Site.Reachable.pages_of_segments reachable_parted hstands.store hh
    (x := .ofNat 1) (by decide)
  obtain ⟨⟨seen, more⟩, hout, hseen⟩ := Except.exists_of_map_toOption hpaged
  obtain ⟨hpositions, rfl⟩ := Prod.mk.inj hseen
  refine ⟨h, hh, seen, hout, hpositions, fun v hv => ?_⟩
  obtain ⟨r, -, hplace, hread⟩ := Except.exists_of_forall₂ ((hclient 2 [1] none _ _).1 hout).1 hv
  rw [hplace]
  exact hread

/-- A cursor behind all segments whose part is above the greatest one: the page holds them all. -/
theorem Sample.cursor_wraps : ∃ s h, parted.store = some s ∧ h ∈ parted.handles ∧
    s.segmentsBehind (.ofNat 1) (some ⟨2147483648, 0⟩) = [] ∧
      ∃ segments, parted.listSegments h (.ofNat 1) (some ⟨2147483648, 0⟩) 0 = .ok (segments, false) ∧
        segments.length = 3 := by
  obtain ⟨s, hstands⟩ := reachable_parted.stands
  have hnone : parted.store.map (fun s => (s.segmentsBehind (.ofNat 1)
      (some ⟨2147483648, 0⟩)).length) = some 0 := by decide +kernel
  rw [hstands.store, Option.map_some, Option.some.injEq, List.length_eq_zero_iff] at hnone
  have hpage : ∃ h ∈ parted.handles,
      (parted.listSegments h (.ofNat 1) (some ⟨2147483648, 0⟩) 0).toOption.map
        (fun out => (out.1.length, out.2)) = some (3, false) := by decide +kernel
  obtain ⟨h, hh, hpage⟩ := hpage
  obtain ⟨⟨segments, more⟩, hout, hseen⟩ := Except.exists_of_map_toOption hpage
  obtain ⟨hlength, rfl⟩ := Prod.mk.inj hseen
  exact ⟨s, h, hstands.store, hh, hnone, segments, hout, hlength⟩

end ObjectCatalog
