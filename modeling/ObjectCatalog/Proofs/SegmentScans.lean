import ObjectCatalog.Proofs.Calls
import ObjectCatalog.Proofs.Layout
import ObjectCatalog.Proofs.Scans

/-!
# Scans of segments

A batch of segments is resolved against the tables that the scan found first, through a cache that may
know of nodes added since. The pieces of stored rows are on nodes of those tables, so what the cache
has learned makes no difference, and neither does what stands in other rows of the batch. A scan in
batches that there can be no room for does not get to its first row, and stays where it is.

* `Store.AllRows.gives_resolveBatch`: a batch resolved through a cache of later tables.
* `SegmentScan.At.next`: one call for a batch.
* `SegmentScan.outcome_eq`, `SegmentScan.outcome_of_overflows`: **what each call for a batch of segments
  gives,** when there is room for it and when there is not.
* `SegmentScan.At.drain`: all batches of segments.
-/

namespace ObjectCatalog

/-! ## Caches of later tables -/

theorem Lookup.gives_pieces_of_covers {n t : NodeTable} (hext : n.Extends t)
    {aliases : List AliasPiece} (hcovers : n.Covers aliases) :
    Gives t (Lookup.pieces n aliases) (n.piecesOf aliases) := by
  intro c hc
  refine ⟨?_, learns_pieces hext aliases c hc⟩
  show (if c.knows aliases then c else c.remember n.rows.rows).piecesOf aliases = _
  cases hknows : c.knows aliases with
  | true =>
    rw [if_pos rfl, hc.piecesOf_eq hknows]
    exact hext.piecesOf_eq hcovers
  | false =>
    rw [if_neg Bool.false_ne_true]
    refine AliasCache.piecesOf_congr fun p hp => ?_
    obtain ⟨node, hnode⟩ := Option.isSome_iff_exists.1 (hcovers p hp)
    rw [AliasCache.node?_remember, hnode, Option.some_or]

namespace Store

variable {s : Store} {t : NodeTable} {r : SegmentRow}

/-- A row is resolved as the tables say, also through a cache of later tables. -/
theorem AllRows.gives_resolve (hall : s.AllRows SegmentRow.Sane) (hext : s.nodes.Extends t)
    (serverSideCopy : Bool) (hr : r ∈ s.segments.rows) :
    Lookup.Gives t (s.resolve serverSideCopy r) (s.resolved serverSideCopy r) := by
  refine (Lookup.gives_lift _).bind_of_ok fun r' hw => ?_
  obtain ⟨l, hl, hcovers⟩ := stored_withAncestor (fun k hk => (hall k hk).stored) hr hw
  refine (Lookup.gives_lift _).bind_of_ok fun aliases haliases => ?_
  rw [hl, Except.ok.injEq] at haliases
  subst haliases
  exact (Lookup.gives_pieces_of_covers hext hcovers).bind fun _ => Lookup.gives_pure _

theorem AllRows.gives_resolveBatch (hall : s.AllRows SegmentRow.Sane) (hext : s.nodes.Extends t)
    (serverSideCopy : Bool) {rows : List SegmentRow} (hrows : ∀ r ∈ rows, r ∈ s.segments.rows) :
    Lookup.Gives t (s.resolveBatch serverSideCopy rows)
      (rows.mapM (s.resolved serverSideCopy)) := by
  rw [resolveBatch_eq]
  exact Lookup.Gives.mapM fun r hr => hall.gives_resolve hext serverSideCopy (hrows r hr)

/-- What a scan shows of a segment row. -/
def shown (s : Store) (serverSideCopy : Bool) (r : SegmentRow) : Except Error LoopSegment :=
  (s.resolved serverSideCopy r).map (·.forLoop)

end Store

theorem Except.mapM_map {α β γ : Type} (f : α → Except Error β) (g : β → γ) (rows : List α) :
    (rows.mapM f).map (List.map g) = rows.mapM fun r => (f r).map g := by
  induction rows with
  | nil => rfl
  | cons r rest ih =>
    rw [List.mapM_cons, List.mapM_cons, ← ih]
    cases f r with
    | error e => rfl
    | ok b => cases rest.mapM f <;> rfl

/-! ## Calls for a batch -/

namespace SegmentScan

variable {s : Store} {time : Instant} {size i : Nat} {scan : SegmentScan} {c : Catalog}
  {t : NodeTable}

/-- A scan that has passed a number of rows. -/
structure At (s : Store) (time : Instant) (size i : Nat) (scan : SegmentScan) : Prop where
  batchSize : scan.batchSize = size
  asOf : scan.asOf = time
  unseen : scan.rest s = (s.segmentsBy time).drop i
  done : scan.done = true → (s.segmentsBy time).length ≤ i

theorem rest_eq (scan : SegmentScan) (s : Store) : scan.rest s =
    (s.segmentsBy scan.asOf).filter fun r => decide (compare scan.cursor r.id = .lt) := by
  unfold rest Store.segmentsBy
  rw [List.filter_filter]
  congr 1
  funext r
  exact Bool.and_comm _ _

theorem at_start (hall : s.AllRows SegmentRow.Sane) (now : Instant) (n : Nat)
    (asOf : Option Instant) : (start now n asOf).At s (asOf.getD now) (loopBatch n) 0 where
  batchSize := rfl
  asOf := rfl
  unseen := by
    rw [rest_eq, List.drop_zero]
    refine List.filter_eq_self.2 fun r hr => ?_
    obtain ⟨p, hpart, hposition⟩ := (hall r (List.mem_filter.1 hr).1).position
    have hcolumn : r.position = p.encode := by rw [hposition, Position.column_of_le hpart]
    exact decide_eq_true (SegmentId.start_lt (by show 0 ≤ r.position; omega))
  done hdone := by cases hdone

/-- The rows of a batch can all be read, so the scan goes on behind them. -/
theorem At.fetch (h : scan.At s time size i) (hsize : 0 < size) (hall : s.AllRows SegmentRow.Sane) :
    ∃ scan', scan.fetch s = .ok (((s.segmentsBy time).drop i).take size, scan') ∧
      scan'.snapshot = scan.snapshot ∧ scan'.At s time size (i + size) := by
  unfold SegmentScan.fetch
  cases hdone : scan.done with
  | true =>
    -- a batch was short before, so nothing is left
    have hnil : ∀ j, i ≤ j → (s.segmentsBy time).drop j = [] := fun j hj =>
      List.drop_eq_nil_of_le ((h.done hdone).trans hj)
    refine ⟨scan, ?_, rfl, h.batchSize, h.asOf, ?_, fun _ => ?_⟩
    · rw [hnil i le_rfl, List.take_nil]
      rfl
    · rw [h.unseen, hnil i le_rfl, hnil (i + size) (by omega)]
    · have := h.done hdone
      omega
  | false =>
    have hreadable : ∀ r ∈ ((s.segmentsBy time).drop i).take size, r.isReadable = true := by
      intro r hr
      have hmem : r ∈ s.segmentsBy time := List.mem_of_mem_drop (List.mem_of_mem_take hr)
      exact (hall r (List.mem_filter.1 hmem).1).readable
    rw [if_neg Bool.false_ne_true, h.batchSize, h.unseen]
    dsimp only
    rw [SegmentRow.require_of_forall hreadable]
    refine ⟨_, rfl, rfl, rfl, h.asOf, ?_, fun hshort => ?_⟩
    · have hbefore := h.unseen
      rw [rest_eq, h.asOf] at hbefore
      rw [rest_eq, h.asOf]
      exact (s.ascending_segmentsBy time).filter_batch hsize hbefore
    · have hfew := of_decide_eq_true hshort
      rw [List.length_take, List.length_drop] at hfew
      omega

/-- **One call for a batch** gives the next rows resolved, each as the tables say that the scan found
first, and goes on behind them, also when one cannot be resolved. -/
theorem At.next (h : scan.At s time size i) (hsize : 0 < size) (hroom : size ≤ capacity)
    (hall : s.AllRows SegmentRow.Sane) (hcache : c.cache.Within t) (hext : s.nodes.Extends t) (hfound : scan.snapshot.or c.store = some s) :
    ∃ scan' cache, StateT.run (Catalog.nextSegments scan) c =
        (((((s.segmentsBy time).drop i).take size).mapM (s.shown c.settings.serverSideCopy), scan'),
          { c with cache }) ∧
      cache.Within t ∧ scan'.snapshot = some s ∧ scan'.At s time size (i + size) := by
  -- a scan that has no tables yet takes those that it finds
  have hat : ({ scan with snapshot := some s } : SegmentScan).At s time size i :=
    ⟨h.batchSize, h.asOf, h.unseen, h.done⟩
  obtain ⟨scan', hfetch, hsnapshot, hat'⟩ := hat.fetch hsize hall
  have hrows : ∀ r ∈ ((s.segmentsBy time).drop i).take size, r ∈ s.segments.rows := fun r hr =>
    (List.mem_filter.1 (List.mem_of_mem_drop (List.mem_of_mem_take hr))).1
  obtain ⟨hout, hwithin⟩ :=
    hall.gives_resolveBatch hext c.settings.serverSideCopy hrows c.cache hcache
  refine ⟨scan', _, ?_, hwithin, hsnapshot, hat'⟩
  have hfits : scan.overflows = false := Catalog.overflows_of_le (h.batchSize.symm ▸ hroom)
  rw [Catalog.run_nextSegments, hfits, if_neg Bool.false_ne_true]
  unfold Catalog.fetchSegments Store.shown
  rw [StateT.run_bind, StateT.run_get, pure_bind, hfound]
  dsimp only
  rw [hfetch, ← Except.mapM_map, ← hout]
  rfl

/-! ### Calls one after the other -/

/-- The scan after a number of calls for a batch, each of which finds a catalogue. -/
def after (scan : SegmentScan) (found : Nat → Catalog) : Nat → SegmentScan
  | 0 => scan
  | k + 1 => (StateT.run (Catalog.nextSegments (scan.after found k)) (found k)).1.2

/-- What a scan gives at the call after a number of others. -/
def outcome (scan : SegmentScan) (found : Nat → Catalog) (k : Nat) :
    Except Error (List LoopSegment) :=
  (StateT.run (Catalog.nextSegments (scan.after found k)) (found k)).1.1

/-- A catalogue that reads tables, or later ones through whose caches these are still read. -/
structure Reads (s : Store) (serverSideCopy : Bool) (c : Catalog) : Prop where
  settings : c.settings.serverSideCopy = serverSideCopy
  cache : ∃ t, s.nodes.Extends t ∧ c.cache.Within t

section Calls

variable {found : Nat → Catalog} {serverSideCopy : Bool} (h : scan.At s time size 0)
  (hsize : 0 < size) (hroom : size ≤ capacity) (hall : s.AllRows SegmentRow.Sane)
  (hfirst : scan.snapshot.or (found 0).store = some s)
  (hfound : ∀ k, Reads s serverSideCopy (found k))

include h hsize hroom hall hfirst hfound

/-- A scan stands behind as many batches as it was asked for. -/
theorem at_after (k : Nat) : (scan.after found k).snapshot.or (found k).store = some s ∧
    (scan.after found k).At s time size (k * size) := by
  induction k with
  | zero => exact ⟨hfirst, by rw [Nat.zero_mul]; exact h⟩
  | succ k ih =>
    obtain ⟨t, hext, hcache⟩ := (hfound k).cache
    obtain ⟨scan', cache, hrun, -, hsnapshot, hat⟩ := ih.2.next hsize hroom hall hcache hext ih.1
    have hscan : scan.after found (k + 1) = scan' := by
      rw [after, hrun]
    rw [hscan, hsnapshot, Nat.succ_mul]
    exact ⟨rfl, hat⟩

/-- **What each call for a batch gives:** the rows whose turn it is, resolved, whatever happened to
the batches before it. -/
theorem outcome_eq (k : Nat) : scan.outcome found k =
    (((s.segmentsBy time).drop (k * size)).take size).mapM (s.shown serverSideCopy) := by
  obtain ⟨hsnapshot, hat⟩ := at_after h hsize hroom hall hfirst hfound k
  obtain ⟨t, hext, hcache⟩ := (hfound k).cache
  obtain ⟨scan', cache, hrun, -⟩ := hat.next hsize hroom hall hcache hext hsnapshot
  rw [outcome, hrun, (hfound k).settings]

end Calls

/-- A scan that asks for too much room stays where it is, however often it is called. -/
theorem after_of_overflows (h : scan.overflows = true) (found : Nat → Catalog) (k : Nat) :
    scan.after found k = scan := by
  induction k with
  | zero => rfl
  | succ k ih => rw [after, ih, Catalog.run_nextSegments, if_pos h]

/-- **Each call for too large a batch panics,** whatever tables it finds. -/
theorem outcome_of_overflows (h : scan.overflows = true) (found : Nat → Catalog) (k : Nat) :
    scan.outcome found k = .error .capacityOverflow := by
  rw [outcome, after_of_overflows h, Catalog.run_nextSegments, if_pos h]

/-- A call that gives a batch had room for it. -/
theorem capacity_of_outcome {now : Instant} {n k : Nat} {asOf : Option Instant}
    {found : Nat → Catalog} {batch : List LoopSegment}
    (h : (start now n asOf).outcome found k = .ok batch) : loopBatch n ≤ capacity := by
  by_contra hover
  rw [outcome_of_overflows (Catalog.overflows_start (Nat.not_le.1 hover) now asOf)] at h
  cases h

/-- **All batches of a scan,** up to the first empty one: the rows not yet seen, resolved. -/
theorem At.drain (h : scan.At s time size i) (hsize : 0 < size) (hroom : size ≤ capacity)
    (hall : s.AllRows SegmentRow.Sane) (hcache : c.cache.Within s.nodes)
    (hfound : scan.snapshot.or c.store = some s) {limit : Nat}
    (hlimit : (s.segmentsBy time).length - i < limit) :
    Drained size (((s.segmentsBy time).drop i).mapM (s.shown c.settings.serverSideCopy))
      (c.run (Catalog.drainSegments limit scan)).1 := by
  -- each batch but the last takes a row, so the limit is not reached before the rows end
  induction limit generalizing scan i c with
  | zero => omega
  | succ limit ih =>
    obtain ⟨scan', cache, hrun, hwithin, hsnapshot, hat⟩ :=
      h.next hsize hroom hall hcache (.refl _) hfound
    rw [Catalog.drainSegments, Catalog.run_state_bind, hrun]
    dsimp only
    rw [Catalog.run_lift_bind]
    cases hbatch : (((s.segmentsBy time).drop i).take size).mapM
        (s.shown c.settings.serverSideCopy) with
    | error e => exact .of_error hbatch
    | ok b =>
      cases b with
      | nil => exact .of_empty hsize hbatch
      | cons entry more =>
        have hb : entry :: more ≠ [] := List.cons_ne_nil entry more
        have hleft : ¬ (s.segmentsBy time).length ≤ i := fun hend =>
          hb ((batch_eq_nil_iff hsize hbatch).2 (List.drop_eq_nil_iff.2 hend))
        have hrest := ih (c := { c with cache }) hat hwithin (by rw [hsnapshot]; rfl) (by omega)
        rw [← List.drop_drop] at hrest
        have hall' := hrest.cons hb hbatch
        dsimp only
        rw [Catalog.run_bind]
        generalize hdrained : Catalog.run { c with cache } (Catalog.drainSegments limit scan') = out
          at hall' ⊢
        rcases out with ⟨_ | bs, c'⟩
        · exact hall'
        · exact hall'

end SegmentScan

end ObjectCatalog
