import ObjectCatalog.Proofs.Failures

/-!
# Schemes as marks

The stored scheme of a segment tells a copy whether the segment has data of its own. A scheme with
fields no wider than their places in the stored form is stored as zero only if it is zero, which the
scheme of a remote segment is not. So in runs with such schemes a segment under a stored zero has
data, no copy is left without an ancestor that it needs, and every segment can be resolved.

* `Redundancy.kept`, `Redundancy.unpack_pack`: **a stored scheme reads as the low bits of its fields.**
* `Redundancy.Fits`, `Redundancy.pack_ne_zero`: schemes that keep their fields when they are stored.
* `Store.Whole`: coherent tables in which every segment under a stored zero has data.
* `Store.Whole.exists_ancestor`: **every segment in need has an ancestor with a segment beside it.**
* `Changes.whole`: changes that store marked segments keep the tables whole.
* `Site.Orderly`, `Site.Orderly.whole`: runs with such schemes, and what their tables and scans are.
-/

namespace ObjectCatalog

/-! ## Schemes that fit their stored form -/

namespace Redundancy

/-- A scheme each field of which fits its place in the stored form: 24 bits for the share size and
8 bits for each count, without a sign. -/
structure Fits (r : Redundancy) : Prop where
  shareSize : 0 ≤ r.shareSize.toInt ∧ r.shareSize.toInt < 16777216
  required : 0 ≤ r.required.toInt ∧ r.required.toInt < 256
  repair : 0 ≤ r.repair.toInt ∧ r.repair.toInt < 256
  optimal : 0 ≤ r.optimal.toInt ∧ r.optimal.toInt < 256
  total : 0 ≤ r.total.toInt ∧ r.total.toInt < 256

instance (r : Redundancy) : Decidable r.Fits :=
  decidable_of_iff ((0 ≤ r.shareSize.toInt ∧ r.shareSize.toInt < 16777216) ∧
      (0 ≤ r.required.toInt ∧ r.required.toInt < 256) ∧
      (0 ≤ r.repair.toInt ∧ r.repair.toInt < 256) ∧
      (0 ≤ r.optimal.toInt ∧ r.optimal.toInt < 256) ∧
      0 ≤ r.total.toInt ∧ r.total.toInt < 256)
    ⟨fun ⟨h₁, h₂, h₃, h₄, h₅⟩ => ⟨h₁, h₂, h₃, h₄, h₅⟩,
      fun h => ⟨h.shareSize, h.required, h.repair, h.optimal, h.total⟩⟩

/-- What the stored form keeps of a scheme: the low bits of its fields. -/
def kept (r : Redundancy) : Redundancy where
  algorithm := r.algorithm
  shareSize := .ofInt (r.shareSize.toInt % 16777216)
  required := .ofInt (r.required.toInt % 256)
  repair := .ofInt (r.repair.toInt % 256)
  optimal := .ofInt (r.optimal.toInt % 256)
  total := .ofInt (r.total.toInt % 256)

/-- Fields of 8, 24 and four times 8 bits beside each other can be told apart, also in a signed
integer. -/
theorem fields_of_bmod {v a b c d e f : Int} (ha : 0 ≤ a ∧ a < 256) (hb : 0 ≤ b ∧ b < 16777216)
    (hc : 0 ≤ c ∧ c < 256) (hd : 0 ≤ d ∧ d < 256) (he : 0 ≤ e ∧ e < 256) (hf : 0 ≤ f ∧ f < 256)
    (hv : v = (a * 72057594037927936 + b * 4294967296 + c * 16777216 + d * 65536 + e * 256 +
      f).bmod 18446744073709551616) :
    v / 72057594037927936 % 256 = a ∧ v / 4294967296 % 16777216 = b ∧ v / 16777216 % 256 = c ∧
      v / 65536 % 256 = d ∧ v / 256 % 256 = e ∧ v % 256 = f := by
  rw [Int.bmod_def] at hv
  omega

/-- **A stored scheme reads as what the stored form keeps of it.** -/
theorem unpack_pack (r : Redundancy) : unpack r.pack = r.kept := by
  have halgorithm := r.algorithm.toNat_lt
  obtain ⟨h₁, h₂, h₃, h₄, h₅, h₆⟩ := fields_of_bmod (v := r.pack) (a := r.algorithm.toNat)
    (b := r.shareSize.toInt % 16777216) (c := r.required.toInt % 256) (d := r.repair.toInt % 256)
    (e := r.optimal.toInt % 256) (f := r.total.toInt % 256) (by omega) (by omega) (by omega)
    (by omega) (by omega) (by omega) rfl
  unfold unpack kept
  rw [h₁, h₂, h₃, h₄, h₅, h₆, Int.toNat_natCast, UInt8.ofNat_toNat]

theorem toInt_low24 (v : Int32) : (Int32.ofInt (v.toInt % 16777216)).toInt = v.toInt % 16777216 :=
  Int32.toInt_ofInt_of_le (by omega) (by omega)

theorem toInt_low8 (v : Int16) : (Int16.ofInt (v.toInt % 256)).toInt = v.toInt % 256 :=
  Int16.toInt_ofInt_of_le (by omega) (by omega)

/-- A scheme keeps its fields just when each of them fits. -/
theorem kept_eq_iff (r : Redundancy) : r.kept = r ↔ r.Fits := by
  obtain ⟨algorithm, shareSize, required, repair, optimal, total⟩ := r
  have hwide : ∀ v : Int32, Int32.ofInt (v.toInt % 16777216) = v ↔ 0 ≤ v.toInt ∧ v.toInt < 16777216 := by
    intro v
    rw [← Int32.toInt_inj, toInt_low24]
    omega
  have hnarrow : ∀ v : Int16, Int16.ofInt (v.toInt % 256) = v ↔ 0 ≤ v.toInt ∧ v.toInt < 256 := by
    intro v
    rw [← Int16.toInt_inj, toInt_low8]
    omega
  simp only [kept, mk.injEq, hwide, hnarrow, true_and]
  exact ⟨fun ⟨h₁, h₂, h₃, h₄, h₅⟩ => ⟨h₁, h₂, h₃, h₄, h₅⟩,
    fun h => ⟨h.shareSize, h.required, h.repair, h.optimal, h.total⟩⟩

/-- What the stored form keeps is stored like the scheme itself. -/
theorem pack_kept (r : Redundancy) : r.kept.pack = r.pack := by
  simp only [pack, kept, toInt_low24, toInt_low8, Int.emod_emod]

/-- A scheme is stored as zero just when nothing is kept of it. -/
theorem pack_eq_zero_iff (r : Redundancy) : r.pack = 0 ↔ r.kept = zero := by
  constructor
  · intro hpack
    rw [← unpack_pack, hpack]
    rfl
  · intro hzero
    rw [← pack_kept, hzero]
    rfl

/-- **A scheme that fits and is not zero is not stored as zero.** -/
theorem pack_ne_zero {r : Redundancy} (hfits : r.Fits) (hne : r.isZero = false) : r.pack ≠ 0 := by
  intro hpack
  have hkept := r.pack_eq_zero_iff.1 hpack
  rw [r.kept_eq_iff.2 hfits] at hkept
  rw [isZero, decide_eq_false_iff_not] at hne
  exact hne hkept

end Redundancy

/-! ## Marked segments -/

namespace SegmentRow

/-- A row that has data if its stored scheme is zero. -/
def Marked (r : SegmentRow) : Prop := r.redundancy = 0 → r.inlineData.isSome = true

variable {r k : SegmentRow} {t : NodeTable}

theorem Marked.withPiecesOf (hr : r.Marked) (k : SegmentRow) : (r.withPiecesOf k).Marked := hr

/-- The copy of a row with data has the data, and the copy of another row has its scheme. -/
theorem Marked.copied (hr : r.Marked) (hshaped : r.Shaped t) (now : Instant) (stream : StreamId)
    (key : SegmentKey) : (r.copied now stream key).Marked := by
  intro hzero
  have hdata : r.inlineData.isSome = true := hr hzero
  have hinline : r.IsInline := by
    rcases hshaped.shape with hremote | hinline | href
    · rw [hremote.no_data] at hdata
      exact absurd hdata (by decide)
    · exact hinline
    · rw [href.no_data] at hdata
      exact absurd hdata (by decide)
  rw [SegmentRow.copied, hinline.isDuplicated]
  exact hdata

end SegmentRow

/-- The row of a remote segment under a scheme that fits. -/
theorem CommitSegment.marked_row {r : CommitSegment} (hfits : r.redundancy.Fits)
    (hne : r.redundancy.isZero = false) (now : Instant) (o : ObjectRow)
    (aliases : List AliasPiece) : (r.row now o aliases).Marked :=
  fun hzero => absurd hzero (Redundancy.pack_ne_zero hfits hne)

/-- The row of an inline segment. -/
theorem CommitInlineSegment.marked_row (r : CommitInlineSegment) (now : Instant) (o : ObjectRow) :
    (r.row now o).Marked := fun _ => rfl

/-- Fresh streams, and segments that are marked. -/
def markedTerms : Terms := { stream := Store.Lacks, row := SegmentRow.Marked }

theorem markedTerms_within : markedTerms.Within Store.Lacks := ⟨fun _ _ h => h, fun _ _ => trivial⟩

namespace Store

/-- Tables in which every segment can be resolved. -/
structure Whole (s : Store) : Prop where
  coherent : s.Coherent
  marked : ∀ r ∈ s.segments.rows, r.Marked

theorem whole_empty : Store.empty.Whole := ⟨coherent_empty, fun _ hr => absurd hr List.not_mem_nil⟩

variable {s s' : Store} {r : SegmentRow}

/-- **A segment in need of its ancestor has one, and the ancestor has a segment at its position.** -/
theorem Whole.exists_ancestor (hs : s.Whole) (hr : r ∈ s.segments.rows)
    (hneeds : r.piecesInAncestor = true) :
    ∃ a k, s.ancestorOf? r.stream = some a ∧ s.row? a r.position = some k := by
  cases hanc : s.ancestorOf? r.stream with
  | some a =>
    obtain ⟨k, hk, -⟩ :=
      ((hs.coherent.families _ _ hanc).rows r.position).exists_right (row?_self hr)
    exact ⟨a, k, rfl, hk⟩
  | none =>
    -- the row would be one that copies take for a row with data
    have hdup := hs.coherent.unrelated r hr hneeds hanc r (mem_segmentsOf.2 ⟨hr, rfl⟩)
    rw [SegmentRow.isDuplicated, Bool.and_eq_true, decide_eq_true_eq] at hdup
    have hdata := hs.marked r hr hdup.1
    have href := (hs.coherent.shaped r hr).needs_iff.1 hneeds
    rw [href.no_data] at hdata
    exact absurd hdata (by decide)

end Store

open Store

/-! ## Changes -/

variable {s s' : Store}

theorem UploadStep.marked (h : UploadStep markedTerms s s')
    (hm : ∀ r ∈ s.segments.rows, r.Marked) : ∀ r ∈ s'.segments.rows, r.Marked := by
  intro r hr
  cases h with
  | nodes => exact hm r hr
  | start => exact hm r hr
  | metadata => exact hm r hr
  | segment _ _ _ _ _ hrow =>
    rcases Table.mem_insert.1 hr with rfl | ⟨hr, -⟩
    · exact hrow
    · exact hm r hr
  | drop => exact hm r (List.mem_filter.1 hr).1
  | @complete o =>
    have hids : ((withOffsets 0 (s.segmentsOf o.stream)).map (·.id)).Nodup := by
      rw [map_withOffsets fun _ _ => rfl]
      exact nodup_ids_segmentsOf s o.stream
    rcases mem_putSegments hids hr with hr | hr
    · obtain ⟨r₀, hr₀, k, rfl⟩ := mem_withOffsets hr
      exact hm r₀ (mem_segmentsOf.1 hr₀).1
    · exact hm r hr

theorem Change.marked (h : Change markedTerms s s') (hs : s.Whole) :
    ∀ r ∈ s'.segments.rows, r.Marked := by
  intro r hr
  cases h with
  | upload h => exact h.marked hs.marked r hr
  | copy _ hcopy =>
    obtain ⟨_, _, _, _, hcopied⟩ := copied_of_ok hcopy
    rcases hcopied.mem_rows hr with hr | ⟨q, -, hq, rfl⟩
    · exact hs.marked r hr
    · have hmem := (mem_segmentsOf.1 hq).1
      exact (hs.marked q.1 hmem).copied (hs.coherent.shaped q.1 hmem) _ _ _
  | delete h =>
    obtain ⟨-, r₀, hr₀, -, rfl⟩ := h.row_eq hs.coherent hr
    rcases hs.coherent.bequeathed_cases _ hr₀ with
      ⟨-, hkeep⟩ | ⟨_, -, k, -, -, -, ⟨-, htake⟩ | ⟨-, hkeep⟩⟩
    · rw [hkeep]
      exact hs.marked r₀ hr₀
    · rw [htake]
      exact (hs.marked r₀ hr₀).withPiecesOf k
    · rw [hkeep]
      exact hs.marked r₀ hr₀

/-- **Changes that store marked segments keep the tables whole.** -/
theorem Changes.whole (h : Changes markedTerms s s') (hs : s.Whole) : s'.Whole := by
  induction h with
  | refl => exact hs
  | tail _ hc ih => exact ⟨(hc.mono markedTerms_within).coherent ih.coherent, hc.marked ih⟩

/-! ## Calls -/

/-- **A call keeps the tables whole,** if the scheme of the segment that it stores fits. -/
theorem Call.whole {c : Catalog} (hc : c.Open s) (now : Instant) (call : Call)
    (hfresh : ∀ x, call.newStream? = some x → s.Lacks x)
    (hfits : ∀ r, call = .commitSegment r → call.failure? now c = none → r.redundancy.Fits)
    (hs : s.Whole) : ∃ s', (call.leave now c).Open s' ∧ s'.Whole := by
  -- a remote segment that is not stored leaves all segments as they were
  have hfailed : ∀ r e, call = .commitSegment r → call.failure? now c = some e →
      ∃ s', (call.leave now c).Open s' ∧ s'.Whole := by
    rintro r e rfl hfail
    obtain ⟨s', hopen, hsame⟩ := Catalog.atomic_commitSegment now r c hc e hfail
    obtain ⟨s₁, hopen₁, hmove⟩ :=
      Call.does (t := Store.Lacks) hc now (.commitSegment r) hfresh fun _ _ => trivial
    have hstores : some s' = some s₁ := hopen.store.symm.trans hopen₁.store
    cases hstores
    refine ⟨s', hopen, hmove.coherent hs.coherent, fun row hrow => ?_⟩
    rw [hsame.segments] at hrow
    exact hs.marked row hrow
  have hstored : (∀ row, call.MayStore now row → row.Marked) →
      ∃ s', (call.leave now c).Open s' ∧ s'.Whole := by
    intro hrows
    obtain ⟨s', hopen, hmove⟩ := Call.does (t := markedTerms) hc now call hfresh hrows
    exact ⟨s', hopen, hmove.toChanges.whole hs⟩
  cases call with
  | commitSegment r =>
    cases hfail : (Call.commitSegment r).failure? now c with
    | some e => exact hfailed r e rfl hfail
    | none =>
      refine hstored ?_
      rintro row ⟨hne, o, aliases, rfl⟩
      exact CommitSegment.marked_row (hfits r rfl hfail) hne now o aliases
  | commitInlineSegment r =>
    refine hstored ?_
    rintro row ⟨o, rfl⟩
    exact r.marked_row now o
  | _ => exact hstored fun _ hno => hno.elim

/-! ## Runs -/

/-- A scan that has whole tables for a snapshot if it has one. -/
def SegmentScan.Whole (scan : SegmentScan) : Prop := ∀ s, scan.snapshot = some s → s.Whole

theorem SegmentScan.whole_start (now : Instant) (batchSize : Nat) (asOf : Option Instant) :
    (SegmentScan.start now batchSize asOf).Whole := fun _ h => by cases h

theorem Catalog.snapshot_fetchSegments (c : Catalog) (scan : SegmentScan) :
    (StateT.run (Catalog.fetchSegments scan) c).1.2.snapshot = scan.snapshot.or c.store := by
  unfold Catalog.fetchSegments
  rw [StateT.run_bind, StateT.run_get, pure_bind]
  dsimp only
  cases hstore : scan.snapshot.or c.store with
  | none => exact (Option.or_eq_none_iff.1 hstore).1
  | some s =>
    dsimp only
    cases hfetch : SegmentScan.fetch { scan with snapshot := some s } s with
    | error e => rfl
    | ok out => exact Catalog.fetch_snapshot hfetch

/-- A scan keeps its snapshot, or takes the tables for one. -/
theorem Catalog.whole_nextSegments {c : Catalog} {scan : SegmentScan} (hscan : scan.Whole)
    (hstore : ∀ s, c.store = some s → s.Whole) :
    (StateT.run (Catalog.nextSegments scan) c).1.2.Whole := by
  rw [Catalog.run_nextSegments]
  split
  · exact hscan
  · intro s hs
    rw [Catalog.snapshot_fetchSegments] at hs
    rcases Option.or_eq_some_iff.1 hs with hkept | ⟨-, htaken⟩
    · exact hscan s hkept
    · exact hstore s htaken

/-- The scheme of the remote segment that an event is to store. -/
def Event.scheme? : Event → Option Redundancy
  | call _ _ (.commitSegment r) => some r.redundancy
  | _ => none

namespace Site

/-- The scheme of a remote segment that an event stores. -/
def Commits (σ : Site) (e : Event) (scheme : Redundancy) : Prop :=
  ∃ i now r h, e = .call i now (.commitSegment r) ∧ σ.handles[i]? = some h ∧
    (Call.commitSegment r).failure? now (σ.catalog h) = none ∧ scheme = r.redundancy

/-- The sites of runs with fresh stream ids in which the schemes of remote segments fit. -/
inductive Orderly : Site → Prop
  | fresh : Orderly fresh
  | step {σ : Site} {e : Event} (hσ : Orderly σ) (he : σ.Admits Lacks e)
      (hfits : ∀ scheme, σ.Commits e scheme → scheme.Fits) : Orderly (σ.step e)

variable {σ : Site}

theorem Orderly.reachable (hσ : σ.Orderly) : σ.Reachable Lacks := by
  induction hσ with
  | fresh => exact .fresh
  | step _ he _ ih => exact ih.step he

/-- Whole tables, at the site and in the snapshots of its scans. -/
structure Whole (σ : Site) : Prop where
  store : ∀ s, σ.store = some s → s.Whole
  scans : ∀ h ∈ σ.handles, ∀ scan ∈ h.scans, scan.Whole

/-- What a handle leaves is whole if its tables and its scans are. -/
theorem Whole.put (hσ : σ.Whole) {i : Nat} {h : Handle} {c : Catalog} {scans : List SegmentScan}
    (hstore : ∀ s, c.store = some s → s.Whole)
    (hscans : ∀ scan ∈ scans, scan.Whole) : (σ.put i h c scans).Whole where
  store := hstore
  scans h' hh' := by
    rcases List.mem_or_eq_of_mem_set hh' with hh' | rfl
    · exact hσ.scans h' hh'
    · exact hscans

/-- **One event.** -/
theorem Whole.step (hσ : σ.Whole) (hstands : σ.Stands s) {e : Event} (he : σ.Admits Lacks e)
    (hfits : ∀ scheme, σ.Commits e scheme → scheme.Fits) : (σ.step e).Whole := by
  have hsteps := steps_step σ e
  generalize σ.step e = σ' at hsteps ⊢
  cases hsteps with
  | idle => exact hσ
  | opening =>
    refine ⟨hσ.store, fun h hh => ?_⟩
    rcases List.mem_append.1 hh with hh | hh
    · exact hσ.scans h hh
    · rw [List.mem_singleton.1 hh]
      exact fun _ hscan => absurd hscan List.not_mem_nil
  | @call i h now call hget =>
    have hh := List.mem_of_getElem? hget
    have hcommits : ∀ r, call = .commitSegment r → call.failure? now (σ.catalog h) = none →
        r.redundancy.Fits := by
      rintro r rfl hok
      exact hfits _ ⟨i, now, r, h, rfl, hget, hok, rfl⟩
    obtain ⟨s', hopen, hwhole⟩ := Call.whole (hstands.open hh) now call
      (fun x hx => he x hx s hstands.store) hcommits (hσ.store s hstands.store)
    refine hσ.put (fun s₁ hs₁ => ?_) (hσ.scans h hh)
    rw [hopen.store, Option.some.injEq] at hs₁
    exact hs₁ ▸ hwhole
  | @startScan i h now batchSize asOf hget =>
    refine hσ.put hσ.store fun scan hscan => ?_
    rcases List.mem_append.1 hscan with hscan | hscan
    · exact hσ.scans h (List.mem_of_getElem? hget) scan hscan
    · rw [List.mem_singleton.1 hscan]
      exact SegmentScan.whole_start now batchSize asOf
  | @nextBatch i j h scan hget hscan =>
    have hh := List.mem_of_getElem? hget
    have hmem := List.mem_of_getElem? hscan
    have hof := (hstands.handles h hh).scans scan hmem
    have hopen := (Catalog.open_nextSegments (hstands.open hh) hof).1
    refine hσ.put (fun s₁ hs₁ => ?_) fun scan' hscan' => ?_
    · -- a batch leaves the tables
      have hstores : some s = some s₁ := hopen.store.symm.trans hs₁
      cases hstores
      exact hσ.store s hstands.store
    · rcases List.mem_or_eq_of_mem_set hscan' with hscan' | rfl
      · exact hσ.scans h hh scan' hscan'
      · exact Catalog.whole_nextSegments (hσ.scans h hh scan hmem) hσ.store

/-- **In runs with fresh stream ids and schemes that fit the tables are whole,** and so are the
snapshots of scans under way. -/
theorem Orderly.whole (hσ : σ.Orderly) : σ.Whole := by
  induction hσ with
  | fresh =>
    refine ⟨fun s hs => ?_, fun _ hh => absurd hh List.not_mem_nil⟩
    cases hs
    exact whole_empty
  | step hσ he hfits ih =>
    obtain ⟨s, hstands⟩ := hσ.reachable.stands
    exact ih.step hstands he hfits

/-- Admitted events with schemes that fit lead from an orderly site to an orderly one. -/
theorem Orderly.run (hσ : σ.Orderly) {events : List Event} (hadmits : AdmitsAll Lacks σ events)
    (hfits : ∀ e ∈ events, ∀ scheme ∈ e.scheme?, scheme.Fits) :
    (σ.run events).Orderly := by
  induction events generalizing σ with
  | nil => exact hσ
  | cons e events ih =>
    refine ih (hσ.step hadmits.1 ?_) hadmits.2 fun e' he' => hfits e' (List.mem_cons_of_mem _ he')
    rintro _ ⟨i, now, r, h, hcall, -, -, rfl⟩
    refine hfits e List.mem_cons_self r.redundancy ?_
    rw [hcall]
    rfl

end Site

end ObjectCatalog
