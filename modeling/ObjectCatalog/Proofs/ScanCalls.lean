import ObjectCatalog.Proofs.ListCalls
import ObjectCatalog.Proofs.SegmentScans

/-!
# Calls that scan the whole catalogue

* `Site.Later`: the catalogues that a handle can find while a scan is under way.
* `Site.Reachable.scans_exact`: **at every reachable site a scan shows exactly the rows up to the time
  it looks back to, in order, in batches that are full but the last,** or fails because of the row of a
  start at the version after the greatest one, or of a segment that cannot be resolved.
-/

namespace ObjectCatalog

variable {σ : Site} {s : Store} {h : Handle} {allow : Store → StreamId → Prop}

namespace Site

/-- What a handle gets when it scans all objects. -/
def scanObjects (σ : Site) (h : Handle) (now : Instant) (n : Nat) (asOf : Option Instant) :
    Except Error (List (List LoopObject)) :=
  ((σ.catalog h).run (Catalog.scanObjects now n asOf)).1

/-- What a handle gets when it scans all segments. -/
def scanSegments (σ : Site) (h : Handle) (now : Instant) (n : Nat) (asOf : Option Instant) :
    Except Error (List (List LoopSegment)) :=
  ((σ.catalog h).run (Catalog.scanSegments now n asOf)).1

/-- The catalogue of a handle under a setting for copies, after any events. -/
def Later (σ : Site) (serverSideCopy : Bool) (c : Catalog) : Prop :=
  ∃ events, ∃ h ∈ (σ.run events).handles,
    h.settings.serverSideCopy = serverSideCopy ∧ c = (σ.run events).catalog h

/-- A handle still reads the tables that a scan found, whatever happened since. -/
theorem Stands.reads_later (hσ : σ.Stands s) {serverSideCopy : Bool} {c : Catalog}
    (hc : σ.Later serverSideCopy c) : SegmentScan.Reads s serverSideCopy c := by
  obtain ⟨events, h, hh, hsettings, rfl⟩ := hc
  obtain ⟨s', hσ', hext⟩ := hσ.extends_run events
  exact ⟨hsettings, s'.nodes, hext, (hσ'.handles h hh).cache⟩

end Site

/-- A batch has rows. -/
theorem loopBatch_pos (n : Nat) : 0 < loopBatch n := by
  unfold loopBatch defaultLoopBatch
  split <;> omega

/-- A row is shown unless it is the one of a start at the version after the greatest one. -/
theorem Store.Legible.shown (hs : s.Legible) {r : ObjectRow} (hr : r ∈ s.objects.rows) :
    (∃ entry, r.shown = .ok entry) ∧ ¬ r.Overrun ∨
      r.shown = .error (.storage .scanObjects) ∧ r.Overrun := by
  unfold ObjectRow.shown ObjectRow.view
  rcases hs.readable r hr with hview | hover
  · obtain ⟨o, ho⟩ := Option.isSome_iff_exists.1 hview
    refine .inl ⟨⟨r.forLoop o, by rw [ho]; rfl⟩, fun hover => ?_⟩
    rw [hover.view?_eq] at ho
    cases ho
  · exact .inr ⟨by rw [hover.view?_eq]; rfl, hover⟩

/-- What each call for a batch of objects gives. -/
theorem Store.Legible.outcome (hread : s.Legible) (now : Instant) (n : Nat) (asOf : Option Instant)
    {found : Nat → Option Store} (hfound : found 0 = some s) (k : Nat) :
    (∃ b, List.Forall₂ (fun r entry => r.shown = .ok entry)
        (((s.objectsBy (asOf.getD now)).drop (k * loopBatch n)).take (loopBatch n)) b ∧
      (ObjectScan.start now n asOf).outcome found k = .ok b ∧
      ∀ r ∈ (s.objectsBy (asOf.getD now)).take ((k + 1) * loopBatch n), ¬ r.Overrun) ∨
    (ObjectScan.start now n asOf).outcome found k = .error (.storage .scanObjects) ∧
      ∃ r ∈ (s.objectsBy (asOf.getD now)).take ((k + 1) * loopBatch n), r.Overrun := by
  have hmem : ∀ r ∈ (s.objectsBy (asOf.getD now)).take ((k + 1) * loopBatch n),
      r ∈ s.objects.rows := fun r hr => (List.mem_filter.1 (List.mem_of_mem_take hr)).1
  have hstart := ObjectScan.at_start hread.positive now n asOf
  have hfirst : (ObjectScan.start now n asOf).snapshot.or (found 0) = some s := hfound
  rcases ObjectScan.outcome_eq hstart (loopBatch_pos n) hfirst k with
    ⟨b, hentries, hout, hshown⟩ | ⟨e, hout, r, hr, hfails⟩
  · refine .inl ⟨b, hentries, hout, fun r hr => ?_⟩
    obtain ⟨entry, hentry⟩ := hshown r hr
    rcases hread.shown (hmem r hr) with ⟨-, hnot⟩ | ⟨hfails, -⟩
    · exact hnot
    · rw [hentry] at hfails
      cases hfails
  · -- no other row fails to be shown
    rcases hread.shown (hmem r hr) with ⟨⟨entry, hentry⟩, -⟩ | ⟨hstorage, hover⟩
    · rw [hentry] at hfails
      cases hfails
    · rw [hstorage] at hfails
      cases hfails
      exact .inr ⟨hout, r, hr, hover⟩

namespace Site

theorem scanObjects_eq (hs : σ.store = some s) (now : Instant) (n : Nat) (asOf : Option Instant) :
    σ.scanObjects h now n asOf =
      (ObjectScan.start now n asOf).drain (some s) (s.objects.rows.length + 1) := by
  have hstore : (σ.catalog h).store = some s := hs
  unfold scanObjects Catalog.scanObjects
  rw [Catalog.run_get_bind, hstore]
  rfl

/-- All batches of objects together. -/
theorem drained_scanObjects (hs : σ.store = some s) (hread : s.Legible) (now : Instant) (n : Nat)
    (asOf : Option Instant) : Drained (loopBatch n)
      ((s.objectsBy (asOf.getD now)).mapM ObjectRow.shown) (σ.scanObjects h now n asOf) := by
  have hstart := ObjectScan.at_start hread.positive now n asOf
  have hfew : (s.objectsBy (asOf.getD now)).length ≤ s.objects.rows.length :=
    List.length_filter_le _ _
  rw [scanObjects_eq hs]
  exact hstart.drain (loopBatch_pos n) rfl (by omega)

/-- All batches of segments together. -/
theorem drained_scanSegments (hσ : σ.Stands s) (hh : h ∈ σ.handles)
    (hall : s.AllRows SegmentRow.Sane) (now : Instant) {n : Nat}
    (hroom : loopBatch n ≤ SegmentScan.capacity) (asOf : Option Instant) :
    Drained (loopBatch n)
      ((s.segmentsBy (asOf.getD now)).mapM (s.shown h.settings.serverSideCopy))
      (σ.scanSegments h now n asOf) := by
  have hstore : (σ.catalog h).store = some s := hσ.store
  have hstart := SegmentScan.at_start hall now n asOf
  have hfew : (s.segmentsBy (asOf.getD now)).length ≤ s.segments.rows.length :=
    List.length_filter_le _ _
  have hfirst : (SegmentScan.start now n asOf).snapshot.or (σ.catalog h).store = some s := hstore
  unfold scanSegments Catalog.scanSegments
  rw [Catalog.run_get_bind, hstore]
  exact hstart.drain (loopBatch_pos n) hroom hall (hσ.handles h hh).cache hfirst
    (by show _ < s.segments.rows.length + 1; omega)

/-- Segments are scanned in batches that there is room for. -/
theorem capacity_of_scanSegments {now : Instant} {n : Nat} {asOf : Option Instant}
    {batches : List (List LoopSegment)} (hok : σ.scanSegments h now n asOf = .ok batches) :
    loopBatch n ≤ SegmentScan.capacity := by
  by_contra hover
  rw [scanSegments, Catalog.run_scanSegments_of_overflow (Nat.not_le.1 hover)] at hok
  cases hok

/-- Objects are scanned to their end unless a row cannot be shown. -/
theorem scanObjects_ok_iff (hs : σ.store = some s) (hread : s.Legible) (now : Instant) (n : Nat)
    (asOf : Option Instant) : (∃ batches, σ.scanObjects h now n asOf = .ok batches) ↔
      ∀ r ∈ s.objectsBy (asOf.getD now), ¬ r.Overrun := by
  have hmem : ∀ r ∈ s.objectsBy (asOf.getD now), r ∈ s.objects.rows := fun r hr =>
    (List.mem_filter.1 hr).1
  have hdrained := drained_scanObjects (h := h) hs hread now n asOf
  constructor
  · rintro ⟨batches, hok⟩ r hr hover
    rw [hok] at hdrained
    cases hdrained with
    | batches hentries _ =>
      obtain ⟨entry, -, hentry⟩ := exists_of_forall₂_left (Except.mapM_eq_ok_iff.1 hentries) hr
      rcases hread.shown (hmem r hr) with ⟨-, hnot⟩ | ⟨hfails, -⟩
      · exact hnot hover
      · rw [hentry] at hfails
        cases hfails
  · intro hnone
    have hshown : ∀ r ∈ s.objectsBy (asOf.getD now), ∃ entry, r.shown = .ok entry := fun r hr =>
      ((hread.shown (hmem r hr)).resolve_right fun ⟨_, hover⟩ => hnone r hr hover).1
    obtain ⟨es, hes⟩ := Except.exists_mapM_eq_ok hshown
    rw [hes] at hdrained
    obtain ⟨batches, hok, -⟩ := hdrained.exists_batches
    exact ⟨batches, hok⟩

end Site

/-- **What scans at a reachable site show.** The rows up to a time of the years 0 to 9999, in order of
their keys, are those that calendar and clock put at or before it (and those of years above 9999).
Each call for a batch of objects gives the entries of the rows whose turn it is, so batches are full
until the rows end and empty from then on; it fails once the rows that were asked for come to the row
of a start at the version after the greatest one. Each call for a batch of segments gives the rows
whose turn it is with their pieces, whatever happened since the first call, or the failure of one of
them. All batches together are the rows in batches, up to the first empty one. Room for a batch of
segments is made beforehand: when there can be none for so many rows every call panics instead. -/
theorem Site.Reachable.scans_exact (hσ : σ.Reachable allow) (hs : σ.store = some s)
    (hh : h ∈ σ.handles) (now : Instant) (n : Nat) (asOf : Option Instant)
    (hyear : 0 ≤ (asOf.getD now).date.year ∧ (asOf.getD now).date.year ≤ 9999) :
    (Ascending ObjectRow.id (s.objectsBy (asOf.getD now)) ∧
      ∀ r, r ∈ s.objectsBy (asOf.getD now) ↔ r ∈ s.objects.rows ∧
        ((r.createdAt.order (asOf.getD now)).isLE ∨ 9999 < r.createdAt.date.year)) ∧
    (Ascending SegmentRow.id (s.segmentsBy (asOf.getD now)) ∧
      ∀ r, r ∈ s.segmentsBy (asOf.getD now) ↔ r ∈ s.segments.rows ∧
        ((r.createdAt.order (asOf.getD now)).isLE ∨ 9999 < r.createdAt.date.year)) ∧
    (∀ found : Nat → Option Store, found 0 = some s → ∀ k,
      (∃ b, List.Forall₂ (fun r entry => r.shown = .ok entry)
          (((s.objectsBy (asOf.getD now)).drop (k * loopBatch n)).take (loopBatch n)) b ∧
        (ObjectScan.start now n asOf).outcome found k = .ok b ∧
        ∀ r ∈ (s.objectsBy (asOf.getD now)).take ((k + 1) * loopBatch n), ¬ r.Overrun) ∨
      (ObjectScan.start now n asOf).outcome found k = .error (.storage .scanObjects) ∧
        ∃ r ∈ (s.objectsBy (asOf.getD now)).take ((k + 1) * loopBatch n), r.Overrun) ∧
    Drained (loopBatch n) ((s.objectsBy (asOf.getD now)).mapM ObjectRow.shown)
      (σ.scanObjects h now n asOf) ∧
    ((∃ batches, σ.scanObjects h now n asOf = .ok batches) ↔
      ∀ r ∈ s.objectsBy (asOf.getD now), ¬ r.Overrun) ∧
    (loopBatch n ≤ SegmentScan.capacity →
      (∀ found : Nat → Catalog, found 0 = σ.catalog h →
        (∀ k, σ.Later h.settings.serverSideCopy (found k)) → ∀ k,
        (SegmentScan.start now n asOf).outcome found k =
          (((s.segmentsBy (asOf.getD now)).drop (k * loopBatch n)).take (loopBatch n)).mapM
            (s.shown h.settings.serverSideCopy)) ∧
      Drained (loopBatch n)
        ((s.segmentsBy (asOf.getD now)).mapM (s.shown h.settings.serverSideCopy))
        (σ.scanSegments h now n asOf)) ∧
    (SegmentScan.capacity < loopBatch n →
      (∀ found k, (SegmentScan.start now n asOf).outcome found k = .error .capacityOverflow) ∧
      σ.scanSegments h now n asOf = .error .capacityOverflow) := by
  obtain ⟨s', hstands⟩ := hσ.stands
  have hsame : s' = s := Option.some.inj (hstands.store.symm.trans hs)
  subst hsame
  have hread := hσ.legible hs
  have hall := hσ.sane hs
  refine ⟨⟨s'.ascending_objectsBy _, fun r => ?_⟩, ⟨s'.ascending_segmentsBy _, fun r => ?_⟩,
    fun found hfound k => hread.outcome now n asOf hfound k,
    Site.drained_scanObjects hs hread now n asOf, Site.scanObjects_ok_iff hs hread now n asOf,
    fun hroom => ⟨fun found hfound hlater k => ?_,
      Site.drained_scanSegments hstands hh hall now hroom asOf⟩,
    fun hover => ⟨fun found k => ?_, ?_⟩⟩
  · rw [Store.objectsBy, List.mem_filter, Instant.notAfter_iff hyear]
  · rw [Store.segmentsBy, List.mem_filter, Instant.notAfter_iff hyear]
  · have hfirst : (SegmentScan.start now n asOf).snapshot.or (found 0).store = some s' := by
      rw [hfound]
      exact hs
    exact SegmentScan.outcome_eq (SegmentScan.at_start hall now n asOf) (loopBatch_pos n) hroom hall
      hfirst (fun k => hstands.reads_later (hlater k)) k
  · exact SegmentScan.outcome_of_overflows (Catalog.overflows_start hover now asOf) found k
  · exact congrArg Prod.fst (Catalog.run_scanSegments_of_overflow hover (σ.catalog h) now asOf)

/-! ### Two scans -/

/-- All rows are up to the present, but they cannot be scanned together: one of them is the row of a
start at the version after the greatest one. -/
theorem Sample.scan_clogged :
    clogged.Reachable Store.Lacks ∧ ∃ h ∈ clogged.handles,
      (∀ r ∈ clogged.objects, r.createdAt.order moment = .eq) ∧
      clogged.scanObjects h moment 0 none = .error (.storage .scanObjects) := by
  refine ⟨reachable_clogged, ?_⟩
  decide +kernel

/-- The segments of an upload and of its copies, two at a time. -/
theorem Sample.scans_exact_site : ∃ s, site.store = some s ∧ ∃ h ∈ site.handles, ∃ batches entries,
    site.scanSegments h moment 2 none = .ok batches ∧ batches.map List.length = [2, 1, 0] ∧
      (s.segmentsBy moment).mapM (s.shown true) = .ok entries ∧ batches.flatten = entries := by
  obtain ⟨s, hstands⟩ := reachable_site.stands
  have hscanned : ∃ h ∈ site.handles, h.settings.serverSideCopy = true ∧
      (site.scanSegments h moment 2 none).toOption.map (List.map List.length) =
        some [2, 1, 0] := by decide +kernel
  obtain ⟨h, hh, hsettings, hlengths⟩ := hscanned
  obtain ⟨batches, hbatches, hlengths⟩ := Option.map_eq_some_iff.1 hlengths
  obtain ⟨-, -, -, -, -, hscans, -⟩ :=
    Site.Reachable.scans_exact reachable_site hstands.store hh moment 2 none (by decide)
  obtain ⟨-, hdrained⟩ := hscans (by decide)
  generalize hout : site.scanSegments h moment 2 none = out at hbatches hdrained
  cases hdrained with
  | failure _ => cases hbatches
  | @batches entries bs hentries hbatched =>
    cases hbatches
    rw [hsettings] at hentries
    exact ⟨s, hstands.store, h, hh, _, entries, hout, hlengths, hentries, hbatched.flatten⟩

end ObjectCatalog
