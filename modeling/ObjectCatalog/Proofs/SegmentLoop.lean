import ObjectCatalog.Operations
import ObjectCatalog.Proofs.ReadPaths
import ObjectCatalog.Proofs.Sweeps

/-!
# Runs of the segment loop

The loop is a scan of all segments that hands every batch to every observer. What an observer is given
does not depend on how it or another one took the batches before, so it can be said of each observer by
itself: it is started, goes through the batches of the scan, and finishes.

* `Observer.through`, `Observer.entry`: an observer that goes through batches, and its statistics.
* `Catalog.feedBatches_eq`, `Catalog.runLoop_eq`: **a run of the loop is a scan, and then each observer
  going through the batches of the scan.**
* `Tally.of`, `Observer.Tallies`: a tally of all segments at once, and observers that tally.
* `Tally.toInt_bytes`: the sums of a tally are exact for as many segments as 64 bits have room for.
* `Site.Reachable.loop_accounts`: **what a run of the loop at a reachable site reports and records.**
-/

namespace ObjectCatalog

variable {τ : Type} {now : Instant} {batches : List (List LoopSegment)}

/-! ## Observers that go through batches -/

namespace Observer

/-- What an observer makes of batches one after the other: which of them it accepts, and the state that
this leaves it in. -/
def through (o : Observer τ) : τ → List (List LoopSegment) → List Bool × τ
  | x, [] => ([], x)
  | x, batch :: rest =>
    let (accepted, x) := o.process batch x
    let (verdicts, x) := o.through x rest
    (accepted :: verdicts, x)

/-- The statistics of an observer that is started, goes through batches and finishes, after a number of
other runs. -/
def entry (o : Observer τ) (x : τ) (now : Instant) (summary : LoopSummary)
    (batches : List (List LoopSegment)) (before : Nat) : ObserverStats where
  name := o.name
  runs := before + 1
  segments := summary.segments
  batches := summary.batches
  errors := (o.through (o.start x) batches).1.count false
  finishedAt := some now
  report := o.finish (o.through (o.start x) batches).2

end Observer

namespace Watch

/-- An observer that is fed batches goes through them, and its errors are the batches it refuses. -/
theorem foldl_feed (w : Watch τ) (batches : List (List LoopSegment)) :
    batches.foldl feed w =
      { w with
        state := (w.observer.through w.state batches).2
        errors := w.errors + (w.observer.through w.state batches).1.count false } := by
  induction batches generalizing w with
  | nil => rfl
  | cons batch rest ih =>
    rw [List.foldl_cons, ih]
    cases haccepted : (w.observer.process batch w.state).1 with
    | true => simp [feed, Observer.through, haccepted]
    | false =>
      simp [feed, Observer.through, haccepted]
      omega

end Watch

/-! ## The loop as a scan -/

/-- The batches that observers are fed: those with segments in them. -/
def fed (batches : List (List LoopSegment)) : List (List LoopSegment) :=
  batches.filter (!·.isEmpty)

/-- A summary after more batches. -/
def LoopSummary.add (summary : LoopSummary) (batches : List (List LoopSegment)) : LoopSummary :=
  ⟨summary.segments + batches.flatten.length, summary.batches + batches.length⟩

theorem LoopSummary.add_cons (summary : LoopSummary) (batch : List LoopSegment)
    (batches : List (List LoopSegment)) : summary.add (batch :: batches) =
      LoopSummary.add ⟨summary.segments + batch.length, summary.batches + 1⟩ batches := by
  simp only [add, List.flatten_cons, List.length_append, List.length_cons, mk.injEq]
  omega

namespace Catalog

/-- Observers are fed the batches that a scan gives out, but for the empty one at its end. -/
theorem feedBatches_eq (limit : Nat) (scan : SegmentScan) (summary : LoopSummary)
    (watches : List (Watch τ)) :
    feedBatches limit scan summary watches =
      (fun batches => (summary.add (fed batches), watches.map ((fed batches).foldl Watch.feed))) <$>
        drainSegments limit scan := by
  induction limit generalizing scan summary watches with
  | zero =>
    rw [feedBatches, drainSegments, map_pure]
    exact congrArg (fun w => pure (summary, w)) watches.map_id.symm
  | succ limit ih =>
    rw [feedBatches, drainSegments, map_bind]
    refine bind_congr fun next => ?_
    rw [map_bind]
    refine bind_congr fun batch => ?_
    cases batch with
    | nil =>
      dsimp only
      rw [map_pure]
      exact congrArg (fun w => pure (summary, w)) watches.map_id.symm
    | cons segment more =>
      dsimp only
      rw [ih, map_bind, map_eq_pure_bind]
      refine bind_congr fun rest => ?_
      have hfed : fed ((segment :: more) :: rest) = (segment :: more) :: fed rest := rfl
      rw [map_pure, hfed, LoopSummary.add_cons, List.map_map]
      rfl

/-- What a run of the loop comes to over batches. -/
def loopOver (now : Instant) (observers : List (Observer τ × τ)) (registry : Registry)
    (batches : List (List LoopSegment)) : LoopSummary × Registry :=
  let summary := LoopSummary.add {} batches
  (summary, (observers.map fun (o, x) => o.entry x now summary batches 0).foldl .record registry)

/-- **A run of the loop is a scan, and then each observer going through the batches of the scan.** -/
theorem runLoop_eq (now : Instant) (n : Nat) (asOf : Option Instant)
    (observers : List (Observer τ × τ)) (registry : Registry) :
    runLoop now n asOf observers registry =
      (fun batches => loopOver now observers registry (fed batches)) <$>
        scanSegments now n asOf := by
  unfold runLoop scanSegments
  rw [map_bind]
  refine bind_congr fun c => ?_
  dsimp only
  rw [feedBatches_eq, map_eq_pure_bind, map_eq_pure_bind, bind_assoc]
  refine bind_congr fun batches => ?_
  rw [pure_bind, List.map_map, List.foldl_map, loopOver, List.foldl_map]
  congr 3
  funext t p
  -- the number of runs is put in by the registry
  rw [Function.comp_apply, Watch.foldl_feed]
  simp [Registry.record, Watch.start, Watch.stats, Observer.entry]

end Catalog

/-! ## The registry -/

namespace Registry

variable {t : Registry} {run : ObserverStats} {runs : List ObserverStats} {name : String}

/-- How often an observer of a name has run. -/
def runsOf (t : Registry) (name : String) : Nat := (t.find? name).elim 0 (·.runs)

theorem find?_record (t : Registry) (run : ObserverStats) (name : String) :
    (t.record run).find? name = if run.name = name then
      some { run with runs := t.runsOf run.name + 1 } else t.find? name :=
  Table.find?_insert ..

/-- Runs of others change nothing about an observer. -/
theorem find?_foldl_record_of_ne (hne : ∀ run ∈ runs, run.name ≠ name) :
    (runs.foldl record t).find? name = t.find? name := by
  induction runs generalizing t with
  | nil => rfl
  | cons run rest ih =>
    have hrest : ∀ run' ∈ rest, run'.name ≠ name := fun run' hrun' =>
      hne run' (List.mem_cons_of_mem _ hrun')
    rw [List.foldl_cons, ih hrest, find?_record, if_neg (hne run List.mem_cons_self)]

/-- **Each of several runs of different names is recorded** as the next one of its name. -/
theorem find?_foldl_record (hnames : (runs.map (·.name)).Nodup) (hrun : run ∈ runs) :
    (runs.foldl record t).find? run.name =
      some { run with runs := t.runsOf run.name + 1 } := by
  induction runs generalizing t with
  | nil => cases hrun
  | cons first rest ih =>
    obtain ⟨hfirst, hrest⟩ := List.nodup_cons.1 hnames
    have hother : ∀ run' ∈ rest, run'.name ≠ first.name := by
      intro run' hrun' heq
      exact hfirst (List.mem_map.2 ⟨run', hrun', heq⟩)
    rw [List.foldl_cons]
    rcases List.mem_cons.1 hrun with rfl | hrun
    · rw [find?_foldl_record_of_ne hother, find?_record, if_pos rfl]
    · have hne := (hother run hrun).symm
      rw [ih hrest hrun, runsOf, find?_record, if_neg hne, runsOf]

end Registry

/-! ## Tallies -/

/-- The encrypted size of segments. -/
def totalSize (segments : List LoopSegment) : Int := (segments.map (·.encryptedSize.toInt)).sum

/-- Every segment has a 32-bit size. -/
theorem totalSize_mem (segments : List LoopSegment) :
    -2147483648 * (segments.length : Int) ≤ totalSize segments ∧
      totalSize segments ≤ 2147483647 * (segments.length : Int) := by
  induction segments with
  | nil => exact ⟨Int.le_refl 0, Int.le_refl 0⟩
  | cons segment rest ih =>
    have hlow := segment.encryptedSize.le_toInt
    have hhigh := segment.encryptedSize.toInt_lt
    rw [totalSize, List.map_cons, List.sum_cons, ← totalSize, List.length_cons]
    omega

/-- Sizes of segments of both kinds add up. -/
theorem totalSize_filter (p : LoopSegment → Bool) (segments : List LoopSegment) :
    totalSize (segments.filter (!p ·)) + totalSize (segments.filter p) = totalSize segments := by
  have hperm := (List.filter_append_perm p segments).map (·.encryptedSize.toInt)
  rw [Int.add_comm, totalSize, totalSize, ← List.sum_append, ← List.map_append, hperm.sum_eq,
    totalSize]

namespace Tally

variable {segments : List LoopSegment}

/-- The tally of segments, counted at once. -/
def of (segments : List LoopSegment) : Tally where
  remoteSegments := segments.countP (!·.isInline)
  inlineSegments := segments.countP (·.isInline)
  remoteBytes := .ofInt (totalSize (segments.filter (!·.isInline)))
  inlineBytes := .ofInt (totalSize (segments.filter (·.isInline)))

/-- Counting one segment more. -/
theorem of_concat (segments : List LoopSegment) (segment : LoopSegment) :
    of (segments ++ [segment]) = (of segments).add segment := by
  cases hinline : segment.isInline <;>
    simp [of, add, totalSize, hinline, Int64.ofInt_add, Int64.ofInt_int32ToInt]

/-- Counting one by one. -/
theorem foldl_add (segments : List LoopSegment) : segments.foldl add {} = of segments := by
  induction segments using List.reverseRecOn with
  | nil => rfl
  | append_singleton segments segment ih =>
    rw [List.foldl_concat, ih, of_concat]

/-- Every segment is counted as one of the two kinds, and so are its bytes, in 64 bits. -/
theorem of_total (segments : List LoopSegment) :
    (of segments).remoteSegments + (of segments).inlineSegments = segments.length ∧
      (of segments).remoteBytes + (of segments).inlineBytes = .ofInt (totalSize segments) := by
  constructor
  · have hcount := segments.length_eq_countP_add_countP (·.isInline)
    have hremote : segments.countP (!·.isInline) = segments.countP (¬ ·.isInline) := by simp
    rw [of, hremote, hcount, Nat.add_comm]
  · rw [of, ← Int64.ofInt_add, totalSize_filter]

/-- The bytes of not too many segments are counted exactly: 64 bits have room for 2^32 sizes of 32
bits. -/
theorem toInt_of (hfew : segments.length ≤ 4294967296) (p : LoopSegment → Bool) :
    (Int64.ofInt (totalSize (segments.filter p))).toInt = totalSize (segments.filter p) := by
  have hlength := segments.length_filter_le p
  obtain ⟨hlow, hhigh⟩ := totalSize_mem (segments.filter p)
  exact Int64.toInt_ofInt_of_le (by omega) (by omega)

/-- **The two sums of a tally of not too many segments are those of each kind,** and add up. -/
theorem toInt_bytes (hfew : segments.length ≤ 4294967296) :
    (of segments).remoteBytes.toInt = totalSize (segments.filter (!·.isInline)) ∧
      (of segments).inlineBytes.toInt = totalSize (segments.filter (·.isInline)) ∧
      (of segments).remoteBytes.toInt + (of segments).inlineBytes.toInt = totalSize segments := by
  have hremote : (of segments).remoteBytes.toInt = totalSize (segments.filter (!·.isInline)) :=
    toInt_of hfew _
  have hinline : (of segments).inlineBytes.toInt = totalSize (segments.filter (·.isInline)) :=
    toInt_of hfew _
  refine ⟨hremote, hinline, ?_⟩
  rw [hremote, hinline, totalSize_filter]

end Tally

/-- An observer that does as the tally does, on a tally that is part of its state. -/
structure Observer.Tallies (o : Observer τ) (view : τ → Tally) : Prop where
  start : ∀ x, view (o.start x) = {}
  process : ∀ batch x, (o.process batch x).1 = true ∧
    view (o.process batch x).2 = batch.foldl Tally.add (view x)
  finish : ∀ x, o.finish x = (view x).report

theorem Tally.tallies_observer : Tally.observer.Tallies id :=
  ⟨fun _ => rfl, fun _ _ => ⟨rfl, rfl⟩, fun _ => rfl⟩

namespace Observer.Tallies

variable {o : Observer τ} {view : τ → Tally}

/-- A tally accepts all batches, and counts on over them. -/
theorem through (h : o.Tallies view) (x : τ) (batches : List (List LoopSegment)) :
    (o.through x batches).1.count false = 0 ∧
      view (o.through x batches).2 = batches.flatten.foldl Tally.add (view x) := by
  induction batches generalizing x with
  | nil => exact ⟨rfl, rfl⟩
  | cons batch rest ih =>
    obtain ⟨haccepted, hstate⟩ := h.process batch x
    obtain ⟨hverdicts, hend⟩ := ih (o.process batch x).2
    rw [List.flatten_cons, List.foldl_append, ← hstate, ← hend]
    refine ⟨?_, rfl⟩
    show List.count false ((o.process batch x).1 :: (o.through (o.process batch x).2 rest).1) = 0
    rw [haccepted, List.count_cons_of_ne (by decide), hverdicts]

/-- **A tally reports the same however segments come in batches.** -/
theorem entry (h : o.Tallies view) (x : τ) (now : Instant) (summary : LoopSummary)
    (batches : List (List LoopSegment)) (before : Nat) :
    (o.entry x now summary batches before).errors = 0 ∧
      (o.entry x now summary batches before).report = (Tally.of batches.flatten).report := by
  obtain ⟨herrors, hend⟩ := h.through (o.start x) batches
  refine ⟨herrors, ?_⟩
  rw [Observer.entry, h.finish, hend, h.start, Tally.foldl_add]

end Observer.Tallies

/-! ## Batches of segments -/

section Batches

variable {size : Nat} {segments : List LoopSegment}

/-- The batches of segments that are fed to observers, all but the empty one at the end. -/
theorem Batched.eq_fed {all : List (List LoopSegment)} (h : Batched size segments all) :
    all = fed all ++ [[]] := by
  obtain ⟨shown, rfl, hshown, -⟩ := h.ended
  have hkept : shown.filter (!·.isEmpty) = shown := by
    rw [List.filter_eq_self]
    intro batch hbatch
    rw [List.isEmpty_eq_false_iff.2 (hshown batch hbatch).1]
    rfl
  have hfed : fed (shown ++ [[]]) = shown := by
    rw [fed, List.filter_append, hkept]
    exact List.append_nil shown
  rw [hfed]

/-- Full batches and a last one are as many as it takes. -/
theorem Batched.length_eq (hsize : 0 < size) (h : Batched size segments (batches ++ [[]])) :
    batches.length = (segments.length + size - 1) / size := by
  obtain ⟨shown, happend, hshown, hfull⟩ := h.ended
  obtain rfl : batches = shown := List.append_cancel_right happend
  have hlength : segments.length = (batches.map List.length).sum := by
    rw [← h.flatten, List.flatten_append, List.length_append, List.length_flatten]
    rfl
  rcases List.eq_nil_or_concat' batches with rfl | ⟨before, last, rfl⟩
  · rw [hlength, List.map_nil, List.sum_nil, List.length_nil, Nat.zero_add,
      Nat.div_eq_of_lt (by omega)]
  · rw [List.dropLast_concat] at hfull
    obtain ⟨hne, hle⟩ := hshown last List.mem_concat_self
    have hpos := List.length_pos_iff.2 hne
    have hbefore : (before.map List.length).sum = size * before.length := by
      rw [List.map_congr_left hfull, List.map_const', List.sum_replicate, smul_eq_mul, Nat.mul_comm]
    have hcount : segments.length + size - 1 = size * (before.length + 1) + (last.length - 1) := by
      rw [hlength, List.map_append, List.sum_append, hbefore, List.map_singleton,
        List.sum_singleton, Nat.mul_succ]
      omega
    rw [hcount, Nat.mul_add_div hsize, Nat.div_eq_of_lt (by omega), List.length_append,
      List.length_singleton]

end Batches

/-- What a run of the loop over segments reports, and what it leaves in the registry. -/
structure LoopAccount (now : Instant) (size : Nat) (segments : List LoopSegment)
    (observers : List (Observer τ × τ)) (before : Registry) (summary : LoopSummary)
    (after : Registry) : Prop where
  /-- All segments are counted, and as many batches as it takes. -/
  counted : summary = ⟨segments.length, (segments.length + size - 1) / size⟩
  /-- Every observer is started, goes through the same batches of all segments, and finishes. -/
  recorded : ∃ batches, Batched size segments (batches ++ [[]]) ∧ ∀ p ∈ observers,
    after.find? p.1.name =
      some (p.1.entry p.2 now summary batches (before.runsOf p.1.name))
  /-- Nothing is recorded of other observers. -/
  others : ∀ name, (∀ p ∈ observers, p.1.name ≠ name) → after.find? name = before.find? name
  /-- A tally refuses no batch, and its report depends on the segments only. -/
  tallied : ∀ p ∈ observers, ∀ view, p.1.Tallies view → ∃ stats, after.find? p.1.name = some stats ∧
    stats.errors = 0 ∧ stats.report = (Tally.of segments).report

/-- **A run over batches accounts for the segments in them,** if no two observers have one name. -/
theorem Batched.loopAccount {size : Nat} {segments : List LoopSegment}
    (h : Batched size segments (batches ++ [[]])) (hsize : 0 < size) (now : Instant)
    {observers : List (Observer τ × τ)} (hnames : (observers.map (·.1.name)).Nodup)
    (registry : Registry) :
    LoopAccount now size segments observers registry
      (Catalog.loopOver now observers registry batches).1
      (Catalog.loopOver now observers registry batches).2 := by
  have hflatten : batches.flatten = segments := by
    rw [← h.flatten, List.flatten_append]
    exact (List.append_nil _).symm
  have hcounted : LoopSummary.add {} batches =
      ⟨segments.length, (segments.length + size - 1) / size⟩ := by
    rw [LoopSummary.add, hflatten, h.length_eq hsize, Nat.zero_add, Nat.zero_add]
  set runs := observers.map fun (o, x) =>
    o.entry x now (LoopSummary.add {} batches) batches 0 with hruns
  have hrunNames : (runs.map (·.name)).Nodup := by
    rw [hruns, List.map_map]
    exact hnames
  have hrecorded : ∀ p ∈ observers,
      (Catalog.loopOver now observers registry batches).2.find? p.1.name =
        some (p.1.entry p.2 now (LoopSummary.add {} batches) batches
          (registry.runsOf p.1.name)) := by
    intro p hp
    have hrun : p.1.entry p.2 now (LoopSummary.add {} batches) batches 0 ∈ runs :=
      List.mem_map.2 ⟨p, hp, rfl⟩
    exact Registry.find?_foldl_record hrunNames hrun
  constructor
  case counted => exact hcounted
  case recorded => exact ⟨batches, h, hrecorded⟩
  case others =>
    intro name hname
    apply Registry.find?_foldl_record_of_ne
    intro run hrun
    obtain ⟨p, hp, rfl⟩ := List.mem_map.1 hrun
    exact hname p hp
  case tallied =>
    intro p hp view htallies
    obtain ⟨herrors, hreport⟩ := htallies.entry p.2 now (LoopSummary.add {} batches) batches
      (registry.runsOf p.1.name)
    rw [hflatten] at hreport
    exact ⟨_, hrecorded p hp, herrors, hreport⟩

/-! ## Segments in order -/

/-- The order of streams and positions. -/
def Precedes (a b : StreamId × Position) : Prop :=
  compare a.1 b.1 = .lt ∨ a.1 = b.1 ∧ compare a.2 b.2 = .lt

/-- Where a segment stands. -/
def LoopSegment.spot (v : LoopSegment) : StreamId × Position := (v.stream, v.position)

/-- Where a row stands. -/
def SegmentRow.spot (r : SegmentRow) : StreamId × Position := (r.stream, r.place)

namespace Store

variable {s : Store} {serverSideCopy : Bool} {segments : List LoopSegment} {rows : List SegmentRow}

/-- A scan shows the rows that are not filed after the time it looks back to. -/
theorem mem_segmentsBy_iff (s : Store) (time : Instant) (r : SegmentRow) :
    r ∈ s.segmentsBy time ↔ r ∈ s.segments.rows ∧ ¬ time.FiledBefore r.createdAt := by
  rw [segmentsBy, List.mem_filter, Instant.notAfter_iff_not_filedBefore]

/-- A scan that looks back to one of the years 0 to 9999 shows the rows that are no younger, and one
that looks back to a later year shows none of them. -/
theorem mem_segmentsBy_of_year {time : Instant} {r : SegmentRow} (hr : r ∈ s.segments.rows)
    (hyear : r.createdAt.date.year ≤ 9999) :
    (0 ≤ time.date.year ∧ time.date.year ≤ 9999 →
      (r ∈ s.segmentsBy time ↔ (r.createdAt.order time).isLE)) ∧
    (9999 < time.date.year → r ∉ s.segmentsBy time) := by
  have hnear : ¬ 9999 < r.createdAt.date.year := by omega
  constructor
  · intro htime
    rw [segmentsBy, List.mem_filter, Instant.notAfter_iff htime, or_iff_left hnear, and_iff_right hr]
  · intro hfar hmem
    exact ((mem_segmentsBy_iff s time r).1 hmem).2 (Instant.filedBefore_of_far hfar hyear).1

theorem AllRows.pairwise_spots (hall : s.AllRows SegmentRow.Sane) (time : Instant) :
    ((s.segmentsBy time).map SegmentRow.spot).Pairwise Precedes := by
  refine List.pairwise_map.2 ((s.ascending_segmentsBy time).imp_of_mem fun {r k} hr hk hlt => ?_)
  obtain ⟨p, hp, hrp⟩ := (hall r (List.mem_filter.1 hr).1).position
  obtain ⟨q, hq, hkq⟩ := (hall k (List.mem_filter.1 hk).1).position
  have horder : (compare r.stream k.stream).then (compare r.position k.position) = .lt := hlt
  rw [Ordering.then_eq_lt, hrp, hkq] at horder
  rw [Precedes, SegmentRow.spot, SegmentRow.spot, SegmentRow.place_eq hrp, SegmentRow.place_eq hkq]
  refine horder.imp_right fun ⟨hstream, hcolumn⟩ => ⟨Std.LawfulEqOrd.eq_of_compare hstream, ?_⟩
  exact (Position.column_lt_iff hp hq).1 (Std.compare_eq_lt.1 hcolumn)

/-- Segments stand where their rows do. -/
theorem spots_shown (h : rows.mapM (s.shown serverSideCopy) = .ok segments) :
    segments.map LoopSegment.spot = rows.map SegmentRow.spot := by
  have hshown := Except.mapM_eq_ok_iff.1 h
  clear h
  induction hshown with
  | nil => rfl
  | @cons r v rows segments hv _ ih =>
    have hspot : v.spot = r.spot := by
      unfold shown at hv
      cases hsegment : s.resolved serverSideCopy r with
      | error e =>
        rw [hsegment] at hv
        cases hv
      | ok segment =>
        rw [hsegment] at hv
        cases hv
        obtain ⟨hstream, hposition, -⟩ := of_resolved hsegment
        rw [LoopSegment.spot, SegmentRow.spot, ← hstream, ← hposition]
        rfl
    rw [List.map_cons, List.map_cons, ih, hspot]

end Store

/-! ## Runs of the loop at a site -/

/-- A service keeps its statistics when the loop fails. -/
theorem Service.loopAnswer_of_error {sv : Service} {e : Error}
    (h : (sv.catalog.run (Catalog.runTally now sv.loopBatchSize sv.registry)).1 = .error e) :
    (sv.loopAnswer now).1 = ⟨e.status, e.body⟩ ∧ (sv.loopAnswer now).2.registry = sv.registry := by
  unfold loopAnswer
  generalize sv.catalog.run (Catalog.runTally now sv.loopBatchSize sv.registry) = out at h ⊢
  rcases out with ⟨e' | _, c⟩
  · cases h
    exact ⟨rfl, rfl⟩
  · cases h

namespace Site

variable {σ : Site} {s : Store} {h : Handle} {allow : Store → StreamId → Prop}

/-- What a handle gets when it runs the segment loop. -/
def runLoop (σ : Site) (h : Handle) (now : Instant) (n : Nat) (asOf : Option Instant)
    (observers : List (Observer τ × τ)) (registry : Registry) :
    Except Error (LoopSummary × Registry) :=
  ((σ.catalog h).run (Catalog.runLoop now n asOf observers registry)).1

theorem runLoop_eq (now : Instant) (n : Nat) (asOf : Option Instant)
    (observers : List (Observer τ × τ)) (registry : Registry) :
    σ.runLoop h now n asOf observers registry = (σ.scanSegments h now n asOf).map fun batches =>
      Catalog.loopOver now observers registry (fed batches) := by
  unfold runLoop scanSegments
  rw [Catalog.runLoop_eq, map_eq_pure_bind, Catalog.run_bind]
  rcases (σ.catalog h).run (Catalog.scanSegments now n asOf) with ⟨_ | _, _⟩ <;> rfl

section Stands

variable (hσ : σ.Stands s) (hh : h ∈ σ.handles) (hall : s.AllRows SegmentRow.Sane)
  (now : Instant) {n : Nat} (hroom : loopBatch n ≤ SegmentScan.capacity) (asOf : Option Instant)

include hσ hh hall hroom

/-- A run of the loop fails as the first segment does that cannot be resolved. -/
theorem Stands.runLoop_eq_error (observers : List (Observer τ × τ)) (registry : Registry) {e : Error}
    (he : (s.segmentsBy (asOf.getD now)).mapM (s.shown h.settings.serverSideCopy) = .error e) :
    σ.runLoop h now n asOf observers registry = .error e := by
  have hdrained := drained_scanSegments hσ hh hall now hroom asOf
  rw [he] at hdrained
  rw [runLoop_eq, hdrained.eq_error]
  rfl

/-- A run of the loop accounts for the segments if all of them can be resolved. -/
theorem Stands.loopAccount {segments : List LoopSegment}
    (hsegments : (s.segmentsBy (asOf.getD now)).mapM (s.shown h.settings.serverSideCopy) =
      .ok segments)
    {observers : List (Observer τ × τ)} (hnames : (observers.map (·.1.name)).Nodup)
    (registry : Registry) :
    ∃ summary after, σ.runLoop h now n asOf observers registry = .ok (summary, after) ∧
      LoopAccount now (loopBatch n) segments observers registry summary after := by
  have hdrained := drained_scanSegments hσ hh hall now hroom asOf
  rw [hsegments] at hdrained
  obtain ⟨batches, hscan, hbatched⟩ := hdrained.exists_batches
  rw [hbatched.eq_fed] at hbatched
  rw [runLoop_eq, hscan]
  exact ⟨_, _, rfl, hbatched.loopAccount (loopBatch_pos n) now hnames registry⟩

end Stands

/-- A run of the loop panics if there can be no room for its batches. -/
theorem runLoop_of_overflow (hover : SegmentScan.capacity < loopBatch n) (now : Instant)
    (asOf : Option Instant) (observers : List (Observer τ × τ)) (registry : Registry) :
    σ.runLoop h now n asOf observers registry = .error .capacityOverflow :=
  congrArg Prod.fst
    (Catalog.run_runLoop_of_overflow hover (σ.catalog h) now asOf observers registry)

/-- **What a run of the segment loop comes to** for the rows that are not filed after the time it looks
back to. For a time of the years 0 to 9999 these are the rows that are no younger, but none of the years
up to 9999 for a time after them. If all of them can be resolved the segments come in the order of
streams and positions, and the run accounts for them: for any observers, however they take what they
are given, so long as no two have one name. A tally counts every segment once, and its sums are exact
until there are so many segments that they need not fit in 64 bits. If one of them cannot be resolved
the run fails. All this takes room for a batch: when there can be none the run panics whatever there is
to read. A service keeps the statistics it has if a run does not come to its end. -/
theorem Reachable.loop_accounts (hσ : σ.Reachable allow) (hs : σ.store = some s) (hh : h ∈ σ.handles)
    (now : Instant) (n : Nat) (asOf : Option Instant) {observers : List (Observer τ × τ)}
    (hnames : (observers.map (·.1.name)).Nodup) (registry : Registry) :
    (∀ r, r ∈ s.segmentsBy (asOf.getD now) ↔
      r ∈ s.segments.rows ∧ ¬ (asOf.getD now).FiledBefore r.createdAt) ∧
    (∀ r ∈ s.segments.rows, r.createdAt.date.year ≤ 9999 →
      (0 ≤ (asOf.getD now).date.year ∧ (asOf.getD now).date.year ≤ 9999 →
        (r ∈ s.segmentsBy (asOf.getD now) ↔ (r.createdAt.order (asOf.getD now)).isLE)) ∧
      (9999 < (asOf.getD now).date.year → r ∉ s.segmentsBy (asOf.getD now))) ∧
    (∀ segments, (s.segmentsBy (asOf.getD now)).mapM (s.shown h.settings.serverSideCopy) =
        .ok segments →
      segments.map LoopSegment.spot = (s.segmentsBy (asOf.getD now)).map SegmentRow.spot ∧
      (segments.map LoopSegment.spot).Pairwise Precedes ∧
      (Tally.of segments).remoteSegments + (Tally.of segments).inlineSegments = segments.length ∧
      (Tally.of segments).remoteBytes + (Tally.of segments).inlineBytes =
        .ofInt (totalSize segments) ∧
      (segments.length ≤ 4294967296 →
        (Tally.of segments).remoteBytes.toInt + (Tally.of segments).inlineBytes.toInt =
          totalSize segments) ∧
      (loopBatch n ≤ SegmentScan.capacity →
        ∃ summary after, σ.runLoop h now n asOf observers registry = .ok (summary, after) ∧
          LoopAccount now (loopBatch n) segments observers registry summary after)) ∧
    (loopBatch n ≤ SegmentScan.capacity → ∀ e,
      (s.segmentsBy (asOf.getD now)).mapM (s.shown h.settings.serverSideCopy) = .error e →
        σ.runLoop h now n asOf observers registry = .error e) ∧
    (SegmentScan.capacity < loopBatch n →
      σ.runLoop h now n asOf observers registry = .error .capacityOverflow) ∧
    ∀ sv : Service, sv.catalog = σ.catalog h → ∀ e,
      σ.runLoop h now sv.loopBatchSize none [(Tally.observer, {})] sv.registry = .error e →
        (sv.loopAnswer now).1 = ⟨e.status, e.body⟩ ∧ (sv.loopAnswer now).2.registry = sv.registry := by
  have hstands := hσ.stands_of_store hs
  have hall := hσ.sane hs
  refine ⟨Store.mem_segmentsBy_iff s _, fun r hr hyear => Store.mem_segmentsBy_of_year hr hyear,
    fun segments hsegments => ?_, fun hroom e he => ?_, fun hover => ?_, fun sv hsv e he => ?_⟩
  · have hspots := Store.spots_shown hsegments
    have hordered := hall.pairwise_spots (asOf.getD now)
    rw [← hspots] at hordered
    obtain ⟨hcounts, hbytes⟩ := Tally.of_total segments
    exact ⟨hspots, hordered, hcounts, hbytes, fun hfew => (Tally.toInt_bytes hfew).2.2,
      fun hroom => hstands.loopAccount hh hall now hroom asOf hsegments hnames registry⟩
  · exact hstands.runLoop_eq_error hh hall now hroom asOf observers registry he
  · exact runLoop_of_overflow hover now asOf observers registry
  · rw [runLoop, ← hsv] at he
    exact Service.loopAnswer_of_error he

end Site

/-! ### Two runs -/

namespace Sample

/-- An observer that refuses all batches. -/
def refusing : Observer Tally where
  name := "refusing"
  start := id
  process _ t := (false, t)
  finish _ := .null

end Sample

/-- The segments of an upload and of its copies come in two batches, of which the tally refuses none and
the other observer both. -/
theorem Sample.loop_accounts_site : ∃ s, site.store = some s ∧ ∃ h ∈ site.handles,
    ∃ segments summary after, (s.segmentsBy moment).mapM (s.shown true) = .ok segments ∧
      site.runLoop h moment 2 none [(Tally.observer, {}), (refusing, {})] .empty =
        .ok (summary, after) ∧ summary = ⟨3, 2⟩ ∧
      (∃ stats, after.find? "segment_tally" = some stats ∧ stats.errors = 0 ∧
        stats.report = (Tally.of segments).report) ∧
      (after.find? "refusing").map (·.errors) = some 2 := by
  obtain ⟨s, hstands⟩ := reachable_site.stands
  have hrun : ∃ h ∈ site.handles, h.settings.serverSideCopy = true ∧
      (site.runLoop h moment 2 none [(Tally.observer, {}), (refusing, {})] .empty).toOption.map
        (fun out => (out.1, (out.2.find? "refusing").map (·.errors))) =
          some (⟨3, 2⟩, some 2) := by decide +kernel
  obtain ⟨h, hh, hsettings, hrun⟩ := hrun
  have hnames : (([(Tally.observer, {}), (refusing, {})] : List (Observer Tally × Tally)).map
      (·.1.name)).Nodup := by decide
  obtain ⟨-, -, hshows, hfails, -⟩ :=
    Site.Reachable.loop_accounts reachable_site hstands.store hh moment 2 none hnames .empty
  have hroom : loopBatch 2 ≤ SegmentScan.capacity := by decide
  rw [hsettings] at hshows hfails
  cases hsegments : (s.segmentsBy moment).mapM (s.shown true) with
  | error e =>
    rw [hfails hroom e hsegments] at hrun
    cases hrun
  | ok segments =>
    obtain ⟨-, -, -, -, -, haccounts⟩ := hshows segments hsegments
    obtain ⟨summary, after, hok, haccount⟩ := haccounts hroom
    rw [hok] at hrun
    obtain ⟨hsummary, herrors⟩ := Prod.mk.inj (Option.some.inj hrun)
    have htally := haccount.tallied _ List.mem_cons_self id Tally.tallies_observer
    exact ⟨s, hstands.store, h, hh, segments, summary, after, hsegments, hok, hsummary, htally,
      herrors⟩

/-- A segment of an upload is not seen by a run that looks back to the year 10000. -/
theorem Sample.loop_passes_over : (dated 2002).Reachable Store.Lacks ∧
    moment.order (newYear 10000) = .lt ∧
    (dated 2002).store.map (·.segments.rows.map (·.createdAt)) = some [moment] ∧
    ∃ h ∈ (dated 2002).handles, ∃ after, (dated 2002).runLoop h moment 1 (some (newYear 10000))
      [(Tally.observer, {})] .empty = .ok (⟨0, 0⟩, after) := by
  have hreachable : (dated 2002).Reachable Store.Lacks := Site.Reachable.fresh.run (by decide +kernel)
  have hrun : ∃ h ∈ (dated 2002).handles, ((dated 2002).runLoop h moment 1 (some (newYear 10000))
      [(Tally.observer, {})] .empty).toOption.map (·.1) = some ⟨0, 0⟩ := by decide +kernel
  obtain ⟨h, hh, hrun⟩ := hrun
  obtain ⟨⟨summary, after⟩, hok, hsummary⟩ := Except.exists_of_map_toOption hrun
  obtain rfl : summary = ⟨0, 0⟩ := hsummary
  exact ⟨hreachable, by decide +kernel, by decide +kernel, h, hh, after, hok⟩

end ObjectCatalog
