import ObjectCatalog.Scan
import ObjectCatalog.Text.Json

/-!
# The segment loop

One scan of all segments feeds several observers. An observer that refuses a batch is counted and
gets the batches after it all the same. When the scan has ended every observer reports, and the
registry keeps the statistics of its latest run.

* `Observer`: a batch job as a machine over a state.
* `Tally.observer`: counts remote and inline segments and their sizes.
* `Catalog.runLoop`: a run of the loop. A run that fails records nothing.
-/

namespace ObjectCatalog

/-- A batch job with states of a type. -/
structure Observer (σ : Type) where
  name : String
  /-- Called before the first batch. -/
  start : σ → σ
  /-- Called for every batch; tells whether the batch was accepted. -/
  process : List LoopSegment → σ → Bool × σ
  /-- Called after the last batch. -/
  finish : σ → Json

/-- Statistics of the latest run of an observer. -/
structure ObserverStats where
  name : String
  runs : Nat := 0
  segments : Nat := 0
  batches : Nat := 0
  errors : Nat := 0
  finishedAt : Option Instant := none
  report : Json := .null

/-- The statistics of all observers by name. -/
abbrev Registry := Table ObserverStats.name

/-- Records a run, counted with the runs before it. -/
def Registry.record (t : Registry) (run : ObserverStats) : Registry :=
  t.insert { run with runs := ((t.find? run.name).elim 0 (·.runs)) + 1 }

/-- What a run went through. -/
structure LoopSummary where
  segments : Nat := 0
  batches : Nat := 0
  deriving DecidableEq

/-- An observer in the course of a run. -/
structure Watch (σ : Type) where
  observer : Observer σ
  state : σ
  errors : Nat := 0

namespace Watch

variable {σ : Type}

/-- An observer at the start of a run. -/
def start (observer : Observer σ) (state : σ) : Watch σ := ⟨observer, observer.start state, 0⟩

/-- Hands a batch to an observer. -/
def feed (w : Watch σ) (batch : List LoopSegment) : Watch σ :=
  let (accepted, state) := w.observer.process batch w.state
  { w with state, errors := if accepted then w.errors else w.errors + 1 }

/-- The statistics of an observer at the end of a run. -/
def stats (w : Watch σ) (summary : LoopSummary) (now : Instant) : ObserverStats where
  name := w.observer.name
  segments := summary.segments
  batches := summary.batches
  errors := w.errors
  finishedAt := some now
  report := w.observer.finish w.state

end Watch

namespace Catalog

variable {σ : Type}

/-- Feeds the batches of a scan to observers up to the first empty one, or up to a number of them.
-/
def feedBatches : (limit : Nat) → SegmentScan → LoopSummary → List (Watch σ) →
    Action (LoopSummary × List (Watch σ))
  | 0, _, summary, watches => return (summary, watches)
  | limit + 1, scan, summary, watches => do
    let (outcome, scan) ← nextSegments scan
    match ← outcome with
    | [] => return (summary, watches)
    | batch =>
      let summary := ⟨summary.segments + batch.length, summary.batches + 1⟩
      feedBatches limit scan summary (watches.map (·.feed batch))

/-- Runs the segment loop for observers in their states, and records their statistics. -/
def runLoop (now : Instant) (batchSize : Nat) (asOf : Option Instant)
    (observers : List (Observer σ × σ)) (registry : Registry) :
    Action (LoopSummary × Registry) := do
  let watches := observers.map fun (observer, state) => Watch.start observer state
  let rows := (← get).store.elim 0 (·.segments.rows.length)
  let scan := SegmentScan.start now batchSize asOf
  let (summary, watches) ← feedBatches (rows + 1) scan {} watches
  return (summary, watches.foldl (fun t w => Registry.record t (w.stats summary now)) registry)

end Catalog

/-- Counts of segments by kind, and the sums of their encrypted sizes. The sums wrap around at
64 bits. -/
structure Tally where
  remoteSegments : Nat := 0
  inlineSegments : Nat := 0
  remoteBytes : Int64 := 0
  inlineBytes : Int64 := 0
  deriving DecidableEq

namespace Tally

/-- Counts a segment. -/
def add (t : Tally) (s : LoopSegment) : Tally :=
  let size := s.encryptedSize.toInt64
  if s.isInline then
    { t with inlineSegments := t.inlineSegments + 1, inlineBytes := t.inlineBytes + size }
  else
    { t with remoteSegments := t.remoteSegments + 1, remoteBytes := t.remoteBytes + size }

/-- The report of a tally. -/
def report (t : Tally) : Json :=
  .object [("inline_bytes", .int t.inlineBytes.toInt), ("inline_segments", .int t.inlineSegments),
    ("remote_bytes", .int t.remoteBytes.toInt), ("remote_segments", .int t.remoteSegments)]

/-- The batch job that counts segments. -/
def observer : Observer Tally where
  name := "segment_tally"
  start _ := {}
  process batch t := (true, batch.foldl add t)
  finish := report

end Tally

/-- A loop with the tally alone. -/
def Catalog.runTally (now : Instant) (batchSize : Nat) (registry : Registry) :
    Catalog.Action (LoopSummary × Registry) :=
  Catalog.runLoop now batchSize none [(Tally.observer, {})] registry

/-- Statistics as reports give them. -/
def ObserverStats.toJson (s : ObserverStats) : Json :=
  .object [("runs", .int s.runs), ("segments", .int s.segments), ("batches", .int s.batches),
    ("errors", .int s.errors), ("finished_at", s.finishedAt.elim .null (.text ·.shown)),
    ("report", s.report)]

/-- The statistics of all observers as reports give them. -/
def Registry.toJson (t : Registry) : Json :=
  .object (t.rows.map fun s => (s.name, s.toJson))

/-- A summary as reports give it. -/
def LoopSummary.toJson (s : LoopSummary) : Json :=
  .object [("segments", .int s.segments), ("batches", .int s.batches)]

end ObjectCatalog
