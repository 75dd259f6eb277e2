import ObjectCatalog.Listing.Pending
import ObjectCatalog.Observer
import ObjectCatalog.Proofs.Changes
import ObjectCatalog.Proofs.Lookups
import ObjectCatalog.Proofs.Outcomes

/-!
# Calls on open tables

A call works on a handle: the tables and a cache of their aliases. What it does to the tables is
followed step by step.

* `Catalog.Open`: a handle whose cache holds rows of the alias table only.
* `Catalog.Quiet`: a call that leaves the tables as they are, whether it succeeds or fails.
* `Catalog.Does`: a call that changes the tables in a given way, or leaves them.
* `Catalog.quiet_getSegment` and the lemmas after it: **calls that read are quiet.**
* `Catalog.run_scanSegments_of_overflow`, `Catalog.run_runLoop_of_overflow`: calls that ask for too much
  room.
-/

namespace ObjectCatalog

namespace Catalog

variable {α β : Type} {c : Catalog} {s s' : Store} {R : Store → Store → Prop}

/-- A handle on tables: its cache holds rows of their alias table only. -/
structure Open (c : Catalog) (s : Store) : Prop where
  store : c.store = some s
  cache : c.cache.Within s.nodes
  aliases : s.nodes.Sound

/-- A call that leaves the tables as they are. -/
def Quiet (s : Store) (a : Action α) : Prop := ∀ c : Catalog, c.Open s → (c.run a).2.Open s

/-- A call that changes the tables in a way, whether it succeeds or fails. -/
def Does (R : Store → Store → Prop) (s : Store) (a : Action α) : Prop :=
  ∀ c : Catalog, c.Open s → ∃ s', (c.run a).2.Open s' ∧ R s s'

/-! ## Quiet steps -/

theorem quiet_pure (v : α) : Quiet s (pure v : Action α) := fun _ hc => hc

theorem quiet_throw (e : Error) : Quiet s (throw e : Action α) := fun _ hc => hc

theorem quiet_lift (x : Except Error α) : Quiet s (liftM x : Action α) := fun _ hc => hc

theorem Quiet.bind {a : Action α} {f : α → Action β} (ha : Quiet s a) (hf : ∀ v, Quiet s (f v)) :
    Quiet s (a >>= f) := by
  intro c hc
  have hrun := ha c hc
  rw [run_bind]
  rcases hout : c.run a with ⟨e | v, c'⟩
  · rw [hout] at hrun
    exact hrun
  · rw [hout] at hrun
    exact hf v c' hrun

theorem quiet_get_bind {f : Catalog → Action β} (hf : ∀ c, c.Open s → Quiet s (f c)) :
    Quiet s (get >>= f) := fun c hc => hf c hc c hc

theorem quiet_tables_bind {statement : Statement} {f : Store → Action β} (hf : Quiet s (f s)) :
    Quiet s (tables statement >>= f) := by
  intro c hc
  rw [run_tables_bind hc.store]
  exact hf c hc

theorem quiet_reject_bind {bad : Bool} {why : Rejection} {f : Unit → Action β}
    (hf : bad = false → Quiet s (f ())) : Quiet s (reject bad why >>= f) := by
  intro c hc
  rw [run_reject_bind]
  cases bad with
  | true => exact hc
  | false => exact hf rfl c hc

theorem quiet_reading {l : Lookup α} (hl : l.Learns s.nodes) : Quiet s (reading l) := by
  intro c hc
  rw [run_reading]
  exact ⟨hc.store, hl c.cache hc.cache, hc.aliases⟩

/-! ## Steps that change the tables -/

theorem Quiet.does {a : Action α} (ha : Quiet s a) (hR : R s s) : Does R s a :=
  fun c hc => ⟨s, ha c hc, hR⟩

theorem does_lift_bind {x : Except Error α} {f : α → Action β} (hR : R s s)
    (hf : ∀ v, x = .ok v → Does R s (f v)) : Does R s (liftM x >>= f) := by
  intro c hc
  rw [run_lift_bind]
  cases hx : x with
  | error e => exact ⟨s, hc, hR⟩
  | ok v => exact hf v hx c hc

theorem does_reject_bind {bad : Bool} {why : Rejection} {f : Unit → Action β} (hR : R s s)
    (hf : bad = false → Does R s (f ())) : Does R s (reject bad why >>= f) := by
  intro c hc
  rw [run_reject_bind]
  cases bad with
  | true => exact ⟨s, hc, hR⟩
  | false => exact hf rfl c hc

theorem does_throw_bind {e : Error} {f : α → Action β} (hR : R s s) : Does R s (throw e >>= f) :=
  fun _ hc => ⟨s, hc, hR⟩

theorem does_get_bind {f : Catalog → Action β} (hf : ∀ c, c.Open s → Does R s (f c)) :
    Does R s (get >>= f) := fun c hc => hf c hc c hc

theorem does_tables_bind {statement : Statement} {f : Store → Action β} (hf : Does R s (f s)) :
    Does R s (tables statement >>= f) := by
  intro c hc
  rw [run_tables_bind hc.store]
  exact hf c hc

theorem Quiet.does_bind {a : Action α} {f : α → Action β} (ha : Quiet s a) (hR : R s s)
    (hf : ∀ v, Does R s (f v)) : Does R s (a >>= f) := by
  intro c hc
  have hrun := ha c hc
  rw [run_bind]
  rcases hout : c.run a with ⟨e | v, c'⟩
  · rw [hout] at hrun
    exact ⟨s, hrun, hR⟩
  · rw [hout] at hrun
    exact hf v c' hrun

/-- Storing tables whose alias table has grown keeps a handle open on them. -/
theorem Open.commit (hc : c.Open s) (hext : s.nodes.Extends s'.nodes) (hsound : s'.nodes.Sound) :
    Open { c with store := some s' } s' :=
  ⟨rfl, hc.cache.mono hext, hsound⟩

theorem does_commit (hext : s.nodes.Extends s'.nodes) (hsound : s.nodes.Sound → s'.nodes.Sound)
    (hR : R s s') : Does R s (Catalog.commit s') :=
  fun _ hc => ⟨s', hc.commit hext (hsound hc.aliases), hR⟩

theorem does_commit_bind {f : Unit → Action β} (hext : s.nodes.Extends s'.nodes)
    (hsound : s.nodes.Sound → s'.nodes.Sound) (hR : R s s') (hf : Quiet s' (f ())) :
    Does R s (Catalog.commit s' >>= f) := by
  intro c hc
  rw [run_commit_bind]
  exact ⟨s', hf _ (hc.commit hext (hsound hc.aliases)), hR⟩

/-- A change that leaves the alias table, and the rest of the call. -/
theorem does_commit_bind_of_nodes {f : Unit → Action β} (hnodes : s'.nodes = s.nodes) (hR : R s s')
    (hf : Quiet s' (f ())) : Does R s (Catalog.commit s' >>= f) := by
  have hext : s.nodes.Extends s'.nodes := by rw [hnodes]; exact .refl _
  exact does_commit_bind hext (fun h => by rw [hnodes]; exact h) hR hf

/-! ## Calls that read -/

theorem quiet_createTables : Quiet s createTables := by
  intro c hc
  have hstore := hc.store
  obtain ⟨settings, store, cache⟩ := c
  cases hstore
  exact hc

theorem quiet_getExactVersion (l : Location) (version : Int64) :
    Quiet s (getExactVersion l version) :=
  (quiet_lift _).bind fun _ => quiet_reject_bind fun _ => quiet_tables_bind (quiet_lift _)

theorem quiet_getLatestVersion (l : Location) : Quiet s (getLatestVersion l) :=
  (quiet_lift _).bind fun _ => quiet_tables_bind (quiet_lift _)

theorem quiet_resolve (statement : Statement) (row : SegmentRow) :
    Quiet s (resolve s statement row) :=
  (quiet_lift _).bind fun _ => quiet_get_bind fun _ _ =>
    quiet_reading (s.gives_resolve _ row).learns

theorem quiet_resolveAll (statement : Statement) (rows : List SegmentRow) :
    Quiet s (resolveAll s statement rows) := by
  refine quiet_get_bind fun c _ => quiet_reading ?_
  exact (Lookup.learns_lift _).bind fun _ => (s.gives_resolveBatch _ rows).learns

theorem quiet_getSegment (x : StreamId) (p : Position) : Quiet s (getSegment x p) := by
  intro c hc
  obtain ⟨cache, hwithin, hrun⟩ := run_getSegment hc.store hc.cache x p
  rw [hrun]
  exact ⟨hc.store, hwithin, hc.aliases⟩

theorem quiet_getLastSegment (l : Location) : Quiet s (getLastSegment l) := by
  refine (quiet_lift _).bind fun _ => quiet_tables_bind ?_
  refine (quiet_lift _).bind fun object => ?_
  dsimp only
  cases (s.segmentsOf object.stream.stream).getLast? with
  | none => exact quiet_throw _
  | some row => exact quiet_resolve _ row

theorem quiet_listSegments (x : StreamId) (cursor : Option Position) (limit : Nat) :
    Quiet s (listSegments x cursor limit) := by
  refine quiet_reject_bind fun _ => quiet_tables_bind ?_
  exact (quiet_lift _).bind fun _ => (quiet_resolveAll _ _).bind fun _ => quiet_pure _

theorem quiet_beginCopy (r : BeginCopy) : Quiet s (beginCopy r) := by
  refine (quiet_lift _).bind fun _ => quiet_reject_bind fun _ => ?_
  cases r.version with
  | some version =>
    exact quiet_tables_bind ((quiet_lift _).bind fun _ => (quiet_pure _).bind fun _ => quiet_pure _)
  | none =>
    exact quiet_tables_bind ((quiet_lift _).bind fun _ => (quiet_pure _).bind fun _ => quiet_pure _)

theorem quiet_beginSegment (r : BeginSegment) : Quiet s (beginSegment r) :=
  (quiet_lift _).bind fun _ => quiet_tables_bind ((quiet_lift _).bind fun _ => quiet_pure _)

theorem quiet_listObjects (r : ListObjects) : Quiet s (listObjects r) :=
  (quiet_lift _).bind fun _ => quiet_get_bind fun _ _ => quiet_lift _

theorem quiet_listPending (r : ListPending) : Quiet s (listPending r) :=
  (quiet_lift _).bind fun _ => quiet_get_bind fun _ _ => quiet_lift _

theorem quiet_scanObjects (now : Instant) (batchSize : Nat) (asOf : Option Instant) :
    Quiet s (scanObjects now batchSize asOf) :=
  quiet_get_bind fun _ _ => quiet_lift _

theorem quiet_piecesOf (aliases : List AliasPiece) : Quiet s (piecesOf aliases) := by
  refine quiet_get_bind fun c hc => ?_
  split
  · exact quiet_lift _
  · exact quiet_tables_bind (quiet_reading (Lookup.learns_pieces (.refl _) aliases))

end Catalog

/-! ## Scans of segments -/

/-- A scan of tables whose alias table has only grown since its first batch. -/
def SegmentScan.Of (t : NodeTable) (scan : SegmentScan) : Prop :=
  ∀ s, scan.snapshot = some s → s.nodes.Extends t

theorem SegmentScan.Of.start (t : NodeTable) (now : Instant) (batchSize : Nat)
    (asOf : Option Instant) : (SegmentScan.start now batchSize asOf).Of t :=
  fun _ h => by cases h

theorem SegmentScan.Of.mono {t t' : NodeTable} {scan : SegmentScan} (h : scan.Of t)
    (hext : t.Extends t') : scan.Of t' :=
  fun s hs => (h s hs).trans hext

namespace Catalog

variable {s : Store} {c : Catalog} {scan : SegmentScan}

theorem fetch_snapshot {rows : List SegmentRow} {scan' : SegmentScan}
    (h : scan.fetch s = .ok (rows, scan')) : scan'.snapshot = scan.snapshot := by
  unfold SegmentScan.fetch at h
  split at h
  · cases h; rfl
  · obtain ⟨_, -, h⟩ := Except.bind_eq_ok.1 h
    cases h
    rfl

theorem fetch_batchSize {rows : List SegmentRow} {scan' : SegmentScan}
    (h : scan.fetch s = .ok (rows, scan')) : scan'.batchSize = scan.batchSize := by
  unfold SegmentScan.fetch at h
  split at h
  · cases h; rfl
  · obtain ⟨_, -, h⟩ := Except.bind_eq_ok.1 h
    cases h
    rfl

/-! ### Room for a batch -/

theorem overflows_of_le (h : scan.batchSize ≤ SegmentScan.capacity) : scan.overflows = false := by
  rw [SegmentScan.overflows, decide_eq_false (Nat.not_lt.2 h), Bool.and_false]

theorem overflows_start {n : Nat} (h : SegmentScan.capacity < loopBatch n) (now : Instant)
    (asOf : Option Instant) : (SegmentScan.start now n asOf).overflows = true :=
  decide_eq_true h

/-- A batch is fetched, unless there can be no room for it. -/
theorem run_nextSegments (scan : SegmentScan) (c : Catalog) : StateT.run (nextSegments scan) c =
    if scan.overflows then ((.error .capacityOverflow, scan), c)
    else StateT.run (fetchSegments scan) c := by
  unfold nextSegments
  split <;> rfl

theorem run_nextSegments_bind_of_overflows {α : Type} (h : scan.overflows = true) (c : Catalog)
    (f : Except Error (List LoopSegment) × SegmentScan → Action α) :
    c.run (liftM (nextSegments scan) >>= f) = c.run (f (.error .capacityOverflow, scan)) := by
  rw [run_state_bind, run_nextSegments, if_pos h]

/-- **A scan in too large batches panics,** whatever the tables are, and leaves the catalogue as it is. -/
theorem run_scanSegments_of_overflow {n : Nat} (h : SegmentScan.capacity < loopBatch n) (c : Catalog)
    (now : Instant) (asOf : Option Instant) :
    c.run (scanSegments now n asOf) = (.error .capacityOverflow, c) := by
  unfold scanSegments
  rw [run_get_bind, drainSegments,
    run_nextSegments_bind_of_overflows (overflows_start h now asOf)]
  rfl

/-- **The segment loop with too large batches panics,** whatever the tables are, and no observer
finishes. -/
theorem run_runLoop_of_overflow {σ : Type} {n : Nat} (h : SegmentScan.capacity < loopBatch n)
    (c : Catalog) (now : Instant) (asOf : Option Instant) (observers : List (Observer σ × σ))
    (registry : Registry) :
    c.run (runLoop now n asOf observers registry) = (.error .capacityOverflow, c) := by
  unfold runLoop
  rw [run_get_bind]
  dsimp only
  refine run_bind_error ?_
  rw [feedBatches, run_nextSegments_bind_of_overflows (overflows_start h now asOf)]
  rfl

/-! ### What a batch leaves -/

theorem open_fetchSegments (hc : c.Open s) (hscan : scan.Of s.nodes) :
    (StateT.run (fetchSegments scan) c).2.Open s ∧
      (StateT.run (fetchSegments scan) c).1.2.Of s.nodes := by
  unfold fetchSegments
  rw [StateT.run_bind, StateT.run_get, pure_bind]
  dsimp only
  cases hstore : scan.snapshot.or c.store with
  | none => exact ⟨hc, hscan⟩
  | some s₀ =>
    have hext : s₀.nodes.Extends s.nodes := by
      rcases Option.or_eq_some_iff.1 hstore with hsnap | ⟨-, hcur⟩
      · exact hscan s₀ hsnap
      · rw [hc.store] at hcur
        cases hcur
        exact .refl _
    have hof : SegmentScan.Of s.nodes { scan with snapshot := some s₀ } := by
      intro s₁ h₁
      cases h₁
      exact hext
    dsimp only
    cases hfetch : SegmentScan.fetch { scan with snapshot := some s₀ } s₀ with
    | error e => exact ⟨hc, hof⟩
    | ok out =>
      obtain ⟨rows, scan'⟩ := out
      refine ⟨⟨hc.store, ?_, hc.aliases⟩, fun s₁ h₁ => ?_⟩
      · exact s₀.learns_resolveBatch hext _ rows c.cache hc.cache
      · exact hof s₁ ((fetch_snapshot hfetch).symm.trans h₁)

/-- A batch of a scan leaves the tables as they are. -/
theorem open_nextSegments (hc : c.Open s) (hscan : scan.Of s.nodes) :
    (StateT.run (nextSegments scan) c).2.Open s ∧
      (StateT.run (nextSegments scan) c).1.2.Of s.nodes := by
  rw [run_nextSegments]
  split
  · exact ⟨hc, hscan⟩
  · exact open_fetchSegments hc hscan

/-- All batches of a scan are of one size. -/
theorem batchSize_nextSegments (scan : SegmentScan) (c : Catalog) :
    (StateT.run (nextSegments scan) c).1.2.batchSize = scan.batchSize := by
  rw [run_nextSegments]
  split
  · rfl
  · unfold fetchSegments
    rw [StateT.run_bind, StateT.run_get, pure_bind]
    dsimp only
    cases scan.snapshot.or c.store with
    | none => rfl
    | some s =>
      dsimp only
      cases hfetch : SegmentScan.fetch { scan with snapshot := some s } s with
      | error e => rfl
      | ok out =>
        have hsize := fetch_batchSize hfetch
        exact hsize

theorem quiet_nextSegments_bind {β : Type} {f : Except Error (List LoopSegment) × SegmentScan → Action β}
    (hscan : scan.Of s.nodes) (hf : ∀ out, out.2.Of s.nodes → Quiet s (f out)) :
    Quiet s (liftM (nextSegments scan) >>= f) := by
  intro c hc
  obtain ⟨hopen, hof⟩ := open_nextSegments hc hscan
  exact hf _ hof _ hopen

theorem quiet_drainSegments (limit : Nat) (hscan : scan.Of s.nodes) :
    Quiet s (drainSegments limit scan) := by
  induction limit generalizing scan with
  | zero => exact quiet_pure _
  | succ limit ih =>
    refine quiet_nextSegments_bind hscan fun out hof => ?_
    refine (quiet_lift out.1).bind fun batch => ?_
    cases batch with
    | nil => exact quiet_pure _
    | cons entry rest => exact (ih hof).bind fun _ => quiet_pure _

theorem quiet_scanSegments (now : Instant) (batchSize : Nat) (asOf : Option Instant) :
    Quiet s (scanSegments now batchSize asOf) :=
  quiet_get_bind fun _ _ => quiet_drainSegments _ (.start _ now batchSize asOf)

theorem quiet_feedBatches {σ : Type} (limit : Nat) (hscan : scan.Of s.nodes) (summary : LoopSummary)
    (watches : List (Watch σ)) : Quiet s (feedBatches limit scan summary watches) := by
  induction limit generalizing scan summary watches with
  | zero => exact quiet_pure _
  | succ limit ih =>
    refine quiet_nextSegments_bind hscan fun out hof => ?_
    refine (quiet_lift out.1).bind fun batch => ?_
    cases batch with
    | nil => exact quiet_pure _
    | cons entry rest => exact ih hof _ _

theorem quiet_runLoop {σ : Type} (now : Instant) (batchSize : Nat) (asOf : Option Instant)
    (observers : List (Observer σ × σ)) (registry : Registry) :
    Quiet s (runLoop now batchSize asOf observers registry) :=
  quiet_get_bind fun _ _ =>
    (quiet_feedBatches _ (.start _ now batchSize asOf) _ _).bind fun _ => quiet_pure _

end Catalog

end ObjectCatalog
