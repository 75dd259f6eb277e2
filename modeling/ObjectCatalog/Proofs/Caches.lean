import ObjectCatalog.Proofs.Runs

/-!
# What caches learn

A call puts rows of the alias table into the cache of its handle, and takes nothing out. A row goes
into both maps of the cache, so the nodes that one map knows are the nodes of the aliases that the
other one knows.

* `AliasCache.Grows`: a cache that has remembered more rows.
* `AliasCache.Paired`: the two maps of a cache know the same nodes and aliases.
* `AliasCache.Within.aliasOf?_iff_node?`: **the maps of a paired cache of the alias table are inverse to
  each other.**
* `Call.grows`: **a call does nothing to the cache of its handle but remember rows.**
* `Site.Reachable.paired`: so the caches of all handles of a reachable site are paired.
-/

namespace ObjectCatalog

/-! ## Caches that grow -/

namespace AliasCache

/-- A cache that has remembered more rows. -/
def Grows (c c' : AliasCache) : Prop := ∃ rows, c' = c.remember rows

/-- The maps of a cache know the same nodes and aliases. -/
structure Paired (c : AliasCache) : Prop where
  alias_known : ∀ r ∈ c.byNode.rows, ∃ r' ∈ c.byAlias.rows, r'.short = r.short
  node_known : ∀ r ∈ c.byAlias.rows, ∃ r' ∈ c.byNode.rows, r'.node = r.node

variable {c c' c'' : AliasCache} {t : NodeTable} {node : NodeId} {short : NodeAlias}

theorem Grows.refl (c : AliasCache) : c.Grows c := ⟨[], rfl⟩

theorem Grows.trans (h : c.Grows c') (h' : c'.Grows c'') : c.Grows c'' := by
  obtain ⟨rows, rfl⟩ := h
  obtain ⟨rows', rfl⟩ := h'
  exact ⟨rows ++ rows', (List.foldl_append ..).symm⟩

theorem paired_empty : AliasCache.empty.Paired :=
  ⟨fun _ hr => absurd hr List.not_mem_nil, fun _ hr => absurd hr List.not_mem_nil⟩

/-- Rows that go into two tables keep the second one knowing all keys of rows of the first. -/
theorem known_insert {κ κ' : Type} [Ord κ] [Std.TransOrd κ] [Std.LawfulEqOrd κ] [Ord κ']
    [Std.TransOrd κ'] [Std.LawfulEqOrd κ'] {key : NodeRow → κ} {key' : NodeRow → κ'}
    {a : Table key} {b : Table key'}
    (h : ∀ x ∈ a.rows, ∃ y ∈ b.rows, key' y = key' x) (r : NodeRow) :
    ∀ x ∈ (a.insert r).rows, ∃ y ∈ (b.insert r).rows, key' y = key' x := by
  intro x hx
  -- the new row may take the place of the one by which a key was known
  by_cases hsame : key' x = key' r
  · exact ⟨r, Table.mem_insert.2 (.inl rfl), hsame.symm⟩
  · rcases Table.mem_insert.1 hx with rfl | ⟨hx, -⟩
    · exact absurd rfl hsame
    · obtain ⟨y, hy, hxy⟩ := h x hx
      exact ⟨y, Table.mem_insert.2 (.inr ⟨hy, fun hyr => hsame (hxy.symm.trans hyr)⟩), hxy⟩

theorem Paired.insert (h : c.Paired) (r : NodeRow) : (c.insert r).Paired :=
  ⟨known_insert h.alias_known r, known_insert h.node_known r⟩

theorem Paired.grows (h : c.Paired) (hgrows : c.Grows c') : c'.Paired := by
  obtain ⟨rows, rfl⟩ := hgrows
  induction rows generalizing c with
  | nil => exact h
  | cons r rest ih => exact ih (h.insert r)

/-- **The maps of a paired cache are inverse to each other,** if it holds rows of a table in which
nodes have one alias each. -/
theorem Within.aliasOf?_iff_node? (h : c.Within t) (ht : t.Sound) (hpaired : c.Paired) :
    c.aliasOf? node = some short ↔ c.node? short = some node := by
  rw [aliasOf?_eq_some_iff, node?_eq_some_iff]
  -- the row of the other map is of the table too, where it has the same half and so the other one
  constructor
  · intro hmem
    obtain ⟨r, hr, hshort⟩ := hpaired.alias_known _ hmem
    have hsame : r = ⟨short, node⟩ := t.rows.eq_of_key_eq (h.byAlias r hr) (h.byNode _ hmem) hshort
    rwa [hsame] at hr
  · intro hmem
    obtain ⟨r, hr, hnode⟩ := hpaired.node_known _ hmem
    have hsame : r = ⟨short, node⟩ := ht.distinct r (h.byNode r hr) _ (h.byAlias _ hmem) hnode
    rwa [hsame] at hr

end AliasCache

/-! ## Reads -/

namespace Lookup

variable {α β : Type} {l : Lookup α} {f : α → Lookup β}

/-- A read that does nothing to the cache but remember rows. -/
def Grows (l : Lookup α) : Prop := ∀ c : AliasCache, c.Grows (l.run c).2

theorem grows_pure (v : α) : Grows (pure v : Lookup α) := fun c => .refl c

theorem grows_lift (x : Except Error α) : Grows (liftM x : Lookup α) := fun c => .refl c

theorem Grows.bind (h : Grows l) (hf : ∀ v, Grows (f v)) : Grows (l >>= f) := by
  intro c
  have hl := h c
  rw [run_bind]
  rcases hrun : l.run c with ⟨e | v, c'⟩
  · rw [hrun] at hl
    exact hl
  · rw [hrun] at hl
    exact hl.trans (hf v c')

theorem Grows.mapM {f : β → Lookup α} (hf : ∀ x, Grows (f x)) (xs : List β) :
    Grows (xs.mapM f) := by
  induction xs with
  | nil => rw [List.mapM_nil]; exact grows_pure _
  | cons x rest ih =>
    rw [List.mapM_cons]
    exact (hf x).bind fun _ => ih.bind fun _ => grows_pure _

theorem grows_pieces (t : NodeTable) (aliases : List AliasPiece) : Grows (pieces t aliases) := by
  intro c
  show c.Grows (if c.knows aliases then c else c.remember t.rows.rows)
  split
  · exact .refl c
  · exact ⟨t.rows.rows, rfl⟩

theorem grows_release (t : NodeTable) (rows : List SegmentRow) : Grows (SegmentRow.release t rows) :=
  Grows.mapM (fun _ => (grows_lift _).bind fun _ => (grows_pieces _ _).bind fun _ => grows_pure _) _

theorem grows_resolve (s : Store) (serverSideCopy : Bool) (r : SegmentRow) :
    Grows (s.resolve serverSideCopy r) :=
  (grows_lift _).bind fun _ => (grows_lift _).bind fun _ => (grows_pieces _ _).bind fun _ =>
    grows_pure _

theorem grows_resolveBatch (s : Store) (serverSideCopy : Bool) (rows : List SegmentRow) :
    Grows (s.resolveBatch serverSideCopy rows) := by
  rw [Store.resolveBatch_eq]
  exact Grows.mapM (grows_resolve s serverSideCopy) rows

end Lookup

/-! ## Calls -/

namespace Catalog

variable {α β : Type} {a : Action α} {f : α → Action β}

/-- A call that does nothing to the cache but remember rows. -/
def Grows (a : Action α) : Prop := ∀ c : Catalog, c.cache.Grows (c.run a).2.cache

theorem grows_pure (v : α) : Grows (pure v : Action α) := fun c => .refl c.cache

theorem grows_throw (e : Error) : Grows (throw e : Action α) := fun c => .refl c.cache

/-- A call that has failed does nothing more. -/
theorem grows_throw_bind (e : Error) (f : α → Action β) : Grows (throw e >>= f) :=
  fun c => .refl c.cache

theorem grows_lift (x : Except Error α) : Grows (liftM x : Action α) := fun c => .refl c.cache

theorem grows_get : Grows (get : Action Catalog) := fun c => .refl c.cache

theorem grows_commit (s : Store) : Grows (commit s) := fun c => .refl c.cache

theorem grows_reject (bad : Bool) (why : Rejection) : Grows (reject bad why : Action Unit) := by
  cases bad
  · exact grows_pure _
  · exact grows_throw _

theorem Grows.bind (h : Grows a) (hf : ∀ v, Grows (f v)) : Grows (a >>= f) := by
  intro c
  have ha := h c
  rw [run_bind]
  rcases hrun : c.run a with ⟨e | v, c'⟩
  · rw [hrun] at ha
    exact ha
  · rw [hrun] at ha
    exact ha.trans (hf v c')

theorem grows_tables (statement : Statement) : Grows (tables statement) := by
  refine grows_get.bind fun c => ?_
  cases c.store with
  | none => exact grows_throw _
  | some s => exact grows_pure s

theorem grows_reading {l : Lookup α} (hl : l.Grows) : Grows (reading l) := by
  intro c
  rw [run_reading]
  exact hl c.cache

theorem grows_createTables : Grows createTables := fun c => .refl c.cache

/-! ### Uploads -/

theorem grows_beginNextVersion (now : Instant) (r : BeginObject) :
    Grows (beginNextVersion now r) := by
  refine (grows_lift _).bind fun _ => (grows_reject _ _).bind fun _ => ?_
  refine (grows_tables _).bind fun s => grows_get.bind fun _ => ?_
  dsimp only
  split
  · exact grows_throw_bind _ _
  · exact (grows_commit _).bind fun _ => grows_lift _

theorem grows_beginExactVersion (now : Instant) (r : BeginObject) :
    Grows (beginExactVersion now r) := by
  refine (grows_lift _).bind fun _ => (grows_reject _ _).bind fun _ => ?_
  refine (grows_tables _).bind fun s => grows_get.bind fun _ => ?_
  dsimp only
  split
  · exact grows_throw_bind _ _
  · exact (grows_commit _).bind fun _ => grows_lift _

theorem grows_beginSegment (r : BeginSegment) : Grows (beginSegment r) :=
  (grows_lift _).bind fun _ => (grows_tables _).bind fun _ => (grows_lift _).bind fun _ =>
    grows_pure _

/-- The rows of nodes that have been looked up are remembered. -/
theorem grows_ensureNodes (nodes : List NodeId) : Grows (ensureNodes nodes) := by
  refine grows_get.bind fun c => (grows_lift _).bind fun found => ?_
  split
  · exact grows_pure _
  · refine (grows_tables _).bind fun s => ?_
    cases s.nodes.addAll found with
    | none => exact grows_throw _
    | some table =>
      exact (grows_commit _).bind fun _ => fun c' => ⟨table.rowsOf found, rfl⟩

theorem grows_aliasesOf (pieces : List Piece) : Grows (aliasesOf pieces) :=
  (grows_ensureNodes _).bind fun _ => grows_get.bind fun _ => grows_lift _

theorem grows_piecesOf (aliases : List AliasPiece) : Grows (piecesOf aliases) := by
  refine grows_get.bind fun c => ?_
  split
  · exact grows_lift _
  · exact (grows_tables _).bind fun s => grows_reading (Lookup.grows_pieces _ _)

theorem grows_commitSegment (now : Instant) (r : CommitSegment) : Grows (commitSegment now r) :=
  grows_get.bind fun _ => (grows_lift _).bind fun _ => (grows_aliasesOf _).bind fun _ =>
    (grows_tables _).bind fun _ => (grows_lift _).bind fun _ => grows_commit _

theorem grows_commitInlineSegment (now : Instant) (r : CommitInlineSegment) :
    Grows (commitInlineSegment now r) :=
  (grows_lift _).bind fun _ => (grows_tables _).bind fun _ => (grows_lift _).bind fun _ =>
    grows_commit _

theorem grows_commitObject (r : CommitObject) : Grows (commitObject r) :=
  (grows_lift _).bind fun _ => (grows_tables _).bind fun _ => (grows_lift _).bind fun _ =>
    (grows_lift _).bind fun _ => grows_get.bind fun _ => (grows_lift _).bind fun _ =>
      (grows_commit _).bind fun _ => grows_pure _

theorem grows_commitObjectWithSegments (r : CommitObjectWithSegments) :
    Grows (commitObjectWithSegments r) := by
  refine (grows_lift _).bind fun metadata => (grows_lift _).bind fun _ => ?_
  refine (grows_tables _).bind fun s => (grows_lift _).bind fun o => (grows_lift _).bind fun _ => ?_
  dsimp only
  cases r.segments.find? fun p => !(s.segmentsOf r.commit.stream.stream).any fun x =>
      decide (x.place = p) with
  | some absent => exact grows_throw_bind _ _
  | none =>
    refine (grows_reading (Lookup.grows_release _ _)).bind fun released => grows_get.bind fun _ => ?_
    exact (grows_lift _).bind fun _ => (grows_commit _).bind fun _ => grows_pure _

theorem grows_updateMetadata (r : UpdateMetadata) : Grows (updateMetadata r) := by
  refine (grows_lift _).bind fun _ => (grows_lift _).bind fun _ => (grows_tables _).bind fun s => ?_
  cases s.objectOf? r.stream .committed with
  | none => exact grows_throw _
  | some o => exact grows_commit _

/-! ### Copies and deletions -/

theorem grows_beginCopy (r : BeginCopy) : Grows (beginCopy r) := by
  refine (grows_lift _).bind fun _ => (grows_reject _ _).bind fun _ => ?_
  cases r.version with
  | some version => exact (grows_tables _).bind fun _ => (grows_lift _).bind fun _ =>
      (grows_pure _).bind fun _ => grows_pure _
  | none => exact (grows_tables _).bind fun _ => (grows_lift _).bind fun _ =>
      (grows_pure _).bind fun _ => grows_pure _

theorem grows_finishCopy (now : Instant) (r : FinishCopy) : Grows (finishCopy now r) :=
  (grows_lift _).bind fun _ => (grows_tables _).bind fun _ => (grows_lift _).bind fun _ =>
    (grows_commit _).bind fun _ => grows_pure _

theorem grows_deleteRows (statement : Statement) (s : Store) (rows : List ObjectRow) :
    Grows (deleteRows statement s rows) := by
  have hviews : Grows
      ((ObjectRow.byAge rows).mapM fun o => liftM (o.view statement) : Action (List Object)) := by
    intro c
    rw [run_mapM_lift]
    exact .refl c.cache
  exact hviews.bind fun _ => (grows_lift _).bind fun _ =>
    (grows_reading (Lookup.grows_release _ _)).bind fun _ => (grows_commit _).bind fun _ =>
      grows_pure _

theorem grows_deleteSomeRows (statement : Statement) (s : Store) (rows : List ObjectRow) :
    Grows (deleteSomeRows statement s rows) := by
  unfold deleteSomeRows
  split
  · exact grows_throw _
  · exact grows_deleteRows statement s rows

theorem grows_sweepRounds (statement : Statement) (due : Store → List ObjectRow) (size rounds : Nat) :
    Grows (sweepRounds statement due size rounds) := by
  induction rounds with
  | zero => exact grows_pure _
  | succ rounds ih =>
    refine (grows_tables _).bind fun s => (grows_deleteRows _ _ _).bind fun d => ?_
    split
    · exact grows_pure d
    · exact ih.bind fun _ => grows_pure _

theorem grows_sweep (statement : Statement) (due : Store → List ObjectRow) (size : Nat) :
    Grows (sweep statement due size) :=
  (grows_tables _).bind fun _ => grows_sweepRounds statement due _ _

theorem grows_delete (call : DeleteCall) : Grows call.action := by
  cases call with
  | pending stream =>
    exact (grows_lift _).bind fun _ => (grows_tables _).bind fun _ => grows_deleteSomeRows _ _ _
  | exactVersion l version =>
    exact (grows_lift _).bind fun _ => (grows_reject _ _).bind fun _ => (grows_tables _).bind fun _ =>
      grows_deleteSomeRows _ _ _
  | allVersions l =>
    exact (grows_lift _).bind fun _ => (grows_tables _).bind fun _ => grows_deleteSomeRows _ _ _
  | committedVersions locations =>
    cases locations with
    | nil => exact grows_pure _
    | cons first rest =>
      refine (grows_lift _).bind fun _ => (grows_tables _).bind fun s => ?_
      dsimp only
      split
      · exact grows_throw_bind _ _
      · exact grows_deleteRows _ _ _
  | expired before batchSize => exact grows_sweep _ _ _
  | zombies before inactiveSince batchSize => exact grows_sweep _ _ _
  | bucket project name batchSize =>
    exact (grows_reject _ _).bind fun _ => (grows_reject _ _).bind fun _ => grows_sweep _ _ _

/-! ### Reads and scans -/

theorem grows_getExactVersion (l : Location) (version : Int64) : Grows (getExactVersion l version) :=
  (grows_lift _).bind fun _ => (grows_reject _ _).bind fun _ => (grows_tables _).bind fun _ =>
    grows_lift _

theorem grows_getLatestVersion (l : Location) : Grows (getLatestVersion l) :=
  (grows_lift _).bind fun _ => (grows_tables _).bind fun _ => grows_lift _

theorem grows_resolve (s : Store) (statement : Statement) (row : SegmentRow) :
    Grows (resolve s statement row) :=
  (grows_lift _).bind fun _ => grows_get.bind fun _ => grows_reading (Lookup.grows_resolve _ _ _)

theorem grows_resolveAll (s : Store) (statement : Statement) (rows : List SegmentRow) :
    Grows (resolveAll s statement rows) :=
  grows_get.bind fun _ => grows_reading <|
    (Lookup.grows_lift _).bind fun _ => Lookup.grows_resolveBatch _ _ _

theorem grows_getSegment (x : StreamId) (p : Position) : Grows (getSegment x p) := by
  refine (grows_reject _ _).bind fun _ => (grows_tables _).bind fun s => ?_
  cases s.segment? x p with
  | none => exact grows_throw _
  | some row => exact grows_resolve _ _ row

theorem grows_getLastSegment (l : Location) : Grows (getLastSegment l) := by
  refine (grows_lift _).bind fun _ => (grows_tables _).bind fun s => (grows_lift _).bind fun o => ?_
  dsimp only
  cases (s.segmentsOf o.stream.stream).getLast? with
  | none => exact grows_throw _
  | some row => exact grows_resolve _ _ row

theorem grows_listSegments (x : StreamId) (cursor : Option Position) (limit : Nat) :
    Grows (listSegments x cursor limit) :=
  (grows_reject _ _).bind fun _ => (grows_tables _).bind fun _ => (grows_lift _).bind fun _ =>
    (grows_resolveAll _ _ _).bind fun _ => grows_pure _

theorem grows_listObjects (r : ListObjects) : Grows (listObjects r) :=
  (grows_lift _).bind fun _ => grows_get.bind fun _ => grows_lift _

theorem grows_listPending (r : ListPending) : Grows (listPending r) :=
  (grows_lift _).bind fun _ => grows_get.bind fun _ => grows_lift _

theorem grows_scanObjects (now : Instant) (batchSize : Nat) (asOf : Option Instant) :
    Grows (scanObjects now batchSize asOf) :=
  grows_get.bind fun _ => grows_lift _

/-- A batch of segments goes through the cache, also when it cannot be resolved. -/
theorem cache_fetchSegments (scan : SegmentScan) (c : Catalog) :
    c.cache.Grows (StateT.run (fetchSegments scan) c).2.cache := by
  unfold fetchSegments
  rw [StateT.run_bind, StateT.run_get, pure_bind]
  dsimp only
  cases scan.snapshot.or c.store with
  | none => exact .refl c.cache
  | some s =>
    dsimp only
    cases SegmentScan.fetch { scan with snapshot := some s } s with
    | error e => exact .refl c.cache
    | ok out => exact Lookup.grows_resolveBatch s c.settings.serverSideCopy out.1 c.cache

theorem cache_nextSegments (scan : SegmentScan) (c : Catalog) :
    c.cache.Grows (StateT.run (nextSegments scan) c).2.cache := by
  rw [run_nextSegments]
  split
  · exact .refl c.cache
  · exact cache_fetchSegments scan c

theorem grows_nextSegments (scan : SegmentScan) :
    Grows (liftM (nextSegments scan) : Action (Except Error (List LoopSegment) × SegmentScan)) :=
  fun c => cache_nextSegments scan c

theorem grows_drainSegments (limit : Nat) (scan : SegmentScan) :
    Grows (drainSegments limit scan) := by
  induction limit generalizing scan with
  | zero => exact grows_pure _
  | succ limit ih =>
    refine (grows_nextSegments scan).bind fun out => (grows_lift out.1).bind fun batch => ?_
    cases batch with
    | nil => exact grows_pure _
    | cons entry rest => exact (ih out.2).bind fun _ => grows_pure _

theorem grows_scanSegments (now : Instant) (batchSize : Nat) (asOf : Option Instant) :
    Grows (scanSegments now batchSize asOf) :=
  grows_get.bind fun _ => grows_drainSegments _ _

theorem grows_feedBatches {σ : Type} (limit : Nat) (scan : SegmentScan) (summary : LoopSummary)
    (watches : List (Watch σ)) : Grows (feedBatches limit scan summary watches) := by
  induction limit generalizing scan summary watches with
  | zero => exact grows_pure _
  | succ limit ih =>
    refine (grows_nextSegments scan).bind fun out => (grows_lift out.1).bind fun batch => ?_
    cases batch with
    | nil => exact grows_pure _
    | cons entry rest => exact ih out.2 _ _

theorem grows_runLoop {σ : Type} (now : Instant) (batchSize : Nat) (asOf : Option Instant)
    (observers : List (Observer σ × σ)) (registry : Registry) :
    Grows (runLoop now batchSize asOf observers registry) :=
  grows_get.bind fun _ => (grows_feedBatches _ _ _ _).bind fun _ => grows_pure _

end Catalog

/-- **A call does nothing to the cache of its handle but remember rows,** whether it succeeds or
fails. -/
theorem Call.grows (now : Instant) (c : Catalog) (call : Call) :
    c.cache.Grows (call.leave now c).cache := by
  cases call with
  | createTables => exact Catalog.grows_createTables c
  | beginNextVersion r => exact Catalog.grows_beginNextVersion now r c
  | beginExactVersion r => exact Catalog.grows_beginExactVersion now r c
  | beginSegment r => exact Catalog.grows_beginSegment r c
  | commitSegment r => exact Catalog.grows_commitSegment now r c
  | commitInlineSegment r => exact Catalog.grows_commitInlineSegment now r c
  | commitObject r => exact Catalog.grows_commitObject r c
  | commitObjectWithSegments r => exact Catalog.grows_commitObjectWithSegments r c
  | updateMetadata r => exact Catalog.grows_updateMetadata r c
  | beginCopy r => exact Catalog.grows_beginCopy r c
  | finishCopy r => exact Catalog.grows_finishCopy now r c
  | delete call => exact Catalog.grows_delete call c
  | getExactVersion l version => exact Catalog.grows_getExactVersion l version c
  | getLatestVersion l => exact Catalog.grows_getLatestVersion l c
  | getSegment x p => exact Catalog.grows_getSegment x p c
  | getLastSegment l => exact Catalog.grows_getLastSegment l c
  | listSegments x cursor limit => exact Catalog.grows_listSegments x cursor limit c
  | listObjects r => exact Catalog.grows_listObjects r c
  | listPending r => exact Catalog.grows_listPending r c
  | scanObjects batchSize asOf => exact Catalog.grows_scanObjects now batchSize asOf c
  | scanSegments batchSize asOf => exact Catalog.grows_scanSegments now batchSize asOf c
  | runLoop batchSize asOf observers registry =>
    exact Catalog.grows_runLoop now batchSize asOf observers registry c
  | ensureNodes nodes => exact Catalog.grows_ensureNodes nodes c
  | aliasesOf pieces => exact Catalog.grows_aliasesOf pieces c
  | piecesOf aliases => exact Catalog.grows_piecesOf aliases c

/-! ## Runs -/

namespace Site

variable {allow : Store → StreamId → Prop} {σ : Site}

/-- A site all of whose handles have paired caches. -/
def Paired (σ : Site) : Prop := ∀ h ∈ σ.handles, h.cache.Paired

/-- A handle whose cache has grown keeps it paired, and the others are not touched. -/
theorem Paired.put (hσ : σ.Paired) {i : Nat} {h : Handle} (hh : h ∈ σ.handles) {c : Catalog}
    (hgrows : h.cache.Grows c.cache) (scans : List SegmentScan) : (σ.put i h c scans).Paired := by
  intro h' hh'
  rcases List.mem_or_eq_of_mem_set hh' with hh' | rfl
  · exact hσ h' hh'
  · exact (hσ h hh).grows hgrows

theorem Paired.step (hσ : σ.Paired) (e : Event) : (σ.step e).Paired := by
  have hsteps := steps_step σ e
  generalize σ.step e = σ' at hsteps ⊢
  cases hsteps with
  | idle => exact hσ
  | opening =>
    intro h hh
    rcases List.mem_append.1 hh with hh | hh
    · exact hσ h hh
    · rw [List.mem_singleton.1 hh]
      exact AliasCache.paired_empty
  | @call i h now call hget =>
    exact hσ.put (List.mem_of_getElem? hget) (Call.grows now (σ.catalog h) call) _
  | @startScan i h now batchSize asOf hget =>
    exact hσ.put (List.mem_of_getElem? hget) (.refl _) _
  | @nextBatch i j h scan hget hscan =>
    exact hσ.put (List.mem_of_getElem? hget) (Catalog.cache_nextSegments scan (σ.catalog h)) _

/-- **All caches of a reachable site are paired.** -/
theorem Reachable.paired (hσ : σ.Reachable allow) : σ.Paired := by
  induction hσ with
  | fresh => exact fun h hh => absurd hh List.not_mem_nil
  | @step _ e _ _ ih => exact ih.step e

end Site

end ObjectCatalog
