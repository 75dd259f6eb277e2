import ObjectCatalog.Proofs.Instances
import ObjectCatalog.Store.Edit

/-!
# Calls that store a segment

A call that stores a segment looks at the object rows and at the aliases of nodes, and never at the
segments. So whatever is at its position, it ends in the same way and puts the same row there.

* `Catalog.Acts`: what an action does, whatever segments there are.
* `Call.Stores`, `Call.Stores.again`: the rows that a call stores. A call that is repeated stores the
  same row, but for its time.
* `Call.Ends`, `Call.ends`: **how a call that stores a segment ends, whatever segments there are.**
* `Site.writes`, `Site.vacate`: the calls that succeed, and sites without the segment at a place.
* `Site.Stands.storing_cases`: **such a call writes nothing, or puts a row in its place that it would
  also put into an empty place.**
-/

namespace ObjectCatalog

open Store

variable {s s' : Store} {c : Catalog} {now now' : Instant} {call : Call} {row row' : SegmentRow}
  {k : SegmentId}

/-! ## Actions that do not look at segments -/

/-- What a table and a cache make of a request for aliases: the outcome, and the table and the cache
afterwards. -/
def NodeTable.ensure (t : NodeTable) (cache : AliasCache) (nodes : List NodeId) :
    Except Error Unit × NodeTable × AliasCache :=
  match cache.missing nodes with
  | .error e => (.error e, t, cache)
  | .ok found =>
    if found.isEmpty then (.ok (), t, cache)
    else match t.addAll found with
      | none => (.error (.storage .ensureNodes), t, cache)
      | some table => (.ok (), table, cache.remember (table.rowsOf found))

namespace Catalog

variable {α : Type}

/-- A catalogue on given tables. -/
def on (c : Catalog) (s : Store) : Catalog := { c with store := some s }

theorem run_ensureNodes (c : Catalog) (s : Store) (nodes : List NodeId) :
    let (outcome, table, cache) := s.nodes.ensure c.cache nodes
    (c.on s).run (ensureNodes nodes) = (outcome, { c.on { s with nodes := table } with cache }) := by
  unfold ensureNodes NodeTable.ensure
  rw [run_get_bind, run_lift_bind]
  dsimp only [on]
  cases c.cache.missing nodes with
  | error e => rfl
  | ok found =>
    dsimp only
    cases found.isEmpty with
    | true => rfl
    | false =>
      simp only [Bool.false_eq_true, if_false]
      rw [run_tables_bind rfl]
      cases s.nodes.addAll found with
      | none => rfl
      | some table => rfl

/-- An action that, whatever segments there are, ends in one way, with one alias table and one cache,
and makes one change to the segments. -/
def Acts (c : Catalog) (s : Store) (a : Action α) (outcome : Except Error α) (nodes : NodeTable)
    (cache : AliasCache) (change : Table SegmentRow.id → Table SegmentRow.id) : Prop :=
  ∀ segments, (c.on { s with segments }).run a =
    (outcome, { c.on { s with nodes, segments := change segments } with cache })

/-- Pieces are put into stored form whatever segments there are, and then the cache knows how. -/
theorem acts_aliasesOf (c : Catalog) (s : Store) (pieces : List Piece) :
    ∃ outcome table cache, Acts c s (aliasesOf pieces) outcome table cache id ∧
      ∀ aliases, outcome = .ok aliases → cache.aliasesOf pieces = .ok aliases := by
  have hensure := fun segments => run_ensureNodes c { s with segments } (pieces.map (·.node))
  rcases hends : s.nodes.ensure c.cache (pieces.map (·.node)) with ⟨e | u, table, cache⟩
  · simp only [hends] at hensure
    exact ⟨.error e, table, cache, fun segments => run_bind_error (hensure segments), nofun⟩
  · simp only [hends] at hensure
    refine ⟨cache.aliasesOf pieces, table, cache, fun segments => ?_, fun _ h => h⟩
    unfold aliasesOf
    rw [run_bind_ok (hensure segments)]
    rfl

theorem Open.on_self (hc : c.Open s) : c.on s = c := by
  cases c
  cases hc.store
  rfl

theorem Acts.aliases (hc : c.Open s) {pieces : List Piece} {aliases : List AliasPiece}
    {nodes : NodeTable} {cache : AliasCache}
    (h : Acts c s (aliasesOf pieces) (.ok aliases) nodes cache id) :
    List.Forall₂ (fun p a => a.number = p.number ∧ nodes.node? a.short = some p.node)
      pieces aliases := by
  obtain ⟨s', hopen, -, haliases⟩ := run_aliasesOf hc pieces
  have hrun := h s.segments
  change (c.on s).run (aliasesOf pieces) = _ at hrun
  rw [hc.on_self] at hrun
  rw [hrun] at hopen haliases
  have hnodes : s'.nodes = nodes := congrArg Store.nodes (Option.some.inj hopen.store).symm
  rw [← hnodes]
  exact haliases aliases rfl

/-- Pieces that were put into stored form are put into the same form again, by what the cache knows. -/
theorem aliasesOf_again {pieces : List Piece} {aliases : List AliasPiece}
    (h : c.cache.aliasesOf pieces = .ok aliases) : c.run (aliasesOf pieces) = (.ok aliases, c) := by
  have hknown : pieces.filter (fun p => (c.cache.aliasOf? p.node).isNone) = [] := by
    refine List.filter_eq_nil_iff.2 fun p hp hnone => ?_
    obtain ⟨a, -, ha⟩ := exists_of_forall₂_left (Except.mapM_eq_ok_iff.1 h) hp
    rw [Option.isNone_iff_eq_none.1 hnone] at ha
    cases ha
  have hmissing : c.cache.missing (pieces.map (·.node)) = .ok [] := by
    unfold AliasCache.missing
    rw [List.filter_map, Function.comp_def, hknown]
    rfl
  unfold aliasesOf ensureNodes
  rw [run_bind, run_get_bind, hmissing]
  exact congrArg (·, c) h

/-- Puts a row for a pending object among the segments. -/
def putRow (stream : ObjectStream) (row : ObjectRow → SegmentRow) : Action Unit := do
  let s ← tables .fetchObject
  let pending ← s.pending stream
  commit { s with segments := s.segments.insert (row pending) }

theorem commitSegment_eq (now : Instant) (r : CommitSegment) : commitSegment now r = (do
    r.check (← get).settings.validatePlainSize
    let aliases ← aliasesOf r.pieces
    putRow r.stream (r.row now · aliases)) := by
  unfold commitSegment putRow
  simp only [CommitSegment.store_eq]

theorem commitInlineSegment_eq (now : Instant) (r : CommitInlineSegment) :
    commitInlineSegment now r = (do
      r.check
      putRow r.stream (r.row now ·)) := by
  unfold commitInlineSegment putRow
  simp only [CommitInlineSegment.store_eq]

theorem run_putRow (c : Catalog) (s : Store) (stream : ObjectStream) (row : ObjectRow → SegmentRow) :
    (c.on s).run (putRow stream row) =
      match s.pending stream with
      | .error e => (.error e, c.on s)
      | .ok o => (.ok (), c.on { s with segments := s.segments.insert (row o) }) := by
  unfold putRow
  rw [run_tables_bind rfl, run_lift_bind]
  cases s.pending stream <;> rfl

section Acts

variable {β : Type} {a : Action α} {f : α → Action β} {table table' : NodeTable}
  {cache cache' : AliasCache} {change : Table SegmentRow.id → Table SegmentRow.id}

theorem Acts.bind {v : α} {outcome : Except Error β} (h : Acts c s a (.ok v) table cache id)
    (hf : Acts { c with cache } { s with nodes := table } (f v) outcome table' cache' change) :
    Acts c s (a >>= f) outcome table' cache' change :=
  fun segments => (run_bind_ok (h segments)).trans (hf segments)

theorem Acts.bind_error {e : Error} (h : Acts c s a (.error e) table cache id) :
    Acts c s (a >>= f) (.error e) table cache id :=
  fun segments => run_bind_error (h segments)

theorem acts_lift {x outcome : Except Error α} (hx : x = outcome) :
    Acts c s (liftM x) outcome s.nodes c.cache id :=
  fun segments => by subst hx; cases x <;> rfl

theorem acts_putRow {stream : ObjectStream} {o : ObjectRow} (hpending : s.pending stream = .ok o)
    (row : ObjectRow → SegmentRow) :
    Acts c s (putRow stream row) (.ok ()) s.nodes c.cache (·.insert (row o)) := by
  intro segments
  have hfound : Store.pending { s with segments } stream = .ok o := hpending
  rw [run_putRow, hfound]
  rfl

theorem acts_putRow_error {stream : ObjectStream} {e : Error} (hpending : s.pending stream = .error e)
    (row : ObjectRow → SegmentRow) :
    Acts c s (putRow stream row) (.error e) s.nodes c.cache id := by
  intro segments
  have hfound : Store.pending { s with segments } stream = .error e := hpending
  rw [run_putRow, hfound]
  rfl

/-- The calls that store a segment start with a check, and go on in the same way. -/
theorem acts_commitSegment {r : CommitSegment} {outcome : Except Error Unit}
    (hcheck : r.check c.settings.validatePlainSize = .ok ())
    (h : Acts c s (do
        let aliases ← aliasesOf r.pieces
        putRow r.stream (r.row now · aliases)) outcome table cache change) :
    Acts c s (commitSegment now r) outcome table cache change := by
  intro segments
  rw [commitSegment_eq, run_get_bind, run_lift_bind, ← h segments]
  dsimp only [on]
  rw [hcheck]

theorem acts_commitSegment_unchecked {r : CommitSegment} {e : Error}
    (hcheck : r.check c.settings.validatePlainSize = .error e) :
    Acts c s (commitSegment now r) (.error e) s.nodes c.cache id := by
  intro segments
  rw [commitSegment_eq, run_get_bind, run_lift_bind]
  dsimp only [on]
  rw [hcheck]
  rfl

theorem Acts.failure?_error {e : Error} (h : Acts c s a (.error e) table cache change)
    (segments : Table SegmentRow.id) : (c.on { s with segments }).failure? a = some e :=
  failure?_eq_some.2 (by rw [h])

theorem Acts.failure?_ok {v : α} (h : Acts c s a (.ok v) table cache change)
    (segments : Table SegmentRow.id) : (c.on { s with segments }).failure? a = none :=
  failure?_eq_none.2 ⟨v, by rw [h]⟩

end Acts

end Catalog

/-! ## Calls that store a segment -/

/-- Nodes have one alias each, so pieces have one stored form, also when more nodes get aliases. -/
theorem NodeTable.Sound.aliases_unique {t t' : NodeTable} (h : t'.Sound) (hext : t.Extends t')
    {pieces : List Piece} {aliases aliases' : List AliasPiece}
    (haliases : List.Forall₂ (fun p a => a.number = p.number ∧ t.node? a.short = some p.node)
      pieces aliases)
    (haliases' : List.Forall₂ (fun p a => a.number = p.number ∧ t'.node? a.short = some p.node)
      pieces aliases') : aliases' = aliases := by
  induction haliases generalizing aliases' with
  | nil =>
    cases haliases'
    rfl
  | @cons p a _ _ hpa _ ih =>
    cases haliases' with
    | @cons _ a' _ _ hpa' hrest =>
      have hrow := NodeTable.node?_eq_some_iff.1 (hext.node?_eq hpa.2)
      have hrow' := NodeTable.node?_eq_some_iff.1 hpa'.2
      have hshort : a'.short = a.short := congrArg NodeRow.short (h.distinct _ hrow' _ hrow rfl)
      have hnumber : a'.number = a.number := hpa'.1.trans hpa.1.symm
      have hsame : a' = a := by
        cases a
        cases a'
        rw [AliasPiece.mk.injEq]
        exact ⟨hnumber, hshort⟩
      rw [ih hrest, hsame]

theorem CommitSegment.id_row (r : CommitSegment) (now : Instant) (o : ObjectRow)
    (aliases : List AliasPiece) :
    (r.row now o aliases).id = ⟨r.stream.stream, r.position.column⟩ := by
  simp only [SegmentRow.id, row]

theorem CommitInlineSegment.id_row (r : CommitInlineSegment) (now : Instant) (o : ObjectRow) :
    (r.row now o).id = ⟨r.stream.stream, r.position.column⟩ := by
  simp only [SegmentRow.id, row]

theorem CommitSegment.row_later (r : CommitSegment) (now now' : Instant) (o : ObjectRow)
    (aliases : List AliasPiece) :
    r.row now' o aliases = { r.row now o aliases with createdAt := now' } := by
  simp only [row]

theorem CommitInlineSegment.row_later (r : CommitInlineSegment) (now now' : Instant)
    (o : ObjectRow) : r.row now' o = { r.row now o with createdAt := now' } := by
  simp only [row]

namespace Call

/-- The key under which a call stores a segment. -/
def target? : Call → Option SegmentId
  | commitSegment r => some ⟨r.stream.stream, r.position.column⟩
  | commitInlineSegment r => some ⟨r.stream.stream, r.position.column⟩
  | _ => none

/-- The rows that a call stores in tables in which the nodes of its pieces have aliases. -/
inductive Stores (now : Instant) (s : Store) : Call → SegmentRow → Prop
  | remote {r : CommitSegment} {validatePlainSize : Bool} {o : ObjectRow}
      {aliases : List AliasPiece} (hcheck : r.check validatePlainSize = .ok ())
      (hpending : s.objectOf? r.stream .pending = some o)
      (haliases : List.Forall₂
        (fun p a => a.number = p.number ∧ s.nodes.node? a.short = some p.node) r.pieces aliases) :
      Stores now s (.commitSegment r) (r.row now o aliases)
  | inlined {r : CommitInlineSegment} {o : ObjectRow}
      (hpending : s.objectOf? r.stream .pending = some o) :
      Stores now s (.commitInlineSegment r) (r.row now o)

/-- A row of one kind, with nothing of the other: no data beside pieces, and neither pieces nor a
scheme nor a root piece id beside data. It has not been repaired. -/
def Clears : Call → SegmentRow → Prop
  | commitSegment _, row => row.inlineData = none ∧ row.repairedAt = none
  | commitInlineSegment _, row => row.blob = none ∧ row.redundancy = 0 ∧
      row.rootPiece? = some .zero ∧ row.repairedAt = none
  | _, _ => False

theorem Stores.id (h : call.Stores now s row) : call.target? = some row.id := by
  cases h with
  | remote => simp only [target?, CommitSegment.id_row]
  | inlined => simp only [target?, CommitInlineSegment.id_row]

theorem Stores.clears (h : call.Stores now s row) : call.Clears row := by
  cases h with
  | remote => exact ⟨rfl, rfl⟩
  | inlined => exact ⟨rfl, rfl, Id.ofBytes?_bytes _, rfl⟩

/-- **A call that is repeated stores the same row,** but for its time, as long as the object rows are
the same. -/
theorem Stores.again (h : call.Stores now s row) (h' : call.Stores now' s' row')
    (hobjects : s'.objects = s.objects) (hext : s.nodes.Extends s'.nodes) (hsound : s'.nodes.Sound) :
    row' = { row with createdAt := now' } := by
  have hsame : ∀ stream, s'.objectOf? stream .pending = s.objectOf? stream .pending := by
    intro stream
    unfold objectOf?
    rw [hobjects]
  cases h with
  | remote _ hpending haliases =>
    cases h' with
    | remote _ hpending' haliases' =>
      rw [hsame, hpending, Option.some.injEq] at hpending'
      rw [hsound.aliases_unique hext haliases haliases', ← hpending']
      exact CommitSegment.row_later ..
  | inlined hpending =>
    cases h' with
    | inlined hpending' =>
      rw [hsame, hpending, Option.some.injEq] at hpending'
      rw [← hpending']
      exact CommitInlineSegment.row_later ..

/-- What a call does, whatever segments there are: how it fails, if it does, which alias table and
which cache it leaves, and how it changes the segments. -/
def Acts (call : Call) (now : Instant) (c : Catalog) (s : Store) (failure : Option Error)
    (nodes : NodeTable) (cache : AliasCache)
    (change : Table SegmentRow.id → Table SegmentRow.id) : Prop :=
  ∀ segments, call.failure? now (c.on { s with segments }) = failure ∧
    call.leave now (c.on { s with segments }) =
      { c.on { s with nodes, segments := change segments } with cache }

theorem Acts.here (hc : c.Open s) {failure : Option Error} {nodes : NodeTable} {cache : AliasCache}
    {change : Table SegmentRow.id → Table SegmentRow.id}
    (h : call.Acts now c s failure nodes cache change) :
    call.failure? now c = failure ∧ call.leave now c =
      { c.on { s with nodes, segments := change s.segments } with cache } := by
  have hends := h s.segments
  change call.failure? now (c.on s) = _ ∧ call.leave now (c.on s) = _ at hends
  rwa [hc.on_self] at hends

/-- How a call that stores a segment ends. -/
inductive Ends (call : Call) (now : Instant) (c : Catalog) (s : Store) : Prop
  /-- It fails, and leaves the segments. -/
  | refused {e : Error} {nodes : NodeTable} {cache : AliasCache}
      (hacts : call.Acts now c s (some e) nodes cache id)
  /-- It puts a row among the segments, and it would do so again. -/
  | stored {row : SegmentRow} {nodes : NodeTable} {cache : AliasCache}
      (hrow : call.Stores now { s with nodes } row)
      (hacts : call.Acts now c s none nodes cache (·.insert row))
      (hagain : ∀ now', call.Acts now' { c with cache } { s with nodes } none nodes cache
        (·.insert { row with createdAt := now' }))

theorem ends_commitSegment (hc : c.Open s) (now : Instant) (r : CommitSegment) :
    (Call.commitSegment r).Ends now c s := by
  have hrefused : ∀ {e nodes cache},
      Catalog.Acts c s (Catalog.commitSegment now r) (.error e) nodes cache id →
        (Call.commitSegment r).Ends now c s := fun h =>
    .refused fun segments => ⟨h.failure?_error segments, congrArg Prod.snd (h segments)⟩
  cases hcheck : r.check c.settings.validatePlainSize with
  | error e => exact hrefused (Catalog.acts_commitSegment_unchecked hcheck)
  | ok u =>
    obtain ⟨outcome, nodes, cache, haliases, hknows⟩ := Catalog.acts_aliasesOf c s r.pieces
    cases outcome with
    | error e => exact hrefused (Catalog.acts_commitSegment hcheck haliases.bind_error)
    | ok aliases =>
      have hsame : Store.pending { s with nodes } r.stream = s.pending r.stream := rfl
      cases hpending : s.pending r.stream with
      | error e =>
        rw [hpending] at hsame
        exact hrefused (Catalog.acts_commitSegment hcheck
          (haliases.bind (Catalog.acts_putRow_error hsame _)))
      | ok o =>
        rw [hpending] at hsame
        have hputs := Catalog.acts_commitSegment hcheck
          (haliases.bind (Catalog.acts_putRow hsame (r.row now · aliases)))
        refine .stored (.remote hcheck (Catalog.objectOf?_of_pending hsame) (haliases.aliases hc))
          (fun segments => ⟨hputs.failure?_ok segments, congrArg Prod.snd (hputs segments)⟩)
          fun now' => ?_
        -- the second time the nodes are known
        have hagain : Catalog.Acts { c with cache } { s with nodes } (Catalog.aliasesOf r.pieces)
            (.ok aliases) nodes cache id := fun _ => Catalog.aliasesOf_again (hknows aliases rfl)
        have hputs' := Catalog.acts_commitSegment (c := { c with cache }) hcheck
          (hagain.bind (Catalog.acts_putRow hsame (r.row now' · aliases)))
        rw [← r.row_later]
        exact fun segments => ⟨hputs'.failure?_ok segments, congrArg Prod.snd (hputs' segments)⟩

theorem ends_commitInlineSegment (c : Catalog) (s : Store) (now : Instant)
    (r : CommitInlineSegment) : (Call.commitInlineSegment r).Ends now c s := by
  have hacts : ∀ {now outcome change},
      Catalog.Acts c s (do r.check; Catalog.putRow r.stream (r.row now ·)) outcome s.nodes c.cache
        change → Catalog.Acts c s (Catalog.commitInlineSegment now r) outcome s.nodes c.cache change := by
    intro now outcome change h
    rw [Catalog.commitInlineSegment_eq]
    exact h
  have hrefused : ∀ {e},
      Catalog.Acts c s (Catalog.commitInlineSegment now r) (.error e) s.nodes c.cache id →
        (Call.commitInlineSegment r).Ends now c s := fun h =>
    .refused fun segments => ⟨h.failure?_error segments, congrArg Prod.snd (h segments)⟩
  cases hcheck : r.check with
  | error e => exact hrefused (hacts (Catalog.acts_lift hcheck).bind_error)
  | ok u =>
    have hchecked := Catalog.acts_lift (c := c) (s := s) hcheck
    cases hpending : s.pending r.stream with
    | error e => exact hrefused (hacts (hchecked.bind (Catalog.acts_putRow_error hpending _)))
    | ok o =>
      have hputs : ∀ now, Catalog.Acts c s (Catalog.commitInlineSegment now r) (.ok ()) s.nodes
          c.cache (·.insert (r.row now o)) := fun now =>
        hacts (hchecked.bind (Catalog.acts_putRow hpending _))
      refine .stored (.inlined (Catalog.objectOf?_of_pending hpending))
        (fun segments => ⟨(hputs now).failure?_ok segments, congrArg Prod.snd (hputs now segments)⟩)
        fun now' => ?_
      rw [← r.row_later]
      exact fun segments =>
        ⟨(hputs now').failure?_ok segments, congrArg Prod.snd (hputs now' segments)⟩

/-- **How a call that stores a segment ends, whatever segments there are.** -/
theorem ends (hc : c.Open s) (now : Instant) (hcall : call.target? = some k) :
    call.Ends now c s := by
  cases call with
  | commitSegment r => exact ends_commitSegment hc now r
  | commitInlineSegment r => exact ends_commitInlineSegment c s now r
  | _ => cases hcall

end Call

/-! ## Sites -/

/-- A row that is put in its place is found there. -/
theorem Store.row?_put {x : StreamId} {p : Int} (hid : row.id = ⟨x, p⟩) (nodes : NodeTable) :
    Store.row? { s with nodes, segments := s.segments.insert row } x p = some row :=
  (Table.find?_insert ..).trans (if_pos hid)

namespace Site

variable {σ : Site} {i : Nat} {h : Handle}

/-- Whether an event is a call that succeeds in storing a segment under a key. -/
def writes (σ : Site) (k : SegmentId) : Event → Bool
  | .call i now call =>
    match σ.handles[i]? with
    | none => false
    | some h => decide (call.target? = some k) && (call.failure? now (σ.catalog h)).isNone
  | _ => false

/-- The site without the segment under a key. -/
def vacate (σ : Site) (k : SegmentId) : Site :=
  { σ with store := σ.store.map fun s => (s.dropSegment k).2 }

theorem writes_call (hget : σ.handles[i]? = some h) (k : SegmentId) (now : Instant) (call : Call) :
    σ.writes k (.call i now call) =
      (decide (call.target? = some k) && (call.failure? now (σ.catalog h)).isNone) := by
  unfold writes
  dsimp only
  rw [hget]

theorem writes_eq_true_iff (hget : σ.handles[i]? = some h) : σ.writes k (.call i now call) = true ↔
    call.target? = some k ∧ call.failure? now (σ.catalog h) = none := by
  rw [writes_call hget, Bool.and_eq_true, decide_eq_true_eq, Option.isNone_iff_eq_none]

/-- The handle and the key of a call that writes. -/
theorem of_writes (hwrites : σ.writes k (.call i now call) = true) :
    ∃ h, σ.handles[i]? = some h ∧ call.target? = some k ∧
      call.failure? now (σ.catalog h) = none := by
  cases hget : σ.handles[i]? with
  | none =>
    unfold writes at hwrites
    dsimp only at hwrites
    rw [hget] at hwrites
    cases hwrites
  | some h => exact ⟨h, rfl, (writes_eq_true_iff hget).1 hwrites⟩

/-- **A call that is to store a segment** writes nothing, or it puts one row in its place, which it
would also put into an empty place. -/
theorem Stands.storing_cases (hσ : σ.Stands s) (now : Instant) (i : Nat)
    (htarget : call.target? = some k) :
    let σ' := σ.step (.call i now call)
    (∃ nodes, σ'.store = some { s with nodes } ∧ ∀ k', σ.writes k' (.call i now call) = false) ∨
      ∃ row nodes, call.Stores now { s with nodes } row ∧ row.id = k ∧
        σ'.store = some { s with nodes, segments := s.segments.insert row } ∧
        (∀ k', σ.writes k' (.call i now call) = decide (k' = k)) ∧
        ∀ k', ((σ.vacate k').step (.call i now call)).segmentRow? k.stream k.position = some row := by
  intro σ'
  cases hget : σ.handles[i]? with
  | none =>
    have hidle : σ' = σ := by
      change σ.step (.call i now call) = σ
      unfold Site.step
      dsimp only
      rw [hget]
    refine .inl ⟨s.nodes, hidle ▸ hσ.store, fun k' => ?_⟩
    unfold writes
    dsimp only
    rw [hget]
  | some h =>
    have hopen := hσ.open (List.mem_of_getElem? hget)
    have hstep : σ' = σ.put i h (call.leave now (σ.catalog h)) h.scans := step_call hget now call
    cases Call.ends hopen now htarget with
    | @refused e nodes cache hacts =>
      obtain ⟨hfailure, hleave⟩ := hacts.here hopen
      refine .inl ⟨nodes, ?_, fun k' => ?_⟩
      · rw [hstep, hleave]
        rfl
      · rw [writes_call hget, hfailure]
        exact Bool.and_false _
    | @stored row nodes cache hrow hacts hagain =>
      obtain ⟨hfailure, hleave⟩ := hacts.here hopen
      have hid := Option.some.inj (hrow.id.symm.trans htarget)
      refine .inr ⟨row, nodes, hrow, hid, ?_, fun k' => ?_, fun k' => ?_⟩
      · rw [hstep, hleave]
        rfl
      · rw [writes_call hget, hfailure, htarget]
        simp only [Option.some.injEq, Option.isNone_none, Bool.and_true, eq_comm]
      · -- the same handle, on tables without the row under `k'`
        have hvacated : (σ.vacate k').handles[i]? = some h := hget
        have hcatalog : (σ.vacate k').catalog h =
            (σ.catalog h).on { s with segments := (s.segments.erase k').2 } := by
          unfold vacate catalog
          rw [hσ.store]
          rfl
        rw [step_call hvacated, hcatalog, (hacts _).2]
        exact row?_put (s := { s with segments := (s.segments.erase k').2 }) hid nodes

/-- **What a call that succeeds has stored.** -/
theorem Stands.exists_stores (hσ : σ.Stands s) (hwrites : σ.writes k (.call i now call) = true) :
    ∃ row nodes, call.Stores now { s with nodes } row ∧ row.id = k ∧
      (σ.step (.call i now call)).store =
        some { s with nodes, segments := s.segments.insert row } := by
  obtain ⟨h, hget, htarget, -⟩ := of_writes hwrites
  rcases hσ.storing_cases now i htarget with
    ⟨-, -, hnone⟩ | ⟨row, nodes, hrow, hid, hstore, -, -⟩
  · rw [hnone] at hwrites
    cases hwrites
  · exact ⟨row, nodes, hrow, hid, hstore⟩

end Site

end ObjectCatalog
