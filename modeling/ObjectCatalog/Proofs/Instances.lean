import ObjectCatalog.Proofs.Legible
import ObjectCatalog.Proofs.Lifecycle

/-!
# Streams and object rows

A stream id is meant to name one object instance, and segments are stored, copied and removed under
it alone. The caller chooses it, and no call looks whether an object row has it already. So a run
keeps the streams of its rows apart just when none of its calls is given an id in use.

* `Site.StreamsDistinct`, `Site.Reuses`: rows of distinct streams, and a row added under a stream that
  another row has.
* `Call.failure?_start`: the outcome of a start does not depend on the stream id it is given.
* `Call.Effect.row?_kept`: a call that reuses no stream leaves the segments of all objects but the one
  it writes to, but for pieces that a deletion hands over.
* `Site.streams_apart`: **a run keeps streams apart just when it reuses none,** and then no call
  touches the segments of another object.
-/

namespace ObjectCatalog

namespace Store

/-- Tables in which a row has been added under a stream that another row had. -/
def Reuses (s s' : Store) : Prop :=
  ∃ o ∈ s.objects.rows, ∃ o' ∈ s'.objects.rows, s.objects.find? o'.id = none ∧ o'.stream = o.stream

end Store

/-- The stream of the upload to which a call writes. -/
def Call.writesTo? : Call → Option StreamId
  | commitSegment r => some r.stream.stream
  | commitInlineSegment r => some r.stream.stream
  | commitObject r => some r.stream.stream
  | commitObjectWithSegments r => some r.commit.stream.stream
  | _ => none

/-- A segment row after a call and before it: the same, but that a deletion may hand pieces over. -/
def Call.Keeps (call : Call) (r' r : SegmentRow) : Prop :=
  r' = r ∨ (∃ d, call = .delete d) ∧ ∃ k, r' = r.withPiecesOf k

open Store

variable {s s' : Store} {c : Catalog} {now : Instant} {call : Call} {x : StreamId}
  {o o' : ObjectRow} {p : Int}

/-! ## Starts -/

/-- The check of a start asks nothing of a stream id but that there is one. -/
theorem BeginObject.check_withStream {r : BeginObject} {y : StreamId}
    (hx : r.stream.stream.isZero = false) (hy : y.isZero = false) :
    BeginObject.check { r with stream := { r.stream with stream := y } } = r.check := by
  unfold check ObjectStream.check
  simp only [hx, hy]

/-- Calls with the same first step fail alike if their rests do. -/
theorem Catalog.failure?_bind_congr {α β : Type} {a : Action α} {f g : α → Action β}
    (h : ∀ v c', c.run a = (.ok v, c') → c'.failure? (f v) = c'.failure? (g v)) :
    c.failure? (a >>= f) = c.failure? (a >>= g) := by
  rcases hrun : c.run a with ⟨e | v, c'⟩
  · unfold failure?
    rw [run_bind_error hrun, run_bind_error hrun]
  · rw [failure?_bind hrun, failure?_bind hrun]
    exact h v c' hrun

/-- Storing tables and reading a row back fails just when the row cannot be read. -/
theorem Catalog.failure?_commit_view {statement : Statement} :
    c.failure? (do
        commit s
        o.view statement : Action Object) =
      if o.view?.isSome then none else some (.storage statement) := by
  unfold failure? ObjectRow.view
  rw [run_commit_bind]
  cases o.view? <;> rfl

/-- Adding a row under a free key, and reading it back, fails alike for rows that differ in their
streams only. -/
theorem Catalog.failure?_add_withStream {taken : Error} {statement : Statement} (y : StreamId) :
    c.failure? (do
        if s.objects.contains o.id then throw taken
        commit (s.addObject { o with stream := y })
        ObjectRow.view statement { o with stream := y } : Action Object) =
      c.failure? (do
        if s.objects.contains o.id then throw taken
        commit (s.addObject o)
        o.view statement : Action Object) := by
  dsimp only
  split
  · rfl
  · have hread : ({ o with stream := y } : ObjectRow).view?.isSome = o.view?.isSome :=
      ObjectRow.isSome_view?_congr rfl rfl rfl rfl
    rw [failure?_commit_view, failure?_commit_view, hread]

/-- **The outcome of a start does not depend on which stream id it is given:** an id in use is as
good as any other. -/
theorem Call.failure?_start (now : Instant) (c : Catalog) {r : BeginObject} {y : StreamId}
    (hx : r.stream.stream.isZero = false) (hy : y.isZero = false) :
    let r' : BeginObject := { r with stream := { r.stream with stream := y } }
    (Call.beginNextVersion r').failure? now c = (Call.beginNextVersion r).failure? now c ∧
      (Call.beginExactVersion r').failure? now c = (Call.beginExactVersion r).failure? now c := by
  intro r'
  have hcheck : r'.check = r.check := BeginObject.check_withStream hx hy
  unfold failure? Catalog.beginNextVersion Catalog.beginExactVersion
  dsimp only
  rw [hcheck]
  constructor
  · refine Catalog.failure?_bind_congr fun metadata _ _ => ?_
    refine Catalog.failure?_bind_congr fun _ _ _ => ?_
    refine Catalog.failure?_bind_congr fun s _ _ => Catalog.failure?_bind_congr fun c₁ _ _ => ?_
    exact Catalog.failure?_add_withStream
      (o := r.row c₁.settings now metadata (s.nextVersion r.stream.location)) y
  · refine Catalog.failure?_bind_congr fun metadata _ _ => ?_
    refine Catalog.failure?_bind_congr fun _ _ _ => ?_
    refine Catalog.failure?_bind_congr fun s _ _ => Catalog.failure?_bind_congr fun c₁ _ _ => ?_
    exact Catalog.failure?_add_withStream
      (o := r.row c₁.settings now metadata r.stream.version.toInt) y

/-! ## Calls that reuse no stream -/

namespace Store

/-- In coherent tables a stream id that no object has occurs nowhere. -/
theorem Coherent.lacks (hs : s.Coherent) (hx : ∀ o ∈ s.objects.rows, o.stream ≠ x) : s.Lacks x := by
  have hcommitted : ∀ y, s.IsCommitted y → y ≠ x := by
    rintro y ⟨o, ho, rfl, -⟩
    exact hx o ho
  refine ⟨hx, fun r hr heq => ?_, fun c hc => ?_⟩
  · obtain ⟨o, ho, howner⟩ := hs.owned r hr
    exact hx o ho (howner.trans heq)
  · have hrel := hs.related hc
    exact ⟨hcommitted _ hrel.copy_committed, hcommitted _ hrel.ancestor_committed⟩

theorem Coherent.of_sameRows (hs : s.Coherent) (hsame : s.SameRows s') (hsound : s'.nodes.Sound) :
    s'.Coherent := by
  refine hs.of_keepsCommitted ⟨⟨hsound, hsame.nodes⟩, hsame.copies, ?_, fun x hx => ?_, ?_,
    fun x _ p => ?_, fun r hr => .inl ?_⟩
  · rw [hsame.objects]
    exact hs.distinct
  · unfold IsCommitted
    rw [hsame.objects]
    exact hx
  · rw [hsame.objects, hsame.segments]
    exact hs.owned
  · unfold row?
    rw [hsame.segments]
  · rw [← hsame.segments]
    exact hr

/-- A row that is added without reuse has a stream that no other row has. -/
theorem ne_of_not_reuses (hnot : ¬ s.Reuses s') (ho' : o' ∈ s'.objects.rows)
    (hfree : s.objects.find? o'.id = none) : ∀ o ∈ s.objects.rows, o.stream ≠ o'.stream :=
  fun o ho heq => hnot ⟨o, ho, o', ho', hfree, heq.symm⟩

end Store

namespace Call

/-- The stream id that a call gives to a new object is fresh, or the call adds no row. -/
theorem Effect.lacks_newStream (h : call.Effect now s s') (hs : s.Coherent)
    (hnot : ¬ s.Reuses s') (hx : call.newStream? = some x) : s.SameRows s' ∨ s.Lacks x := by
  cases h with
  | rows hsame => exact .inl hsame
  | @started _ _ r settings metadata hcall _ hfree =>
    have hstream : x = r.stream.stream := by
      cases call <;> cases hcall <;> exact (Option.some.inj hx).symm
    rw [hstream]
    exact .inr (hs.lacks (ne_of_not_reuses hnot (Table.mem_insert.2 (.inl rfl)) hfree))
  | stored hcall => cases call <;> cases hcall <;> cases hx
  | completed hcall => cases call <;> cases hcall <;> cases hx
  | described => cases hx
  | copied hcopy =>
    obtain ⟨_, _, _, _, hcopied⟩ := Store.copied_of_ok hcopy
    have hfree := nextVersion_free (ObjectRow.version_of_view hcopied.object_view)
    cases hx
    exact .inr (hs.lacks (ne_of_not_reuses hnot (hcopied.mem_objects.2 (.inl rfl)) hfree))
  | deleted => cases hx

end Call

/-! ## Segments of other objects -/

namespace Store

/-- Dropping segments of a stream leaves those of the others. -/
theorem row?_dropOtherSegments_of_ne {y : StreamId} (hne : x ≠ y) (kept : List Position) :
    (s.dropOtherSegments y kept).row? x p = s.row? x p := by
  unfold dropOtherSegments row?
  rw [Table.find?_filter]
  cases hr : s.segments.find? ⟨x, p⟩ with
  | none => rfl
  | some r =>
    obtain ⟨-, rfl, -⟩ := row?_eq_some_iff.1 hr
    exact Option.filter_some_pos (by simp [hne])

/-- Completing an upload leaves the segments of other streams. -/
theorem row?_complete_of_ne {settings : Settings} {r : CommitObject} {metadata : Option Metadata}
    {object : Object} {y : StreamId} (hne : x ≠ y)
    (h : s.complete settings r metadata o (s.segmentsOf y) = .ok (object, s')) :
    s'.row? x p = s.row? x p := by
  have hids : ((withOffsets 0 (s.segmentsOf y)).map (·.id)).Nodup := by
    rw [map_withOffsets fun _ _ => rfl]
    exact nodup_ids_segmentsOf s y
  rw [Catalog.complete_eq_ok h]
  refine row?_putSegments_of_ne hids (fun r hr => ?_) p
  obtain ⟨r₀, hr₀, k, rfl⟩ := mem_withOffsets hr
  exact (mem_segmentsOf.1 hr₀).2.trans_ne hne.symm

end Store

/-- Deletions leave the objects that stay with their segments, which may be handed pieces. -/
theorem Deletions.row?_kept (h : Deletions s s') (hs : s.Coherent) :
    s'.Coherent ∧ ∀ o ∈ s'.objects.rows, o ∈ s.objects.rows ∧ ∀ p,
      Option.Rel (fun r' r => r' = r ∨ ∃ k, r' = SegmentRow.withPiecesOf r k)
        (s'.row? o.stream p) (s.row? o.stream p) := by
  induction h with
  | refl =>
    refine ⟨hs, fun o ho => ⟨ho, fun p => ?_⟩⟩
    cases s.row? o.stream p with
    | none => exact .none
    | some r => exact .some (.inl rfl)
  | tail _ hstep ih =>
    obtain ⟨rows, orphaned, hstep⟩ := hstep
    obtain ⟨hs₁, hkept⟩ := ih
    refine ⟨hstep.coherent hs₁, fun o ho => ?_⟩
    obtain ⟨ho₁, hgone⟩ := (hstep.mem_objects hs₁).1 ho
    obtain ⟨hmem, hrows⟩ := hkept o ho₁
    refine ⟨hmem, fun p => ?_⟩
    rw [hstep.row?_eq hs₁, if_neg hgone]
    have hbefore := hrows p
    cases hr₁ : Store.row? _ o.stream p with
    | none =>
      rw [hr₁] at hbefore
      exact hbefore
    | some r₁ =>
      obtain ⟨r, hr, hr₁r⟩ := hbefore.exists_right hr₁
      obtain ⟨hmem₁, hstream, -⟩ := row?_eq_some_iff.1 hr₁
      rw [hr, Option.map_some]
      refine .some ?_
      -- pieces that were handed over earlier are replaced by those that are handed over now
      rcases hs₁.bequeathed_cases (goneStreams rows) hmem₁ with
        ⟨-, hsame⟩ | ⟨a, -, k, -, -, -, ⟨-, htake⟩ | ⟨-, hsame⟩⟩
      · rw [← hstream, hsame]
        exact hr₁r
      · rw [← hstream, htake]
        rcases hr₁r with rfl | ⟨k', rfl⟩
        · exact .inr ⟨k, rfl⟩
        · exact .inr ⟨k, rfl⟩
      · rw [← hstream, hsame]
        exact hr₁r

/-- **A call that reuses no stream leaves the segments of all objects that stay, but for the one it
writes to,** and but for pieces that a deletion hands over. -/
theorem Call.Effect.row?_kept (h : call.Effect now s s') (hs : s.Coherent) (hnot : ¬ s.Reuses s')
    (ho : o ∈ s.objects.rows) (hstays : s'.objects.find? o.id ≠ none)
    (hwrites : call.writesTo? ≠ some o.stream) (p : Int) :
    Option.Rel call.Keeps (s'.row? o.stream p) (s.row? o.stream p) := by
  have hkeeps : s'.row? o.stream p = s.row? o.stream p →
      Option.Rel call.Keeps (s'.row? o.stream p) (s.row? o.stream p) := by
    intro hsame
    rw [hsame]
    cases s.row? o.stream p with
    | none => exact .none
    | some r => exact .some (.inl rfl)
  cases h with
  | rows hsame =>
    refine hkeeps ?_
    unfold row?
    rw [hsame.segments]
  | started => exact hkeeps rfl
  | @stored _ _ s₁ stream _ row hcall _ hsame _ hstream =>
    have hne : row.id ≠ ⟨o.stream, p⟩ := by
      intro heq
      have hsame : o.stream = stream.stream := (congrArg SegmentId.stream heq).symm.trans hstream
      refine hwrites ?_
      rw [hsame]
      cases call <;> cases hcall <;> rfl
    refine hkeeps ?_
    unfold row?
    rw [Table.find?_insert, if_neg hne, hsame.segments]
  | @completed _ _ s₁ _ r _ _ _ _ hcall _ _ hkept hcomplete =>
    have hne : o.stream ≠ r.stream.stream := by
      intro heq
      refine hwrites ?_
      rw [heq]
      cases call <;> cases hcall <;> rfl
    refine hkeeps ((Store.row?_complete_of_ne hne hcomplete).trans ?_)
    rcases hkept with rfl | ⟨kept, rfl⟩
    · rfl
    · exact row?_dropOtherSegments_of_ne hne kept
  | described => exact hkeeps rfl
  | copied hcopy =>
    obtain ⟨_, _, _, _, hcopied⟩ := Store.copied_of_ok hcopy
    have hfree := nextVersion_free (ObjectRow.version_of_view hcopied.object_view)
    have hne := ne_of_not_reuses hnot (hcopied.mem_objects.2 (.inl rfl)) hfree o ho
    exact hkeeps (hcopied.row?_of_ne hne p)
  | @deleted _ _ d hdeletes =>
    obtain ⟨-, hkept⟩ := hdeletes.row?_kept hs
    obtain ⟨o', ho'⟩ := Option.ne_none_iff_exists'.1 hstays
    obtain ⟨hmem', hid⟩ := Table.find?_eq_some_iff.1 ho'
    obtain ⟨hmem, hrows⟩ := hkept o' hmem'
    cases s.objects.eq_of_key_eq hmem ho hid
    exact (hrows p).imp fun r' r _ _ hr => hr.imp_right fun hk => ⟨⟨d, rfl⟩, hk⟩

/-! ## Runs -/

/-- An event under which a row appears gives it its stream. -/
theorem Event.Turns.newStream?_eq {e : Event} (h : e.Turns none (some o)) :
    e.newStream? = some o.stream := by
  cases h with
  | @call _ _ called _ _ hturns =>
    cases hturns with
    | started hcall _ hstream =>
      rw [hstream]
      cases called <;> cases hcall <;> rfl
    | copied _ hstream =>
      rw [hstream]
      rfl

/-- An event that gives a stream to a new object does nothing to rows that are there. -/
theorem Event.Turns.eq_of_newStream? {e : Event} {row : Option ObjectRow}
    (h : e.Turns (some o) row) (hnew : e.newStream? = some x) : row = some o := by
  cases h with
  | same => rfl
  | @call _ _ called _ _ hturns =>
    cases hturns with
    | same => rfl
    | completed hcall => cases called <;> cases hcall <;> cases hnew
    | described => cases hnew
    | removed => cases hnew

namespace Site

variable {σ : Site} {e : Event} {events : List Event}

/-- A site at which no two object rows share a stream. -/
def StreamsDistinct (σ : Site) : Prop :=
  ∀ o ∈ σ.objects, ∀ o' ∈ σ.objects, o.stream = o'.stream → o = o'

instance (σ : Site) : Decidable σ.StreamsDistinct := by
  unfold StreamsDistinct; infer_instance

/-- An event that adds an object row under a stream that another row has. -/
def Reuses (σ : Site) (e : Event) : Prop :=
  ∃ o ∈ σ.objects, ∃ o' ∈ (σ.step e).objects, σ.object? o'.id = none ∧ o'.stream = o.stream

/-- The segment row of a stream at a stored position. -/
def segmentRow? (σ : Site) (x : StreamId) (p : Int) : Option SegmentRow := σ.store.bind (·.row? x p)

theorem Stands.objects_eq (hσ : σ.Stands s) : σ.objects = s.objects.rows := by
  unfold objects
  rw [hσ.store]
  rfl

theorem Stands.segmentRow?_eq (hσ : σ.Stands s) (x : StreamId) (p : Int) :
    σ.segmentRow? x p = s.row? x p := by
  unfold segmentRow?
  rw [hσ.store, Option.bind_some]

theorem Stands.reuses_iff (hσ : σ.Stands s) (hσ' : (σ.step e).Stands s') :
    σ.Reuses e ↔ s.Reuses s' := by
  unfold Reuses Store.Reuses
  simp only [hσ.objects_eq, hσ'.objects_eq, hσ.object?_eq]

/-- After an event that reuses a stream two rows share it. -/
theorem Stands.not_distinct_of_reuses (hσ : σ.Stands s) (hreuses : σ.Reuses e) :
    ¬ (σ.step e).StreamsDistinct := by
  obtain ⟨o, ho, o', ho', hfree, hstream⟩ := hreuses
  obtain ⟨s', hσ', -⟩ := hσ.affects e
  have hrow : σ.object? o.id = some o := by
    rw [hσ.object?_eq, ← Table.mem_rows_iff, ← hσ.objects_eq]
    exact ho
  have hrow' : (σ.step e).object? o'.id = some o' := by
    rw [hσ'.object?_eq, ← Table.mem_rows_iff, ← hσ'.objects_eq]
    exact ho'
  -- the event adds a row, so it leaves the row that had the stream
  have hturns := hσ.turns e o'.id
  rw [hfree, hrow'] at hturns
  have hturns' := hσ.turns e o.id
  rw [hrow] at hturns'
  have hstays := hturns'.eq_of_newStream? hturns.newStream?_eq
  intro hdistinct
  have hmem : o ∈ (σ.step e).objects := by
    rw [hσ'.objects_eq, Table.mem_rows_iff, ← hσ'.object?_eq]
    exact hstays
  have hsame : o' = o := hdistinct o' ho' o hmem hstream
  rw [hsame, hrow] at hfree
  cases hfree

/-- **An event that reuses no stream keeps the tables coherent.** -/
theorem Stands.coherent_step (hσ : σ.Stands s) (hs : s.Coherent) (hnot : ¬ σ.Reuses e) :
    ∃ s', (σ.step e).Stands s' ∧ s'.Coherent := by
  obtain ⟨s', hσ', haffects⟩ := hσ.affects e
  rw [hσ.reuses_iff hσ'] at hnot
  refine ⟨s', hσ', ?_⟩
  cases haffects with
  | idle => exact hs
  | @call i now call _ _ heffect =>
    by_cases hsame : s.SameRows s'
    · exact hs.of_sameRows hsame hσ'.aliases
    · have hfresh : σ.Admits Store.Lacks (.call i now call) := by
        intro x hx s₁ hs₁
        rw [hσ.store, Option.some.injEq] at hs₁
        subst hs₁
        exact (heffect.lacks_newStream hs hnot hx).resolve_left hsame
      obtain ⟨s₁, hσ₁, hmove⟩ := hσ.step hfresh
      have hstore : some s₁ = some s' := hσ₁.store.symm.trans hσ'.store
      cases hstore
      exact hmove.coherent hs

/-- **Events that reuse no stream keep the tables coherent.** -/
theorem coherent_run (hnot : ∀ before e, before ++ [e] <+: events → ¬ (fresh.run before).Reuses e)
    {before : List Event} (hbefore : before <+: events) :
    ∃ s, (fresh.run before).Stands s ∧ s.Coherent := by
  induction before using List.reverseRecOn with
  | nil =>
    exact ⟨.empty, stands_fresh, coherent_empty⟩
  | append_singleton before e ih =>
    obtain ⟨s, hσ, hs⟩ := ih ((List.prefix_append before [e]).trans hbefore)
    obtain ⟨s', hσ', hs'⟩ := hσ.coherent_step hs (hnot before e hbefore)
    refine ⟨s', ?_, hs'⟩
    rw [run, List.foldl_append]
    exact hσ'

/-- An event that reuses no stream leaves the segments of the objects that stay, but for the one that
it writes to. -/
theorem Stands.segmentRow?_kept (hσ : σ.Stands s) (hs : s.Coherent) {i : Nat} {now : Instant}
    {call : Call} (hnot : ¬ σ.Reuses (.call i now call)) {o : ObjectRow} (ho : o ∈ σ.objects)
    (hstays : (σ.step (.call i now call)).object? o.id ≠ none)
    (hwrites : call.writesTo? ≠ some o.stream) (p : Int) :
    Option.Rel call.Keeps ((σ.step (.call i now call)).segmentRow? o.stream p)
      (σ.segmentRow? o.stream p) := by
  obtain ⟨s', hσ', haffects⟩ := hσ.affects (.call i now call)
  rw [hσ.reuses_iff hσ'] at hnot
  rw [hσ'.object?_eq] at hstays
  rw [hσ.objects_eq] at ho
  rw [hσ.segmentRow?_eq, hσ'.segmentRow?_eq]
  cases haffects with
  | idle =>
    have heffect : call.Effect now s s := .rows (.refl s)
    exact heffect.row?_kept hs hnot ho hstays hwrites p
  | call heffect => exact heffect.row?_kept hs hnot ho hstays hwrites p

/-- **A run from fresh tables keeps the streams of its object rows apart just when none of its events
adds a row under a stream in use.** As long as it does, no call touches the segments of an object
that stays, but for the upload that it writes to and for pieces that a deletion hands over. Nothing
else guards the streams: a start fails or succeeds with any stream id as with any other. -/
theorem streams_apart (events : List Event) :
    ((∀ before, before <+: events → (fresh.run before).StreamsDistinct) ↔
      ∀ before e, before ++ [e] <+: events → ¬ (fresh.run before).Reuses e) ∧
    ((∀ before, before <+: events → (fresh.run before).StreamsDistinct) →
      ∀ (before : List Event) (i : Nat) (now : Instant) (call : Call),
        before ++ [.call i now call] <+: events → ∀ o ∈ (fresh.run before).objects,
          ((fresh.run before).step (.call i now call)).object? o.id ≠ none →
          call.writesTo? ≠ some o.stream → ∀ p,
            Option.Rel call.Keeps
              (((fresh.run before).step (.call i now call)).segmentRow? o.stream p)
              ((fresh.run before).segmentRow? o.stream p)) ∧
    ∀ (h : Handle) (now : Instant) (r : BeginObject) (y : StreamId),
      r.stream.stream.isZero = false → y.isZero = false →
        let c := (fresh.run events).catalog h
        let r' : BeginObject := { r with stream := { r.stream with stream := y } }
        (Call.beginNextVersion r').failure? now c = (Call.beginNextVersion r).failure? now c ∧
          (Call.beginExactVersion r').failure? now c = (Call.beginExactVersion r).failure? now c := by
  have hiff : (∀ before, before <+: events → (fresh.run before).StreamsDistinct) ↔
      ∀ before e, before ++ [e] <+: events → ¬ (fresh.run before).Reuses e := by
    constructor
    · intro hdistinct before e hprefix hreuses
      obtain ⟨s, hσ⟩ := stands_fresh.run before
      refine hσ.not_distinct_of_reuses hreuses ?_
      have hafter := hdistinct _ hprefix
      rw [run, List.foldl_append] at hafter
      exact hafter
    · intro hnot before hprefix
      obtain ⟨s, hσ, hs⟩ := coherent_run hnot hprefix
      unfold StreamsDistinct
      rw [hσ.objects_eq]
      exact hs.distinct
  refine ⟨hiff, fun hdistinct before i now call hprefix o ho hstays hwrites p => ?_,
    fun h now r y hx hy => Call.failure?_start now _ hx hy⟩
  have hnot := hiff.1 hdistinct
  obtain ⟨s, hσ, hs⟩ := coherent_run hnot ((List.prefix_append before _).trans hprefix)
  exact hσ.segmentRow?_kept hs (hnot before _ hprefix) ho hstays hwrites p

end Site

/-! ### Two objects of one stream -/

namespace Sample

/-- A committed object with one segment. -/
def single : Site :=
  Site.fresh.run (.opening {} :: [begin (identity 1 1), segment (identity 1 1) { algorithm := 1 },
    commit (identity 1 1)].map (.call 0 moment))

/-- The start of an upload of another key under the stream of that object. -/
def sharing : Event := .call 0 moment (begin (identity 2 1))

/-- The deletion of that upload. -/
def unsharing : Event := .call 0 moment (.delete (.pending (identity 2 1)))

end Sample

/-- An upload starts under the stream of a committed object, and when it is deleted the segment of
that object goes with it. -/
theorem Sample.stream_shared :
    (∃ h ∈ single.handles, (begin (identity 2 1)).failure? moment (single.catalog h) = none) ∧
      ¬ (single.step sharing).StreamsDistinct ∧
      ((single.step sharing).segmentRow? (identity 1 1).stream 0).isSome = true ∧
      ((single.step sharing).step unsharing).segmentRow? (identity 1 1).stream 0 = none ∧
      (((single.step sharing).step unsharing).object? ⟨(identity 1 1).location, 1⟩).any
        (·.hasStatus .committed) = true := by
  decide +kernel

/-- In the run with an object and its copy the copy leaves the segments of the object. -/
theorem Sample.streams_apart_upload :
    let events := upload { algorithm := 1 }
    let before := events.dropLast
    let call : Call := .finishCopy (copyOf (identity 1 1) (identity 2 2))
    ∀ o ∈ (Site.fresh.run before).objects, ∀ p, Option.Rel call.Keeps
      (((Site.fresh.run before).step (.call 0 moment call)).segmentRow? o.stream p)
      ((Site.fresh.run before).segmentRow? o.stream p) := by
  intro events before call o ho p
  have hdistinct : ∀ before ∈ events.inits, (Site.fresh.run before).StreamsDistinct := by
    decide +kernel
  have hstays : ∀ o ∈ (Site.fresh.run before).objects,
      ((Site.fresh.run before).step (.call 0 moment call)).object? o.id ≠ none := by
    decide +kernel
  exact (Site.streams_apart events).2.1
    (fun before hbefore => hdistinct before ((List.mem_inits _ _).2 hbefore)) before 0 moment call
    (List.prefix_refl _) o ho (hstays o ho) (by nofun) p

end ObjectCatalog
