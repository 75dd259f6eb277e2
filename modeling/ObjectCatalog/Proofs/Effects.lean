import ObjectCatalog.Proofs.Failures

/-!
# What each call does

A change says what can happen to the tables, and not which call makes it happen. Here the two are
tied: each call has the effects that its request allows, and no others. What is proved for each
effect holds for every call with arbitrary arguments.

* `Call.Effect`: what a call can do to the tables.
* `Call.effect`: **every call has one of these effects,** also when it fails.
* `Site.Stands.affects`: what any event does at a site.
* `Site.Reachable.of_effects`: what every effect keeps holds at every reachable site.
-/

namespace ObjectCatalog

/-! ## Effects -/

/-- Deletions of object rows one after the other. -/
abbrev Deletions : Store → Store → Prop :=
  Relation.ReflTransGen fun s s' => ∃ rows orphaned, DeletionStep s rows orphaned s'

/-- The version that an upload gets: the one of its identity, where 0 asks for the next one. -/
def Store.versionFor (s : Store) (stream : ObjectStream) : Int :=
  if stream.version = 0 then s.nextVersion stream.location else stream.version.toInt

namespace Call

/-- The request of a call that starts an upload. -/
def upload? : Call → Option BeginObject
  | beginNextVersion r | beginExactVersion r => some r
  | _ => none

/-- The stream identity for which a call stores a segment. -/
def storesFor? : Call → Option ObjectStream
  | commitSegment r => some r.stream
  | commitInlineSegment r => some r.stream
  | _ => none

/-- The request of a call that completes an upload. -/
def completion? : Call → Option CommitObject
  | commitObject r => some r
  | commitObjectWithSegments r => some r.commit
  | _ => none

/-- What a call can do to the tables. -/
inductive Effect (now : Instant) : Call → Store → Store → Prop
  /-- Nothing, but that nodes may get aliases. -/
  | rows {call : Call} {s s' : Store} (hsame : s.SameRows s') : Effect now call s s'
  /-- An upload starts under a key and version that no row has. -/
  | started {call : Call} {s : Store} {r : BeginObject} {settings : Settings}
      {metadata : Option Metadata} (hcall : call.upload? = some r)
      (hcheck : r.check = .ok metadata)
      (hfree : s.objects.find? ⟨r.stream.location, s.versionFor r.stream⟩ = none) :
      Effect now call s (s.addObject (r.row settings now metadata (s.versionFor r.stream)))
  /-- A segment of an upload is stored. -/
  | stored {call : Call} {s s₁ : Store} {stream : ObjectStream} {o : ObjectRow} {row : SegmentRow}
      (hcall : call.storesFor? = some stream) (hrow : call.MayStore now row)
      (hsame : s.SameRows s₁) (hpending : s₁.objectOf? stream .pending = some o)
      (hstream : row.stream = stream.stream) :
      Effect now call s { s₁ with segments := s₁.segments.insert row }
  /-- An upload is completed, after some of its segments may have been dropped. -/
  | completed {call : Call} {s s₁ s' : Store} {r : CommitObject} {settings : Settings}
      {metadata : Option Metadata} {o : ObjectRow} {object : Object}
      (hcall : call.completion? = some r) (hcheck : r.check = .ok metadata)
      (hpending : s.objectOf? r.stream .pending = some o)
      (hkept : s₁ = s ∨ ∃ kept, s₁ = s.dropOtherSegments r.stream.stream kept)
      (hcomplete : s₁.complete settings r metadata o (s₁.segmentsOf r.stream.stream) =
        .ok (object, s')) : Effect now call s s'
  /-- A committed object gets new metadata. -/
  | described {s : Store} {r : UpdateMetadata} {metadata : Option Metadata} {o : ObjectRow}
      (hcheck : r.metadata.check = .ok metadata)
      (hcommitted : s.objectOf? r.stream .committed = some o) :
      Effect now (.updateMetadata r) s
        { s with objects := s.objects.insert { o with metadata := .ofMetadata metadata } }
  /-- A copy is stored. -/
  | copied {s s' : Store} {r : FinishCopy} {object : Object}
      (hcopy : s.finishCopy now r = .ok (object, s')) (hcheck : r.check = .ok ()) :
      Effect now (.finishCopy r) s s'
  /-- Objects are deleted. -/
  | deleted {s s' : Store} {call : DeleteCall} (hdeletes : Deletions s s') :
      Effect now (.delete call) s s'

end Call

/-- A row after deletions is a row from before. -/
theorem Deletions.find?_eq {s s' : Store} (h : Deletions s s') (k : ObjectId) :
    s'.objects.find? k = s.objects.find? k ∨ s'.objects.find? k = none := by
  induction h with
  | refl => exact .inl rfl
  | tail _ hstep ih =>
    obtain ⟨rows, orphaned, hstep⟩ := hstep
    have hkeeps := (Store.keeps_of_removeStreams hstep.removed).1
    rw [hkeeps, Store.dropObjects, Table.find?_filter]
    rcases ih with hsame | hnone
    · rw [hsame]
      cases hrow : s.objects.find? k with
      | none => exact .inl rfl
      | some o => exact (ite_eq_or_eq _ _ _)
    · rw [hnone]
      exact .inr rfl

/-! ## The steps of a call -/

namespace Catalog

variable {α β : Type} {s s' : Store} {c : Catalog} {Q R : Store → Store → Prop}

theorem Does.mono {a : Action α} (ha : Does Q s a) (hle : ∀ s', Q s s' → R s s') : Does R s a := by
  intro c hc
  obtain ⟨s', hopen, hQ⟩ := ha c hc
  exact ⟨s', hopen, hle s' hQ⟩

/-- A step, and the rest of the call on the tables that it leaves. -/
theorem Does.bind {a : Action α} {f : α → Action β} (ha : Does Q s a) (hQ : ∀ s₁, Q s s₁ → R s s₁)
    (hf : ∀ v s₁, Q s s₁ → Does (fun _ s' => R s s') s₁ (f v)) : Does R s (a >>= f) := by
  intro c hc
  obtain ⟨s₁, hopen, hdone⟩ := ha c hc
  rcases hrun : c.run a with ⟨e | v, c'⟩
  · rw [hrun] at hopen
    rw [run_bind_error hrun]
    exact ⟨s₁, hopen, hQ s₁ hdone⟩
  · rw [hrun] at hopen
    rw [run_bind_ok hrun]
    exact hf v s₁ hdone c' hopen

/-- Calls that delete one after the other. -/
theorem Does.deletions_bind {a : Action α} {f : α → Action β} (ha : Does Deletions s a)
    (hf : ∀ v s₁, Does Deletions s₁ (f v)) : Does Deletions s (a >>= f) :=
  ha.bind (fun _ h => h) fun v s₁ hbefore => (hf v s₁).mono fun _ hafter => hbefore.trans hafter

/-! ## Deletions -/

theorem deletions_deleteRows (statement : Statement) {rows : List ObjectRow}
    (hstored : ∀ o ∈ rows, o ∈ s.objects.rows) (hnodup : rows.Nodup) :
    Does Deletions s (deleteRows statement s rows) := by
  intro c hc
  obtain ⟨s', hopen, hends⟩ := run_deleteRows statement hc hstored hnodup
  refine ⟨s', hopen, ?_⟩
  generalize (c.run (deleteRows statement s rows)).1 = outcome at hends
  cases hends with
  | unread => exact .refl
  | unremoved => exact .refl
  | untold => exact .refl
  | deleted hstep => exact .single ⟨rows, _, hstep⟩

theorem deletions_deleteSomeRows (statement : Statement) {rows : List ObjectRow}
    (hstored : ∀ o ∈ rows, o ∈ s.objects.rows) (hnodup : rows.Nodup) :
    Does Deletions s (deleteSomeRows statement s rows) := by
  unfold deleteSomeRows
  split
  · exact (quiet_throw _).does .refl
  · exact deletions_deleteRows statement hstored hnodup

theorem deletions_sweep (statement : Statement) {due : Store → List ObjectRow} (hdue : Chooses due)
    (size : Nat) : Does Deletions s (sweep statement due size) := by
  refine does_tables_bind ?_
  generalize s.objects.rows.length + 1 = rounds
  induction rounds generalizing s with
  | zero => exact (quiet_pure _).does .refl
  | succ rounds ih =>
    obtain ⟨hstored, hnodup⟩ := hdue.batch (s := s) (sweepBatch size)
    refine does_tables_bind ((deletions_deleteRows statement hstored hnodup).deletions_bind ?_)
    intro d s₁
    split
    · exact (quiet_pure _).does .refl
    · exact ih.deletions_bind fun _ _ => (quiet_pure _).does .refl

theorem deletions_delete (call : DeleteCall) : Does Deletions s call.action := by
  have hone : ∀ (statement : Statement) {found : Option ObjectRow},
      (∀ o, found = some o → o ∈ s.objects.rows) →
        Does Deletions s (deleteSomeRows statement s found.toList) := by
    intro statement found hstored
    refine deletions_deleteSomeRows statement (fun o ho => ?_) (Option.toList_nodup found)
    exact hstored o (Option.mem_toList.1 ho)
  have hfilter : ∀ (p : ObjectRow → Bool), ∀ o ∈ s.objects.rows.filter p, o ∈ s.objects.rows :=
    fun _ _ ho => (List.mem_filter.1 ho).1
  cases call with
  | pending stream =>
    exact does_lift_bind .refl fun _ _ => does_tables_bind <|
      hone _ fun _ ho => (Store.objectOf?_eq_some ho).1
  | exactVersion l version =>
    exact does_lift_bind .refl fun _ _ => does_reject_bind .refl fun _ => does_tables_bind <|
      hone _ fun _ ho => (Table.find?_eq_some_iff.1 ho).1
  | allVersions l =>
    exact does_lift_bind .refl fun _ _ => does_tables_bind <|
      deletions_deleteSomeRows _ (hfilter _) (s.objects.nodup.filter _)
  | committedVersions locations =>
    cases locations with
    | nil => exact (quiet_pure _).does .refl
    | cons first rest =>
      refine does_lift_bind .refl fun _ _ => does_tables_bind ?_
      dsimp only
      split
      · exact does_throw_bind .refl
      · exact deletions_deleteRows _ (hfilter _) (s.objects.nodup.filter _)
  | expired before batchSize => exact deletions_sweep _ ((chooses_filter _).byTime _) _
  | zombies before inactiveSince batchSize =>
    exact deletions_sweep _ ((chooses_filter _).byTime _) _
  | bucket project name batchSize =>
    exact does_reject_bind .refl fun _ => does_reject_bind .refl fun _ =>
      deletions_sweep _ (chooses_filter _) _

/-! ## Uploads -/

variable {now : Instant}

/-- A call that adds a row under a free key, and then reads it back. -/
theorem does_addObject {o : ObjectRow} {taken : Error} {statement : Statement} (hrefl : R s s)
    (hadd : s.objects.find? o.id = none → R s (s.addObject o)) :
    Does R s (do
      if s.objects.contains o.id then throw taken
      commit (s.addObject o)
      o.view statement) := by
  dsimp only
  split
  · exact (quiet_throw _).does hrefl
  · next hfree =>
    exact does_commit_bind_of_nodes rfl (hadd (find?_of_not_contains hfree)) (quiet_lift _)

theorem effect_beginNextVersion (r : BeginObject) :
    Does (Call.Effect now (.beginNextVersion r)) s (beginNextVersion now r) := by
  refine does_lift_bind (.rows (.refl s)) fun metadata hcheck => ?_
  refine does_reject_bind (.rows (.refl s)) fun hnext => ?_
  have hversion : s.versionFor r.stream = s.nextVersion r.stream.location :=
    if_pos (by simpa using hnext)
  refine does_tables_bind (does_get_bind fun c _ => ?_)
  rw [← hversion]
  exact does_addObject (.rows (.refl s)) fun hfree => .started rfl hcheck hfree

theorem effect_beginExactVersion (r : BeginObject) :
    Does (Call.Effect now (.beginExactVersion r)) s (beginExactVersion now r) := by
  refine does_lift_bind (.rows (.refl s)) fun metadata hcheck => ?_
  refine does_reject_bind (.rows (.refl s)) fun hexact => ?_
  have hversion : s.versionFor r.stream = r.stream.version.toInt :=
    if_neg (by simpa using hexact)
  refine does_tables_bind (does_get_bind fun c _ => ?_)
  rw [← hversion]
  exact does_addObject (.rows (.refl s)) fun hfree => .started rfl hcheck hfree

theorem effect_commitSegment (r : CommitSegment) :
    Does (Call.Effect now (.commitSegment r)) s (commitSegment now r) := by
  refine does_get_bind fun c _ => does_lift_bind (.rows (.refl s)) fun _ hcheck => ?_
  have hscheme := (CommitSegment.checked_of_check hcheck).redundancy
  -- the nodes of the pieces keep their aliases when the segment is not stored
  refine (sameRows_aliasesOf r.pieces).bind (fun s₁ hsame => .rows hsame) fun aliases s₁ hsame => ?_
  refine does_tables_bind (does_lift_bind (.rows hsame) fun o ho => ?_)
  have hrow : Call.MayStore now (.commitSegment r) (r.row now o aliases) :=
    ⟨hscheme, o, aliases, rfl⟩
  rw [CommitSegment.store_eq]
  exact does_commit (.refl _) (fun h => h)
    (.stored rfl hrow hsame (objectOf?_of_pending ho) rfl)

theorem effect_commitInlineSegment (r : CommitInlineSegment) :
    Does (Call.Effect now (.commitInlineSegment r)) s (commitInlineSegment now r) := by
  refine does_lift_bind (.rows (.refl s)) fun _ _ => does_tables_bind ?_
  refine does_lift_bind (.rows (.refl s)) fun o ho => ?_
  have hrow : Call.MayStore now (.commitInlineSegment r) (r.row now o) := ⟨o, rfl⟩
  rw [CommitInlineSegment.store_eq]
  exact does_commit (.refl _) (fun h => h)
    (.stored rfl hrow (.refl s) (objectOf?_of_pending ho) rfl)

theorem nodes_of_complete {settings : Settings} {r : CommitObject} {metadata : Option Metadata}
    {o : ObjectRow} {rows : List SegmentRow} {object : Object}
    (h : s.complete settings r metadata o rows = .ok (object, s')) : s'.nodes = s.nodes := by
  rw [complete_eq_ok h]
  rfl

/-- What completing an upload does to the object rows. -/
theorem objects_of_complete {s₁ : Store} {x : StreamId} {settings : Settings} {r : CommitObject}
    {metadata : Option Metadata} {o : ObjectRow} {rows : List SegmentRow} {object : Object}
    (hkept : s₁ = s ∨ ∃ kept, s₁ = s.dropOtherSegments x kept)
    (h : s₁.complete settings r metadata o rows = .ok (object, s')) :
    s'.objects = s.objects.insert (r.row metadata o rows) := by
  have hobjects : s₁.objects = s.objects := by
    rcases hkept with rfl | ⟨kept, rfl⟩
    · rfl
    · rfl
  rw [complete_eq_ok h]
  dsimp only
  rw [hobjects]

theorem effect_commitObject (r : CommitObject) :
    Does (Call.Effect now (.commitObject r)) s (commitObject r) := by
  refine does_lift_bind (.rows (.refl s)) fun metadata hcheck => does_tables_bind ?_
  refine does_lift_bind (.rows (.refl s)) fun o ho => ?_
  refine does_lift_bind (.rows (.refl s)) fun _ _ => does_get_bind fun c _ => ?_
  refine does_lift_bind (.rows (.refl s)) fun out hout => ?_
  exact does_commit_bind_of_nodes (nodes_of_complete hout)
    (.completed rfl hcheck (objectOf?_of_pendingForCommit ho) (.inl rfl) hout) (quiet_pure _)

theorem effect_commitObjectWithSegments (r : CommitObjectWithSegments) :
    Does (Call.Effect now (.commitObjectWithSegments r)) s (commitObjectWithSegments r) := by
  refine does_lift_bind (.rows (.refl s)) fun metadata hcheck => ?_
  refine does_lift_bind (.rows (.refl s)) fun _ _ => does_tables_bind ?_
  refine does_lift_bind (.rows (.refl s)) fun o ho => ?_
  refine does_lift_bind (.rows (.refl s)) fun _ _ => ?_
  dsimp only
  cases r.segments.find? fun p => !(s.segmentsOf r.commit.stream.stream).any fun x =>
      decide (x.place = p) with
  | some absent => exact does_throw_bind (.rows (.refl s))
  | none =>
    dsimp only
    rw [List.partition_eq_filter_filter]
    refine (quiet_reading (SegmentRow.gives_release _ _).learns).does_bind (.rows (.refl s))
      fun _ => ?_
    refine does_get_bind fun c _ => does_lift_bind (.rows (.refl s)) fun out hout => ?_
    have hnodes := nodes_of_complete hout
    -- the segments of the list are those that are left once the others are dropped
    rw [← segmentsOf_dropOtherSegments] at hout
    exact does_commit_bind_of_nodes hnodes
      (.completed rfl hcheck (objectOf?_of_pendingForCommit ho) (.inr ⟨_, rfl⟩) hout) (quiet_pure _)

theorem effect_updateMetadata (r : UpdateMetadata) :
    Does (Call.Effect now (.updateMetadata r)) s (updateMetadata r) := by
  refine does_lift_bind (.rows (.refl s)) fun _ _ => ?_
  refine does_lift_bind (.rows (.refl s)) fun metadata hcheck => does_tables_bind ?_
  cases hfound : s.objectOf? r.stream .committed with
  | none => exact (quiet_throw _).does (.rows (.refl s))
  | some o => exact does_commit (.refl _) (fun h => h) (.described hcheck hfound)

theorem effect_finishCopy (r : FinishCopy) :
    Does (Call.Effect now (.finishCopy r)) s (finishCopy now r) := by
  refine does_lift_bind (.rows (.refl s)) fun _ hcheck => does_tables_bind ?_
  refine does_lift_bind (.rows (.refl s)) fun out hout => ?_
  obtain ⟨_, _, _, _, hcopied⟩ := Store.copied_of_ok hout
  exact does_commit_bind_of_nodes hcopied.nodes (.copied hout hcheck) (quiet_pure _)

end Catalog

/-! ## Calls and events -/

variable {s s' : Store} {c : Catalog} {σ : Site} {allow : Store → StreamId → Prop}

/-- **Every call has one of the effects that its request allows,** also when it fails. -/
theorem Call.effect (hc : c.Open s) (now : Instant) (call : Call) :
    ∃ s', (call.leave now c).Open s' ∧ call.Effect now s s' := by
  have hquiet : ∀ {α : Type} {a : Catalog.Action α}, Catalog.Quiet s a →
      ∃ s', (c.run a).2.Open s' ∧ call.Effect now s s' := fun ha => ⟨s, ha c hc, .rows (.refl s)⟩
  have hrows : ∀ {α : Type} {a : Catalog.Action α}, Catalog.Does Store.SameRows s a →
      ∃ s', (c.run a).2.Open s' ∧ call.Effect now s s' := fun ha => (ha.mono fun _ => .rows) c hc
  cases call with
  | createTables => exact hquiet Catalog.quiet_createTables
  | beginNextVersion r => exact Catalog.effect_beginNextVersion r c hc
  | beginExactVersion r => exact Catalog.effect_beginExactVersion r c hc
  | beginSegment r => exact hquiet (Catalog.quiet_beginSegment r)
  | commitSegment r => exact Catalog.effect_commitSegment r c hc
  | commitInlineSegment r => exact Catalog.effect_commitInlineSegment r c hc
  | commitObject r => exact Catalog.effect_commitObject r c hc
  | commitObjectWithSegments r => exact Catalog.effect_commitObjectWithSegments r c hc
  | updateMetadata r => exact Catalog.effect_updateMetadata r c hc
  | beginCopy r => exact hquiet (Catalog.quiet_beginCopy r)
  | finishCopy r => exact Catalog.effect_finishCopy r c hc
  | delete call => exact (Catalog.deletions_delete call).mono (fun _ => .deleted) c hc
  | getExactVersion l version => exact hquiet (Catalog.quiet_getExactVersion l version)
  | getLatestVersion l => exact hquiet (Catalog.quiet_getLatestVersion l)
  | getSegment x p => exact hquiet (Catalog.quiet_getSegment x p)
  | getLastSegment l => exact hquiet (Catalog.quiet_getLastSegment l)
  | listSegments x cursor limit => exact hquiet (Catalog.quiet_listSegments x cursor limit)
  | listObjects r => exact hquiet (Catalog.quiet_listObjects r)
  | listPending r => exact hquiet (Catalog.quiet_listPending r)
  | scanObjects batchSize asOf => exact hquiet (Catalog.quiet_scanObjects now batchSize asOf)
  | scanSegments batchSize asOf => exact hquiet (Catalog.quiet_scanSegments now batchSize asOf)
  | runLoop batchSize asOf observers registry =>
    exact hquiet (Catalog.quiet_runLoop now batchSize asOf observers registry)
  | ensureNodes nodes => exact hrows (Catalog.sameRows_ensureNodes nodes)
  | aliasesOf pieces => exact hrows (Catalog.sameRows_aliasesOf pieces)
  | piecesOf aliases => exact hquiet (Catalog.quiet_piecesOf aliases)

namespace Site

/-- What an event can do to the tables of a site: nothing, or what its call does. -/
inductive Affects : Event → Store → Store → Prop
  | idle {e : Event} {s : Store} : Affects e s s
  | call {i : Nat} {now : Instant} {call : Call} {s s' : Store} (heffect : call.Effect now s s') :
      Affects (.call i now call) s s'

/-- **What any event does at a site,** whatever stream ids it gives. -/
theorem Stands.affects (hσ : σ.Stands s) (e : Event) :
    ∃ s', (σ.step e).Stands s' ∧ Affects e s s' := by
  have hany : σ.Admits (fun _ _ => True) e := fun _ _ _ _ => trivial
  obtain ⟨s', hstands, -⟩ := hσ.step hany
  refine ⟨s', hstands, ?_⟩
  have hstore := hstands.store
  have hsteps := steps_step σ e
  generalize σ.step e = σ' at hsteps hstore
  have hidle : σ'.store = σ.store → Affects e s s' := by
    intro hsame
    rw [hsame, hσ.store] at hstore
    cases hstore
    exact .idle
  cases hsteps with
  | idle => exact hidle rfl
  | opening => exact hidle rfl
  | startScan => exact hidle rfl
  | call hget =>
    obtain ⟨s₁, hopen, heffect⟩ := Call.effect (hσ.open (List.mem_of_getElem? hget)) _ _
    have hsame : some s' = some s₁ := hstore.symm.trans hopen.store
    cases hsame
    exact .call heffect
  | nextBatch hget hscan =>
    have hh := List.mem_of_getElem? hget
    have hof := (hσ.handles _ hh).scans _ (List.mem_of_getElem? hscan)
    obtain ⟨hopen, -⟩ := Catalog.open_nextSegments (hσ.open hh) hof
    exact hidle (hopen.store.trans hσ.store.symm)

theorem stands_fresh : fresh.Stands .empty :=
  ⟨rfl, NodeTable.sound_empty, fun _ hh => absurd hh List.not_mem_nil⟩

/-- Tables stand after any events. -/
theorem Stands.run (hσ : σ.Stands s) (events : List Event) : ∃ s', (σ.run events).Stands s' := by
  induction events generalizing σ s with
  | nil => exact ⟨s, hσ⟩
  | cons e rest ih =>
    obtain ⟨s', hσ', -⟩ := hσ.affects e
    exact ih hσ'

/-- **What holds of empty tables and is kept by every effect holds at every reachable site.** -/
theorem Reachable.of_effects {P : Store → Prop} (hempty : P .empty)
    (heffect : ∀ now call s s', Call.Effect now call s s' → P s → P s') (hσ : σ.Reachable allow)
    (hs : σ.store = some s) : P s := by
  induction hσ generalizing s with
  | fresh =>
    cases hs
    exact hempty
  | @step σ e hσ he ih =>
    obtain ⟨s₀, hstands⟩ := hσ.stands
    obtain ⟨s₁, hstands₁, haffects⟩ := hstands.affects e
    rw [hstands₁.store, Option.some.injEq] at hs
    subst hs
    have hbefore : P s₀ := ih hstands.store
    cases haffects with
    | idle => exact hbefore
    | call h => exact heffect _ _ _ _ h hbefore

end Site

end ObjectCatalog
