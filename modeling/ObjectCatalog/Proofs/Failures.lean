import ObjectCatalog.Proofs.Stability

/-!
# Calls that fail

A call of one transaction that fails leaves the rows of objects, segments and copy relations as they
were. Nodes may have got aliases by then, and keep them. There is one exception: an upload at the
version after the greatest 64-bit integer is stored, and then cannot be read back.

* `Call.failure?`: the failure a call ends with. `Call.isSweep` tells the calls apart that are one
  transaction for each batch.
* `Catalog.FailsWith`: what the failures of a call leave.
* `Site.Reachable.version_pos`: versions are positive.
* `Site.Reachable.failure_keeps_rows`: **a failed call leaves all rows, but for that exception.**
-/

namespace ObjectCatalog

/-! ## Failures -/

/-- The failure that an action ends with, if it ends with one. -/
def Catalog.failure? {α : Type} (c : Catalog) (a : Catalog.Action α) : Option Error :=
  match (c.run a).1 with
  | .error e => some e
  | .ok _ => none

theorem Catalog.failure?_eq_some {α : Type} {c : Catalog} {a : Catalog.Action α} {e : Error} :
    c.failure? a = some e ↔ (c.run a).1 = .error e := by
  unfold failure?
  cases (c.run a).1 with
  | error e' => simp
  | ok v => simp

theorem Catalog.failure?_eq_none {α : Type} {c : Catalog} {a : Catalog.Action α} :
    c.failure? a = none ↔ ∃ v, (c.run a).1 = .ok v := by
  unfold failure?
  cases (c.run a).1 with
  | error e => simp
  | ok v => simp

namespace Call

/-- The failure that a call ends with, if it ends with one. -/
def failure? (now : Instant) (c : Catalog) : Call → Option Error
  | createTables => c.failure? Catalog.createTables
  | beginNextVersion r => c.failure? (Catalog.beginNextVersion now r)
  | beginExactVersion r => c.failure? (Catalog.beginExactVersion now r)
  | beginSegment r => c.failure? (Catalog.beginSegment r)
  | commitSegment r => c.failure? (Catalog.commitSegment now r)
  | commitInlineSegment r => c.failure? (Catalog.commitInlineSegment now r)
  | commitObject r => c.failure? (Catalog.commitObject r)
  | commitObjectWithSegments r => c.failure? (Catalog.commitObjectWithSegments r)
  | updateMetadata r => c.failure? (Catalog.updateMetadata r)
  | beginCopy r => c.failure? (Catalog.beginCopy r)
  | finishCopy r => c.failure? (Catalog.finishCopy now r)
  | delete call => c.failure? call.action
  | getExactVersion l version => c.failure? (Catalog.getExactVersion l version)
  | getLatestVersion l => c.failure? (Catalog.getLatestVersion l)
  | getSegment x p => c.failure? (Catalog.getSegment x p)
  | getLastSegment l => c.failure? (Catalog.getLastSegment l)
  | listSegments x cursor limit => c.failure? (Catalog.listSegments x cursor limit)
  | listObjects r => c.failure? (Catalog.listObjects r)
  | listPending r => c.failure? (Catalog.listPending r)
  | scanObjects batchSize asOf => c.failure? (Catalog.scanObjects now batchSize asOf)
  | scanSegments batchSize asOf => c.failure? (Catalog.scanSegments now batchSize asOf)
  | runLoop batchSize asOf observers registry =>
    c.failure? (Catalog.runLoop now batchSize asOf observers registry)
  | ensureNodes nodes => c.failure? (Catalog.ensureNodes nodes)
  | aliasesOf pieces => c.failure? (Catalog.aliasesOf pieces)
  | piecesOf aliases => c.failure? (Catalog.piecesOf aliases)

/-- Whether a call is a sweep, which is a transaction for each of its batches. All other calls are
one transaction. -/
def isSweep : Call → Bool
  | delete (.expired ..) | delete (.zombies ..) | delete (.bucket ..) => true
  | _ => false

end Call

/-- Tables with the rows of others, where nodes may have got aliases in between. -/
structure Store.SameRows (s s' : Store) : Prop where
  objects : s'.objects = s.objects
  segments : s'.segments = s.segments
  copies : s'.copies = s.copies
  nodes : s.nodes.Extends s'.nodes

namespace Store.SameRows

variable {s s₁ s' : Store}

theorem refl (s : Store) : s.SameRows s := ⟨rfl, rfl, rfl, .refl _⟩

theorem trans (h : s.SameRows s₁) (h' : s₁.SameRows s') : s.SameRows s' :=
  ⟨h'.objects.trans h.objects, h'.segments.trans h.segments, h'.copies.trans h.copies,
    h.nodes.trans h'.nodes⟩

end Store.SameRows

namespace Catalog

variable {α β : Type} {c : Catalog} {s s' : Store} {R : Error → Store → Prop} {e : Error}

/-- An action whose failures leave tables in a given relation to the failure. -/
def FailsWith (R : Error → Store → Prop) (s : Store) (a : Action α) : Prop :=
  ∀ c : Catalog, c.Open s → ∀ e, c.failure? a = some e → ∃ s', (c.run a).2.Open s' ∧ R e s'

/-- An action whose failures leave all rows. -/
abbrev Atomic (s : Store) (a : Action α) : Prop := FailsWith (fun _ s' => s.SameRows s') s a

/-! ## Steps of a call -/

theorem failure?_bind {a : Action α} {f : α → Action β} {v : α} {c' : Catalog}
    (h : c.run a = (.ok v, c')) : c.failure? (a >>= f) = c'.failure? (f v) := by
  unfold failure?
  rw [run_bind_ok h]

theorem failsWith_lift {x : Except Error α} (hx : ∀ e, x = .error e → R e s) :
    FailsWith R s (liftM x : Action α) :=
  fun _ hc e he => ⟨s, hc, hx e (failure?_eq_some.1 he)⟩

theorem failsWith_throw {e : Error} (he : R e s) : FailsWith R s (throw e : Action α) := by
  intro c hc e' he'
  cases he'
  exact ⟨s, hc, he⟩

theorem failsWith_pure (v : α) : FailsWith R s (pure v : Action α) := fun _ _ _ he => by cases he

theorem FailsWith.mono {R' : Error → Store → Prop} {a : Action α} (ha : FailsWith R s a)
    (hle : ∀ e s', R e s' → R' e s') : FailsWith R' s a := by
  intro c hc e he
  obtain ⟨s', hopen, hR⟩ := ha c hc e he
  exact ⟨s', hopen, hle e s' hR⟩

/-- A step, and the rest of the call on the tables that it leaves. -/
theorem FailsWith.bind {Q : Store → Store → Prop} {a : Action α} {f : α → Action β}
    (ha : FailsWith R s a) (hdoes : Does Q s a) (hf : ∀ v s₁, Q s s₁ → FailsWith R s₁ (f v)) :
    FailsWith R s (a >>= f) := by
  intro c hc e he
  obtain ⟨s₁, hopen, hQ⟩ := hdoes c hc
  rcases hrun : c.run a with ⟨e' | v, c'⟩
  · have hfail : c.failure? (a >>= f) = c.failure? a := by
      unfold failure?
      rw [run_bind_error hrun, hrun]
    have hleft := ha c hc e (hfail.symm.trans he)
    rw [hrun] at hleft
    rw [run_bind_error hrun]
    exact hleft
  · rw [hrun] at hopen
    rw [failure?_bind hrun] at he
    rw [run_bind_ok hrun]
    exact hf v s₁ hQ c' hopen e he

/-- A step that leaves the tables, and the rest of the call. -/
theorem FailsWith.quiet_bind {a : Action α} {f : α → Action β} (ha : FailsWith R s a)
    (hquiet : Quiet s a) (hf : ∀ v, FailsWith R s (f v)) : FailsWith R s (a >>= f) :=
  ha.bind (hquiet.does (R := fun s s' => s' = s) rfl) fun v s₁ heq => by
    rw [heq]
    exact hf v

theorem failsWith_lift_bind {x : Except Error α} {f : α → Action β}
    (hx : ∀ e, x = .error e → R e s) (hf : ∀ v, x = .ok v → FailsWith R s (f v)) :
    FailsWith R s (liftM x >>= f) := by
  intro c hc e he
  rw [run_lift_bind]
  cases hout : x with
  | error e' =>
    rw [hout] at he
    exact failsWith_throw (α := β) (hx e' hout) c hc e he
  | ok v =>
    rw [hout] at he
    exact hf v hout c hc e he

theorem failsWith_reject_bind {bad : Bool} {why : Rejection} {f : Unit → Action β}
    (hR : R (.rejected why) s) (hf : bad = false → FailsWith R s (f ())) :
    FailsWith R s (reject bad why >>= f) := by
  intro c hc e he
  rw [run_reject_bind]
  cases bad with
  | true => exact failsWith_throw (α := β) hR c hc e he
  | false => exact hf rfl c hc e he

theorem failsWith_throw_bind {e : Error} {f : α → Action β} (he : R e s) :
    FailsWith R s (throw e >>= f) := failsWith_throw (α := β) he

theorem failsWith_get_bind {f : Catalog → Action β} (hf : ∀ c, c.Open s → FailsWith R s (f c)) :
    FailsWith R s (get >>= f) := fun c hc => hf c hc c hc

theorem failsWith_tables_bind {statement : Statement} {f : Store → Action β}
    (hf : FailsWith R s (f s)) : FailsWith R s (tables statement >>= f) := by
  intro c hc e he
  rw [failure?_bind (run_tables hc.store statement)] at he
  rw [run_tables_bind hc.store]
  exact hf c hc e he

/-- The last step of a call does not fail. -/
theorem failsWith_commit_bind {v : α} : FailsWith R s (Catalog.commit s' >>= fun _ => pure v) :=
  fun _ _ _ he => by cases he

theorem failsWith_commit : FailsWith R s (Catalog.commit s') := fun _ _ _ he => by cases he

/-! ## Steps that leave all rows when they fail -/

theorem Quiet.atomic {a : Action α} (ha : Quiet s a) : Atomic s a :=
  fun c hc _ _ => ⟨s, ha c hc, .refl s⟩

theorem Quiet.atomic_bind {a : Action α} {f : α → Action β} (ha : Quiet s a)
    (hf : ∀ v, Atomic s (f v)) : Atomic s (a >>= f) :=
  ha.atomic.quiet_bind ha hf

theorem atomic_lift_bind {x : Except Error α} {f : α → Action β}
    (hf : ∀ v, x = .ok v → Atomic s (f v)) : Atomic s (liftM x >>= f) :=
  failsWith_lift_bind (fun _ _ => .refl s) hf

/-- Steps that change the alias table only, before steps that leave all rows when they fail. -/
theorem Does.atomic_bind {a : Action α} {f : α → Action β} (ha : Does Store.SameRows s a)
    (hf : ∀ v s', Atomic s' (f v)) : Atomic s (a >>= f) :=
  FailsWith.bind (fun c hc _ _ => ha c hc) ha fun v s₁ hsame =>
    (hf v s₁).mono fun _ _ hrows => hsame.trans hrows

/-! ## Starting an upload -/

section Start

variable {o : ObjectRow} {taken : Error} {statement : Statement}

/-- A start that fails has stored nothing, or the row that it cannot read back. -/
theorem start_failure (hc : c.Open s) (hfail : c.failure? (do
      if s.objects.contains o.id then throw taken
      commit (s.addObject o)
      o.view statement) = some e) :
    let left := (c.run (do
      if s.objects.contains o.id then throw taken
      commit (s.addObject o)
      o.view statement)).2
    e = taken ∧ left.Open s ∨ o.view statement = .error e ∧ left.Open (s.addObject o) := by
  dsimp only at hfail ⊢
  split at hfail
  · next htaken =>
    rw [if_pos htaken]
    cases hfail
    exact .inl ⟨rfl, hc⟩
  · next hfree =>
    rw [if_neg hfree]
    refine .inr ⟨failure?_eq_some.1 hfail, ?_⟩
    exact hc.commit (.refl _) hc.aliases

/-- The row of a new upload is read back unless its version is too great. -/
theorem view_start {r : BeginObject} {settings : Settings} {now : Instant}
    {metadata : Option Metadata} {version : Int} {e : Error}
    (hview : (r.row settings now metadata version).view statement = .error e) :
    int64? version = none ∧ e = .storage statement := by
  unfold ObjectRow.view at hview
  cases hobject : (r.row settings now metadata version).view? with
  | some object =>
    rw [hobject] at hview
    cases hview
  | none =>
    rw [hobject] at hview
    cases hview
    refine ⟨?_, rfl⟩
    cases hversion : int64? version with
    | none => rfl
    | some v =>
      -- the other columns of a new row have values that can be read
      have hread : (r.row settings now metadata version).view? ≠ none := by
        unfold ObjectRow.view?
        simp [BeginObject.row, hversion, int32?]
      exact absurd hobject hread

end Start

/-- A next version is above no version that is positive, and at most the greatest one. -/
theorem nextVersion_bounds (hpos : ∀ o ∈ s.objects.rows, 0 < o.version) (l : Location) :
    0 < s.nextVersion l ∧ s.nextVersion l ≤ Store.versionBound := by
  have hversions : ∀ v ∈ (s.versionsOf l).map (·.version), 0 < v := by
    intro v hv
    obtain ⟨o, ho, rfl⟩ := List.mem_map.1 hv
    exact hpos o (List.mem_filter.1 ho).1
  unfold Store.nextVersion
  cases hlist : (s.versionsOf l).map (·.version) with
  | nil => exact ⟨by decide, by decide⟩
  | cons v vs =>
    rw [hlist] at hversions
    have hle := Store.le_foldl_max v (List.mem_cons_self : v ∈ v :: vs)
    have hv := hversions v List.mem_cons_self
    dsimp only
    unfold Store.versionBound
    omega

/-- **A start at the next version that fails has stored nothing,** unless the key has used up its
versions. -/
theorem failure_beginNextVersion {now : Instant} {r : BeginObject} (hc : c.Open s)
    (hpos : ∀ o ∈ s.objects.rows, 0 < o.version)
    (hfail : c.failure? (beginNextVersion now r) = some e) :
    (c.run (beginNextVersion now r)).2.Open s ∨
      e = .storage .beginNextVersion ∧
        s.nextVersion r.stream.location = Store.versionBound ∧ ∃ metadata,
          (c.run (beginNextVersion now r)).2.Open
            (s.addObject (r.row c.settings now metadata (s.nextVersion r.stream.location))) := by
  rw [failure?_eq_some] at hfail
  unfold beginNextVersion at hfail ⊢
  rw [run_lift_bind] at hfail ⊢
  cases hcheck : r.check with
  | error e' => exact .inl hc
  | ok metadata =>
    rw [hcheck] at hfail
    dsimp only at hfail ⊢
    rw [run_reject_bind] at hfail ⊢
    by_cases hnext : r.stream.version = 0
    · rw [if_neg (by simpa using hnext), run_tables_bind hc.store, run_get_bind] at hfail ⊢
      have hstart := start_failure hc (failure?_eq_some.2 hfail)
      rcases hstart with ⟨-, hnothing⟩ | ⟨hview, hstored⟩
      · exact .inl hnothing
      · obtain ⟨hversion, he⟩ := view_start hview
        have hbounds := nextVersion_bounds hpos r.stream.location
        -- no 64-bit integer is the next version, and only the greatest value is none
        have hbound : s.nextVersion r.stream.location = Store.versionBound := by
          unfold int64? at hversion
          split at hversion
          · cases hversion
          · unfold Store.versionBound at hbounds ⊢
            omega
        exact .inr ⟨he, hbound, metadata, hstored⟩
    · rw [if_pos (by simpa using hnext)]
      exact .inl hc

/-- A version of the caller's choice can be read back, so such a start stores nothing when it fails. -/
theorem atomic_beginExactVersion (now : Instant) (r : BeginObject) :
    Atomic s (beginExactVersion now r) := by
  refine atomic_lift_bind fun metadata _ => failsWith_reject_bind (.refl s) fun _ => ?_
  refine failsWith_tables_bind (failsWith_get_bind fun c' _ => ?_)
  intro c hc e hfail
  rcases start_failure hc hfail with ⟨-, hnothing⟩ | ⟨hview, -⟩
  · exact ⟨s, hnothing, .refl s⟩
  · obtain ⟨hversion, -⟩ := view_start hview
    rw [int64?_toInt] at hversion
    cases hversion

/-! ## The other calls -/

/-- Nodes that get aliases change no rows. -/
theorem sameRows_ensureNodes (nodes : List NodeId) :
    Does Store.SameRows s (ensureNodes nodes) := by
  refine does_ensureNodes (.refl s) (fun found table hsound hknown hadd => ?_) nodes
  obtain ⟨-, hext, -⟩ := hsound.addAll hknown hadd
  exact ⟨rfl, rfl, rfl, hext⟩

theorem sameRows_aliasesOf (pieces : List Piece) : Does Store.SameRows s (aliasesOf pieces) := by
  intro c hc
  obtain ⟨s', hopen, hsame⟩ := sameRows_ensureNodes (s := s) (pieces.map (·.node)) c hc
  refine ⟨s', ?_, hsame⟩
  unfold aliasesOf
  rcases hrun : c.run (ensureNodes (pieces.map (·.node))) with ⟨e | u, c'⟩
  · rw [hrun] at hopen
    rw [run_bind_error hrun]
    exact hopen
  · rw [hrun] at hopen
    rw [run_bind_ok hrun]
    exact hopen

theorem atomic_commitSegment (now : Instant) (r : CommitSegment) :
    Atomic s (commitSegment now r) := by
  refine failsWith_get_bind fun c _ => atomic_lift_bind fun _ _ => ?_
  -- the nodes of the pieces keep their aliases when the segment is not stored
  refine (sameRows_aliasesOf r.pieces).atomic_bind fun aliases s' => ?_
  exact failsWith_tables_bind (atomic_lift_bind fun _ _ => failsWith_commit)

theorem atomic_commitInlineSegment (now : Instant) (r : CommitInlineSegment) :
    Atomic s (commitInlineSegment now r) := by
  refine atomic_lift_bind fun _ _ => failsWith_tables_bind ?_
  exact atomic_lift_bind fun _ _ => failsWith_commit

theorem atomic_commitObject (r : CommitObject) : Atomic s (commitObject r) := by
  refine atomic_lift_bind fun metadata _ => failsWith_tables_bind ?_
  refine atomic_lift_bind fun o _ => atomic_lift_bind fun _ _ => ?_
  refine failsWith_get_bind fun c _ => atomic_lift_bind fun out _ => ?_
  exact failsWith_commit_bind

theorem atomic_commitObjectWithSegments (r : CommitObjectWithSegments) :
    Atomic s (commitObjectWithSegments r) := by
  refine atomic_lift_bind fun metadata _ => atomic_lift_bind fun _ _ => ?_
  refine failsWith_tables_bind (atomic_lift_bind fun o _ => ?_)
  refine atomic_lift_bind fun _ _ => ?_
  dsimp only
  cases r.segments.find? fun p => !(s.segmentsOf r.commit.stream.stream).any fun x =>
      decide (x.place = p) with
  | some absent => exact failsWith_throw_bind (.refl s)
  | none =>
    dsimp only
    rw [List.partition_eq_filter_filter]
    have hquiet := quiet_reading (s := s) (SegmentRow.gives_release s.nodes
      ((s.segmentsOf r.commit.stream.stream).filter fun row =>
        !decide (row.place ∈ r.segments))).learns
    refine Quiet.atomic_bind hquiet fun released => ?_
    refine failsWith_get_bind fun c _ => atomic_lift_bind fun out _ => ?_
    exact failsWith_commit_bind

theorem atomic_updateMetadata (r : UpdateMetadata) : Atomic s (updateMetadata r) := by
  refine atomic_lift_bind fun _ _ => atomic_lift_bind fun metadata _ => ?_
  refine failsWith_tables_bind ?_
  cases s.objectOf? r.stream .committed with
  | none => exact (quiet_throw _).atomic
  | some o => exact failsWith_commit

theorem atomic_finishCopy (now : Instant) (r : FinishCopy) : Atomic s (finishCopy now r) := by
  refine atomic_lift_bind fun _ _ => failsWith_tables_bind ?_
  exact atomic_lift_bind fun out _ => failsWith_commit_bind

/-! ## Deletions -/

/-- **A deletion of object rows that fails leaves all rows.** -/
theorem atomic_deleteRows (statement : Statement) (rows : List ObjectRow) :
    Atomic s (deleteRows statement s rows) := by
  have hviews : Quiet s
      ((ObjectRow.byAge rows).mapM fun o => liftM (o.view statement) : Action (List Object)) := by
    intro c hc
    rw [run_mapM_lift]
    exact hc
  refine Quiet.atomic_bind hviews fun objects => ?_
  refine atomic_lift_bind fun out hremoved => ?_
  obtain ⟨orphaned, s'⟩ := out
  have hnodes : s'.nodes = s.nodes := (Store.keeps_of_removeStreams hremoved).2
  -- the pieces are looked up before the tables are stored
  have hreading : Quiet s (reading (SegmentRow.release s'.nodes orphaned)) := by
    rw [hnodes]
    exact quiet_reading (SegmentRow.gives_release s.nodes orphaned).learns
  exact Quiet.atomic_bind hreading fun segments => failsWith_commit_bind

theorem atomic_deleteSomeRows (statement : Statement) (rows : List ObjectRow) :
    Atomic s (deleteSomeRows statement s rows) := by
  unfold deleteSomeRows
  split
  · exact (quiet_throw _).atomic
  · exact atomic_deleteRows statement rows

/-- Deletions by name are one transaction each. -/
theorem atomic_delete {call : DeleteCall} (hone : (Call.delete call).isSweep = false) :
    Atomic s call.action := by
  cases call with
  | pending stream =>
    exact atomic_lift_bind fun _ _ => failsWith_tables_bind (atomic_deleteSomeRows _ _)
  | exactVersion l version =>
    refine atomic_lift_bind fun _ _ => failsWith_reject_bind (.refl s) fun _ => ?_
    exact failsWith_tables_bind (atomic_deleteSomeRows _ _)
  | allVersions l =>
    exact atomic_lift_bind fun _ _ => failsWith_tables_bind (atomic_deleteSomeRows _ _)
  | committedVersions locations =>
    cases locations with
    | nil => exact (quiet_pure _).atomic
    | cons first rest =>
      refine atomic_lift_bind fun _ _ => failsWith_tables_bind ?_
      dsimp only
      split
      · exact failsWith_throw_bind (.refl s)
      · exact atomic_deleteRows _ _
  | expired before batchSize => cases hone
  | zombies before inactiveSince batchSize => cases hone
  | bucket project name batchSize => cases hone

end Catalog

/-! ## Versions -/

variable {t : Terms} {s s' : Store} {σ : Site}

/-- Versions stay positive. -/
theorem Change.version_pos (h : Change t s s') (hs : ∀ o ∈ s.objects.rows, 0 < o.version) :
    ∀ o ∈ s'.objects.rows, 0 < o.version := by
  intro o' ho'
  rcases h.object_before ho' with ⟨o, ho, hid, -⟩ | ⟨-, -, hversion⟩
  · have hsame : o.version = o'.version := congrArg ObjectId.version hid
    rw [← hsame]
    exact hs o ho
  · rcases hversion with hnext | hpos
    · rw [hnext]
      exact (Catalog.nextVersion_bounds hs _).1
    · exact hpos

namespace Site

variable {allow : Store → StreamId → Prop}

/-- **At every reachable site versions are positive.** -/
theorem Reachable.version_pos (hσ : σ.Reachable allow) (hs : σ.store = some s) :
    ∀ o ∈ s.objects.rows, 0 < o.version := by
  have hempty : ∀ o ∈ Store.empty.objects.rows, 0 < o.version := fun _ ho =>
    absurd ho List.not_mem_nil
  exact hσ.invariant hempty (fun _ _ hc => hc.version_pos) hs

end Site

/-! ## Calls -/

/-- **A call of one transaction that fails leaves all rows,** but for a start at the next version of a
key that has used up its versions. -/
theorem Call.failure_leaves {c : Catalog} {now : Instant} {call : Call} {e : Error}
    (hc : c.Open s) (hpos : ∀ o ∈ s.objects.rows, 0 < o.version) (hone : call.isSweep = false)
    (hfail : call.failure? now c = some e) :
    (∃ s', (call.leave now c).Open s' ∧ s.SameRows s') ∨
      ∃ r metadata, call = .beginNextVersion r ∧ e = .storage .beginNextVersion ∧
        s.nextVersion r.stream.location = Store.versionBound ∧ (call.leave now c).Open
          (s.addObject (r.row c.settings now metadata (s.nextVersion r.stream.location))) := by
  have hquiet : ∀ {α : Type} {a : Catalog.Action α}, Catalog.Quiet s a →
      ∃ s', (c.run a).2.Open s' ∧ s.SameRows s' := fun ha => ⟨s, ha c hc, .refl s⟩
  cases call with
  | createTables => exact .inl (hquiet Catalog.quiet_createTables)
  | beginNextVersion r =>
    rcases Catalog.failure_beginNextVersion hc hpos hfail with hnothing | ⟨he, hbound, metadata, hopen⟩
    · exact .inl ⟨s, hnothing, .refl s⟩
    · exact .inr ⟨r, metadata, rfl, he, hbound, hopen⟩
  | beginExactVersion r => exact .inl (Catalog.atomic_beginExactVersion now r c hc e hfail)
  | beginSegment r => exact .inl (hquiet (Catalog.quiet_beginSegment r))
  | commitSegment r => exact .inl (Catalog.atomic_commitSegment now r c hc e hfail)
  | commitInlineSegment r => exact .inl (Catalog.atomic_commitInlineSegment now r c hc e hfail)
  | commitObject r => exact .inl (Catalog.atomic_commitObject r c hc e hfail)
  | commitObjectWithSegments r =>
    exact .inl (Catalog.atomic_commitObjectWithSegments r c hc e hfail)
  | updateMetadata r => exact .inl (Catalog.atomic_updateMetadata r c hc e hfail)
  | beginCopy r => exact .inl (hquiet (Catalog.quiet_beginCopy r))
  | finishCopy r => exact .inl (Catalog.atomic_finishCopy now r c hc e hfail)
  | delete call => exact .inl (Catalog.atomic_delete hone c hc e hfail)
  | getExactVersion l version => exact .inl (hquiet (Catalog.quiet_getExactVersion l version))
  | getLatestVersion l => exact .inl (hquiet (Catalog.quiet_getLatestVersion l))
  | getSegment x p => exact .inl (hquiet (Catalog.quiet_getSegment x p))
  | getLastSegment l => exact .inl (hquiet (Catalog.quiet_getLastSegment l))
  | listSegments x cursor limit => exact .inl (hquiet (Catalog.quiet_listSegments x cursor limit))
  | listObjects r => exact .inl (hquiet (Catalog.quiet_listObjects r))
  | listPending r => exact .inl (hquiet (Catalog.quiet_listPending r))
  | scanObjects batchSize asOf =>
    exact .inl (hquiet (Catalog.quiet_scanObjects now batchSize asOf))
  | scanSegments batchSize asOf =>
    exact .inl (hquiet (Catalog.quiet_scanSegments now batchSize asOf))
  | runLoop batchSize asOf observers registry =>
    exact .inl (hquiet (Catalog.quiet_runLoop now batchSize asOf observers registry))
  | ensureNodes nodes => exact .inl (Catalog.sameRows_ensureNodes nodes c hc)
  | aliasesOf pieces => exact .inl (Catalog.sameRows_aliasesOf pieces c hc)
  | piecesOf aliases => exact .inl (hquiet (Catalog.quiet_piecesOf aliases))

/-- **At every reachable site a call of one transaction that fails leaves all rows as they were,** and
at most adds aliases. The exception is a start at the next version of a key that has used up its
versions: its row stays. -/
theorem Site.Reachable.failure_keeps_rows {allow : Store → StreamId → Prop}
    (hσ : σ.Reachable allow) {h : Handle} (hh : h ∈ σ.handles) (now : Instant) {call : Call}
    (hone : call.isSweep = false) {e : Error}
    (hfail : call.failure? now (σ.catalog h) = some e) :
    ∃ s s', σ.store = some s ∧ (call.leave now (σ.catalog h)).store = some s' ∧
      (s.SameRows s' ∨
        ∃ r metadata, call = .beginNextVersion r ∧ e = .storage .beginNextVersion ∧
          s.nextVersion r.stream.location = Store.versionBound ∧
          s' = s.addObject (r.row h.settings now metadata Store.versionBound)) := by
  obtain ⟨s, hstands⟩ := hσ.stands
  have hopen := hstands.open hh
  have hpos := hσ.version_pos hstands.store
  refine ⟨s, ?_⟩
  rcases Call.failure_leaves hopen hpos hone hfail with
    ⟨s', hleft, hsame⟩ | ⟨r, metadata, hcall, he, hbound, hleft⟩
  · exact ⟨s', hstands.store, hleft.store, .inl hsame⟩
  · refine ⟨_, hstands.store, hleft.store, .inr ⟨r, metadata, hcall, he, hbound, ?_⟩⟩
    rw [hbound]
    rfl

/-! ### A copy that collides, and a key that has used up its versions -/

namespace Sample

/-- A copy under a stream id that another object has. -/
def collision : Call := .finishCopy (copyOf (identity 1 1) (identity 4 2))

/-- The greatest version of a key. -/
def greatest : ObjectStream := { identity 1 1 with version := Int64.maxValue }

/-- A site with an upload at the greatest version of a key. -/
def exhausted : Site := Site.fresh.run [.opening {}, .call 0 moment (begin greatest)]

theorem reachable_exhausted : exhausted.Reachable Store.Lacks :=
  Site.Reachable.fresh.run (by decide +kernel)

/-- Another upload of the key, at its next version. -/
def overrun : Call :=
  .beginNextVersion { stream := { identity 1 2 with version := 0 }, encryption := ⟨1, 256⟩ }

end Sample

/-- The object row of the copy is not stored when a segment row collides. -/
theorem Sample.failure_keeps_rows_collision :
    ∃ h ∈ site.handles, collision.failure? moment (site.catalog h) = some (.storage .finishCopy) ∧
      ∃ s s', site.store = some s ∧ (collision.leave moment (site.catalog h)).store = some s' ∧
        s.SameRows s' := by
  have hhandles : ∃ h ∈ site.handles,
      collision.failure? moment (site.catalog h) = some (.storage .finishCopy) := by decide +kernel
  obtain ⟨h, hh, hfail⟩ := hhandles
  refine ⟨h, hh, hfail, ?_⟩
  obtain ⟨s, s', hs, hs', hkeeps⟩ :=
    Site.Reachable.failure_keeps_rows reachable_site hh moment rfl hfail
  rcases hkeeps with hsame | ⟨r, metadata, hcall, -⟩
  · exact ⟨s, s', hs, hs', hsame⟩
  · cases hcall

/-- The failed upload at the version after the greatest one stays as a row. -/
theorem Sample.overrun_adds_row :
    exhausted.Reachable Store.Lacks ∧ ∃ h ∈ exhausted.handles,
      overrun.failure? moment (exhausted.catalog h) = some (.storage .beginNextVersion) ∧
        ∃ s s', exhausted.store = some s ∧
          (overrun.leave moment (exhausted.catalog h)).store = some s' ∧
          s'.objects.rows.length = s.objects.rows.length + 1 ∧ ¬ s.SameRows s' := by
  have hhandles : ∃ h ∈ exhausted.handles,
      overrun.failure? moment (exhausted.catalog h) = some (.storage .beginNextVersion) ∧
        (overrun.leave moment (exhausted.catalog h)).store.map (·.objects.rows.length) = some 2 ∧
        exhausted.store.map (·.objects.rows.length) = some 1 := by decide +kernel
  obtain ⟨h, hh, hfail, hafter, hbefore⟩ := hhandles
  obtain ⟨s', hs', hlen'⟩ := Option.map_eq_some_iff.1 hafter
  obtain ⟨s, hs, hlen⟩ := Option.map_eq_some_iff.1 hbefore
  refine ⟨reachable_exhausted, h, hh, hfail, s, s', hs, hs', by rw [hlen', hlen], fun hsame => ?_⟩
  rw [hsame.objects, hlen] at hlen'
  exact absurd hlen' (by decide)

end ObjectCatalog
