import ObjectCatalog.Deletion.Sweep
import ObjectCatalog.Proofs.Calls
import ObjectCatalog.Proofs.Removal

/-!
# Calls that delete

Every deletion is a sequence of deletions of object rows: one for the calls that name what they
delete, one for each batch of a sweep.

* `DeleteCall`: the calls that delete.
* `Deletes`: deletions of rows one after the other, with all they report.
* `Catalog.run_deleteRows`: how the deletion of rows can end.
* `Catalog.sheds_delete`: **what a call that deletes does,** and what it reports when it succeeds.
-/

namespace ObjectCatalog

/-- A call that deletes objects. -/
inductive DeleteCall
  | pending (stream : ObjectStream)
  | exactVersion (l : Location) (version : Int64)
  | allVersions (l : Location)
  | committedVersions (locations : List Location)
  | expired (before : Instant) (batchSize : Nat)
  | zombies (before : Instant) (inactiveSince : Option Instant) (batchSize : Nat)
  | bucket (project : ProjectId) (name : String) (batchSize : Nat)

/-- The call itself. -/
def DeleteCall.action : DeleteCall → Catalog.Action Deletion
  | pending stream => Catalog.deletePending stream
  | exactVersion l version => Catalog.deleteExactVersion l version
  | allVersions l => Catalog.deleteAllVersions l
  | committedVersions locations => Catalog.deleteCommittedVersions locations
  | expired before batchSize => Catalog.deleteExpired before batchSize
  | zombies before inactiveSince batchSize =>
    Catalog.deleteZombies before inactiveSince batchSize
  | bucket project name batchSize => Catalog.deleteBucket project name batchSize

/-- Deletions of object rows one after the other, with what they report: the objects of the rows, and
the pieces that the orphaned rows release. -/
inductive Deletes (statement : Statement) : Store → Deletion → Store → Prop
  | none {s : Store} : Deletes statement s {} s
  | rows {s s₁ s' : Store} {rows : List ObjectRow} {orphaned : List SegmentRow}
      {objects : List Object} {segments : List ReleasedPieces} {d : Deletion}
      (hstep : DeletionStep s rows orphaned s₁)
      (hobjects : (ObjectRow.byAge rows).mapM (·.view statement) = .ok objects)
      (hsegments : (orphaned.filter (·.holdsPieces)).mapM (SegmentRow.released s₁.nodes) =
        .ok segments)
      (hrest : Deletes statement s₁ d s') :
      Deletes statement s (.append ⟨Object.byKey objects, segments⟩ d) s'

theorem Deletion.append_none (d : Deletion) : d.append {} = d := by
  unfold append
  rw [List.append_nil, List.append_nil]

theorem Deletion.append_assoc (a b d : Deletion) :
    (a.append b).append d = a.append (b.append d) := by
  unfold append
  rw [List.append_assoc, List.append_assoc]

theorem Deletes.trans {statement : Statement} {s s₁ s' : Store} {d d' : Deletion}
    (h : Deletes statement s d s₁) (h' : Deletes statement s₁ d' s') :
    Deletes statement s (d.append d') s' := by
  induction h with
  | none => exact h'
  | rows hstep hobjects hsegments _ ih =>
    rw [Deletion.append_assoc]
    exact .rows hstep hobjects hsegments (ih h')

namespace Catalog

variable {α : Type} {c : Catalog} {s : Store} {statement : Statement}

/-- A call that deletes: it does changes that bring no new stream, and if it succeeds then it reports
what it deleted. -/
def Sheds (statement : Statement) (s : Store) (a : Action Deletion) : Prop :=
  ∀ c : Catalog, c.Open s → ∃ s', (c.run a).2.Open s' ∧ Changes Terms.none s s' ∧
    ∀ d, (c.run a).1 = .ok d → Deletes statement s d s'

theorem sheds_throw (e : Error) : Sheds statement s (throw e) :=
  fun _ hc => ⟨s, hc, .refl, fun _ h => by cases h⟩

theorem sheds_none : Sheds statement s (pure {}) :=
  fun _ hc => ⟨s, hc, .refl, fun _ h => by cases h; exact .none⟩

theorem sheds_lift_bind {x : Except Error α} {f : α → Action Deletion}
    (hf : ∀ v, Sheds statement s (f v)) : Sheds statement s (liftM x >>= f) := by
  intro c hc
  rw [run_lift_bind]
  cases x with
  | error e => exact sheds_throw e c hc
  | ok v => exact hf v c hc

theorem sheds_reject_bind {bad : Bool} {why : Rejection} {f : Unit → Action Deletion}
    (hf : Sheds statement s (f ())) : Sheds statement s (reject bad why >>= f) := by
  intro c hc
  rw [run_reject_bind]
  cases bad with
  | true => exact sheds_throw _ c hc
  | false => exact hf c hc

theorem sheds_tables_bind {sought : Statement} {f : Store → Action Deletion}
    (hf : Sheds statement s (f s)) : Sheds statement s (tables sought >>= f) := by
  intro c hc
  rw [run_tables_bind hc.store]
  exact hf c hc

/-! ## Deleting chosen rows -/

/-- How the deletion of rows can end: with a row that cannot be read, with a removed segment that
cannot be read, with pieces that cannot be told, or with the rows deleted. -/
inductive EndsDeletion (statement : Statement) (s : Store) (rows : List ObjectRow) :
    Except Error Deletion → Store → Prop
  | unread {e : Error} (hobjects : (ObjectRow.byAge rows).mapM (·.view statement) = .error e) :
      EndsDeletion statement s rows (.error e) s
  | unremoved {e : Error} (hremoved : (s.dropObjects rows).removeStreams
      ((ObjectRow.byAge rows).map (·.stream)) = .error e) :
      EndsDeletion statement s rows (.error e) s
  | untold {orphaned : List SegmentRow} {s' : Store} {e : Error}
      (hstep : DeletionStep s rows orphaned s')
      (hsegments : (orphaned.filter (·.holdsPieces)).mapM (SegmentRow.released s'.nodes) =
        .error e) : EndsDeletion statement s rows (.error e) s
  | deleted {orphaned : List SegmentRow} {s' : Store} {objects : List Object}
      {segments : List ReleasedPieces} (hstep : DeletionStep s rows orphaned s')
      (hobjects : (ObjectRow.byAge rows).mapM (·.view statement) = .ok objects)
      (hsegments : (orphaned.filter (·.holdsPieces)).mapM (SegmentRow.released s'.nodes) =
        .ok segments) : EndsDeletion statement s rows (.ok ⟨Object.byKey objects, segments⟩) s'

/-- **The deletion of stored rows ends in one of these ways.** -/
theorem run_deleteRows (statement : Statement) (hc : c.Open s) {rows : List ObjectRow}
    (hstored : ∀ o ∈ rows, o ∈ s.objects.rows) (hnodup : rows.Nodup) :
    ∃ s', (c.run (deleteRows statement s rows)).2.Open s' ∧
      EndsDeletion statement s rows (c.run (deleteRows statement s rows)).1 s' := by
  unfold deleteRows
  rcases hobjects : (ObjectRow.byAge rows).mapM (·.view statement) with e | objects
  · have hrun : c.run ((ObjectRow.byAge rows).mapM fun o => liftM (o.view statement)) =
        (.error e, c) := by
      rw [run_mapM_lift, hobjects]
    rw [run_bind_error hrun]
    exact ⟨s, hc, .unread hobjects⟩
  · have hrun : c.run ((ObjectRow.byAge rows).mapM fun o => liftM (o.view statement)) =
        (.ok objects, c) := by
      rw [run_mapM_lift, hobjects]
    rw [run_bind_ok hrun]
    dsimp only
    rcases hremoved : (s.dropObjects rows).removeStreams ((ObjectRow.byAge rows).map (·.stream)) with
      e | ⟨orphaned, s'⟩
    · rw [run_lift_bind, hremoved]
      exact ⟨s, hc, .unremoved hremoved⟩
    · rw [run_lift_bind, hremoved]
      dsimp only
      have hstep : DeletionStep s rows orphaned s' := ⟨hstored, hnodup, hremoved⟩
      have hnodes : s'.nodes = s.nodes := (Store.keeps_of_removeStreams hremoved).2
      have hcache : c.cache.Within s'.nodes := by rw [hnodes]; exact hc.cache
      -- the pieces are looked up before anything is written, so a failure leaves the tables
      obtain ⟨cache, hwithin, hread⟩ :=
        run_reading_gives hcache (SegmentRow.gives_release s'.nodes orphaned)
      rcases hsegments : (orphaned.filter (·.holdsPieces)).mapM (SegmentRow.released s'.nodes) with
        e | segments
      · rw [hsegments] at hread
        rw [run_bind_error hread]
        exact ⟨s, ⟨hc.store, by rw [← hnodes]; exact hwithin, hc.aliases⟩,
          .untold hstep hsegments⟩
      · rw [hsegments] at hread
        rw [run_bind_ok hread, run_commit_bind]
        exact ⟨s', ⟨rfl, hwithin, by rw [hnodes]; exact hc.aliases⟩,
          .deleted hstep hobjects hsegments⟩

/-- **The deletion of stored rows** deletes them, or nothing. -/
theorem sheds_deleteRows (statement : Statement) {rows : List ObjectRow}
    (hstored : ∀ o ∈ rows, o ∈ s.objects.rows) (hnodup : rows.Nodup) :
    Sheds statement s (deleteRows statement s rows) := by
  intro c hc
  obtain ⟨s', hopen, hends⟩ := run_deleteRows statement hc hstored hnodup
  refine ⟨s', hopen, ?_⟩
  generalize (c.run (deleteRows statement s rows)).1 = outcome at hends
  cases hends with
  | unread => exact ⟨.refl, fun _ hd => by cases hd⟩
  | unremoved => exact ⟨.refl, fun _ hd => by cases hd⟩
  | untold => exact ⟨.refl, fun _ hd => by cases hd⟩
  | @deleted orphaned s' objects segments hstep hobjects hsegments =>
    refine ⟨.single (.delete hstep), fun d hd => ?_⟩
    cases hd
    rw [← Deletion.append_none ⟨Object.byKey objects, segments⟩]
    exact .rows hstep hobjects hsegments .none

theorem sheds_deleteSomeRows {rows : List ObjectRow} (hstored : ∀ o ∈ rows, o ∈ s.objects.rows)
    (hnodup : rows.Nodup) : Sheds statement s (deleteSomeRows statement s rows) := by
  unfold deleteSomeRows
  split
  · exact sheds_throw _
  · exact sheds_deleteRows statement hstored hnodup

theorem sheds_option {found : Option ObjectRow} (hstored : ∀ o, found = some o → o ∈ s.objects.rows) :
    Sheds statement s (deleteSomeRows statement s found.toList) :=
  sheds_deleteSomeRows (fun o ho => hstored o (Option.mem_toList.1 ho)) (Option.toList_nodup found)

/-! ## Sweeps -/

/-- A choice of rows that are stored, none of them twice. -/
def Chooses (due : Store → List ObjectRow) : Prop :=
  ∀ s, (∀ o ∈ due s, o ∈ s.objects.rows) ∧ (due s).Nodup

/-- The rows of a batch are stored, none of them twice. -/
theorem Chooses.batch {due : Store → List ObjectRow} (h : Chooses due) (size : Nat) :
    (∀ o ∈ (due s).take size, o ∈ s.objects.rows) ∧ ((due s).take size).Nodup :=
  ⟨fun o ho => (h s).1 o (List.mem_of_mem_take ho), (h s).2.sublist (List.take_sublist _ _)⟩

theorem chooses_filter (p : Store → ObjectRow → Bool) :
    Chooses fun s => s.objects.rows.filter (p s) := fun s =>
  ⟨fun _ ho => (List.mem_filter.1 ho).1, s.objects.nodup.filter _⟩

theorem Chooses.byTime {due : Store → List ObjectRow} (h : Chooses due)
    (time : ObjectRow → Option Instant) : Chooses fun s => byTime time (due s) := by
  intro s
  have hperm : (ObjectCatalog.byTime time (due s)).Perm (due s) :=
    (List.mergeSort_perm _ _).trans (List.mergeSort_perm _ _)
  exact ⟨fun o ho => (h s).1 o (hperm.mem_iff.1 ho), hperm.nodup_iff.2 (h s).2⟩

/-- **A sweep deletes batch after batch,** and the batches before one that fails stay deleted. -/
theorem sheds_sweepRounds (statement : Statement) {due : Store → List ObjectRow}
    (hdue : Chooses due) (size rounds : Nat) :
    Sheds statement s (sweepRounds statement due size rounds) := by
  induction rounds generalizing s with
  | zero => exact sheds_none
  | succ rounds ih =>
    -- the rounds that are left start from the tables that this batch leaves
    refine sheds_tables_bind fun c hc => ?_
    dsimp only
    obtain ⟨hstored, hnodup⟩ := hdue.batch (s := s) size
    obtain ⟨s₁, hopen, hchanges, hdeletes⟩ := sheds_deleteRows statement hstored hnodup c hc
    rcases hrun : c.run (deleteRows statement s ((due s).take size)) with ⟨e | d, c'⟩
    · rw [hrun] at hopen
      rw [run_bind_error hrun]
      exact ⟨s₁, hopen, hchanges, fun _ h => by cases h⟩
    · rw [hrun] at hopen hdeletes
      rw [run_bind_ok hrun]
      split
      · exact ⟨s₁, hopen, hchanges, fun _ h => by cases h; exact hdeletes d rfl⟩
      · obtain ⟨s', hopen', hchanges', hdeletes'⟩ := ih c' hopen
        rcases hrest : c'.run (sweepRounds statement due size rounds) with ⟨e | d', c''⟩
        · rw [hrest] at hopen'
          rw [run_bind_error hrest]
          exact ⟨s', hopen', hchanges.trans hchanges', fun _ h => by cases h⟩
        · rw [hrest] at hopen' hdeletes'
          rw [run_bind_ok hrest]
          refine ⟨s', hopen', hchanges.trans hchanges', fun _ h => ?_⟩
          cases h
          exact (hdeletes d rfl).trans (hdeletes' d' rfl)

theorem sheds_sweep (statement : Statement) {due : Store → List ObjectRow} (hdue : Chooses due)
    (size : Nat) :
    Sheds statement s (sweep statement due size) :=
  sheds_tables_bind (sheds_sweepRounds statement hdue _ _)

/-! ## The calls -/

/-- The statement that reads the rows that a call deletes. -/
def statementOf : DeleteCall → Statement
  | .pending _ => .deletePending
  | .exactVersion .. => .deleteExactVersion
  | .allVersions _ => .deleteAllVersions
  | .committedVersions _ => .deleteCommittedVersions
  | .expired .. => .deleteExpired
  | .zombies .. => .deleteZombies
  | .bucket .. => .deleteBucket

/-- **What a call that deletes does,** and what it reports when it succeeds. -/
theorem sheds_delete (call : DeleteCall) : Sheds (statementOf call) s call.action := by
  cases call with
  | pending stream =>
    exact sheds_lift_bind fun _ => sheds_tables_bind <| sheds_option fun _ ho =>
      (Store.objectOf?_eq_some ho).1
  | exactVersion l version =>
    exact sheds_lift_bind fun _ => sheds_reject_bind <| sheds_tables_bind <| sheds_option fun _ ho =>
      (Table.find?_eq_some_iff.1 ho).1
  | allVersions l =>
    exact sheds_lift_bind fun _ => sheds_tables_bind <| sheds_deleteSomeRows
      (fun _ ho => (List.mem_filter.1 ho).1) (s.objects.nodup.filter _)
  | committedVersions locations =>
    cases locations with
    | nil => exact sheds_none
    | cons first rest =>
      refine sheds_lift_bind fun _ => sheds_tables_bind ?_
      dsimp only
      split
      · exact fun c hc => sheds_throw _ c hc
      · exact sheds_deleteRows _ (fun _ ho => (List.mem_filter.1 ho).1) (s.objects.nodup.filter _)
  | expired before batchSize =>
    exact sheds_sweep _ ((chooses_filter _).byTime _) _
  | zombies before inactiveSince batchSize =>
    exact sheds_sweep _ ((chooses_filter _).byTime _) _
  | bucket project name batchSize =>
    exact sheds_reject_bind <| sheds_reject_bind <| sheds_sweep _ (chooses_filter _) _

end Catalog

end ObjectCatalog
