import ObjectCatalog.Proofs.Conservation
import ObjectCatalog.Proofs.Marks
import ObjectCatalog.Proofs.Trust

/-!
# No reachable tables are corrupt

In runs with fresh stream ids and schemes that fit, tables are whole and the numbers of objects are
right. Then every alias has a node, every blob is a piece list, every segment in need has its
ancestor beside it, and every object has as many segments as it says.

* `Lookup.Succeeds`: reads that succeed whatever the cache holds. On whole tables every segment can
  be resolved, so a scan never fails.
* `Catalog.Trusting`, `Call.trusting`: **calls on whole tables never take them for corrupt.**
* `Site.Orderly.never_corrupt`: the same for runs, with the loop and with scans under way.
-/

namespace ObjectCatalog

/-! ## Reads that succeed -/

namespace AliasCache

variable {c : AliasCache} {aliases : List AliasPiece}

theorem exists_piecesOf (hknows : c.knows aliases = true) :
    ∃ pieces, c.piecesOf aliases = .ok pieces := by
  refine Except.exists_mapM_eq_ok fun p hp => ?_
  obtain ⟨node, hnode⟩ := Option.isSome_iff_exists.1 (List.all_eq_true.1 hknows p hp)
  rw [hnode]
  exact ⟨_, rfl⟩

/-- A cache that remembers a table knows the aliases that the table covers. -/
theorem knows_remember {t : NodeTable} (hc : t.Covers aliases) :
    (c.remember t.rows.rows).knows aliases = true := by
  refine List.all_eq_true.2 fun p hp => ?_
  rw [node?_remember, Option.isSome_or, Bool.or_eq_true]
  exact .inl (hc p hp)

end AliasCache

namespace Lookup

variable {α β : Type} {t : NodeTable} {l : Lookup α} {f : α → Lookup β}

/-- A read that succeeds whatever the cache holds. -/
def Succeeds (l : Lookup α) : Prop := ∀ c : AliasCache, ∃ v, (l.run c).1 = .ok v

theorem succeeds_pure (v : α) : Succeeds (pure v : Lookup α) := fun _ => ⟨v, rfl⟩

theorem Succeeds.bind (h : Succeeds l) (hf : ∀ v, Succeeds (f v)) : Succeeds (l >>= f) := by
  intro c
  obtain ⟨v, hv⟩ := h c
  rw [run_bind]
  rcases hrun : l.run c with ⟨e | v', c'⟩
  · rw [hrun] at hv
    cases hv
  · exact hf v' c'

theorem succeeds_lift_bind {x : Except Error α} {v : α} (hx : x = .ok v) (hf : Succeeds (f v)) :
    Succeeds (liftM x >>= f) := by
  rw [hx]
  exact hf

theorem Succeeds.mapM {f : β → Lookup α} {xs : List β} (hf : ∀ x ∈ xs, Succeeds (f x)) :
    Succeeds (xs.mapM f) := by
  induction xs with
  | nil => rw [List.mapM_nil]; exact succeeds_pure _
  | cons x rest ih =>
    rw [List.mapM_cons]
    refine (hf x List.mem_cons_self).bind fun y => ?_
    exact (ih fun z hz => hf z (List.mem_cons_of_mem _ hz)).bind fun ys => succeeds_pure _

/-- **Aliases that the table covers are found,** in the cache or in the table. -/
theorem succeeds_pieces {aliases : List AliasPiece} (hc : t.Covers aliases) :
    Succeeds (Lookup.pieces t aliases) := by
  intro c
  have hrun : (Lookup.pieces t aliases).run c =
      ((if c.knows aliases then c else c.remember t.rows.rows).piecesOf aliases,
        if c.knows aliases then c else c.remember t.rows.rows) := rfl
  rw [hrun]
  refine AliasCache.exists_piecesOf ?_
  cases hknows : c.knows aliases with
  | true => exact hknows
  | false => exact AliasCache.knows_remember hc

end Lookup

namespace Store

variable {s : Store} {r : SegmentRow} {rows : List SegmentRow}

/-- **Every segment of whole tables can be resolved,** whether copies are read through their
ancestors or not. -/
theorem Whole.succeeds_resolve (hs : s.Whole) (hr : r ∈ s.segments.rows) (serverSideCopy : Bool) :
    (s.resolve serverSideCopy r).Succeeds := by
  have hshaped := hs.coherent.shaped r hr
  have hpieces : ∀ r' : SegmentRow, (∃ l, Blob.stored r'.blob = .ok l ∧ s.nodes.Covers l) →
      s.withAncestor serverSideCopy r = .ok r' → (s.resolve serverSideCopy r).Succeeds := by
    rintro r' ⟨l, hl, hcovers⟩ hw
    refine Lookup.succeeds_lift_bind hw (Lookup.succeeds_lift_bind hl ?_)
    exact (Lookup.succeeds_pieces hcovers).bind fun _ => Lookup.succeeds_pure _
  cases serverSideCopy with
  | false => exact hpieces r hshaped.stored rfl
  | true =>
    cases hneeds : r.piecesInAncestor with
    | false => exact hpieces r hshaped.stored (withAncestor_self hneeds true)
    | true =>
      -- the only rows that are read with another one
      obtain ⟨a, k, hanc, hk⟩ := hs.exists_ancestor hr hneeds
      have hkShaped := hs.coherent.shaped k (row?_eq_some_iff.1 hk).1
      exact hpieces (r.withPiecesOf k) hkShaped.stored
        (withAncestor_some hshaped hkShaped hneeds hanc hk)

theorem Coherent.require_ok (hs : s.Coherent) (hrows : ∀ r ∈ rows, r ∈ s.segments.rows)
    (statement : Statement) : SegmentRow.require statement (·.isReadable) rows = .ok () :=
  SegmentRow.require_of_forall (fun r hr => (hs.shaped r (hrows r hr)).isReadable) statement

/-- The rows of a batch can be read. -/
theorem Coherent.exists_fetch (hs : s.Coherent) (scan : SegmentScan) :
    ∃ rows scan', scan.fetch s = .ok (rows, scan') ∧ ∀ r ∈ rows, r ∈ s.segments.rows := by
  unfold SegmentScan.fetch
  split
  · exact ⟨[], scan, rfl, fun r hr => absurd hr List.not_mem_nil⟩
  · have hrows : ∀ r ∈ (scan.rest s).take scan.batchSize, r ∈ s.segments.rows := fun r hr =>
      (List.mem_filter.1 (List.mem_of_mem_take hr)).1
    dsimp only
    rw [hs.require_ok hrows .scanSegments]
    exact ⟨_, _, rfl, hrows⟩

theorem Whole.succeeds_resolveBatch (hs : s.Whole) (hrows : ∀ r ∈ rows, r ∈ s.segments.rows)
    (serverSideCopy : Bool) : (s.resolveBatch serverSideCopy rows).Succeeds := by
  rw [resolveBatch_eq]
  exact Lookup.Succeeds.mapM fun r hr => hs.succeeds_resolve (hrows r hr) serverSideCopy

theorem Whole.succeeds_resolveAll (hs : s.Whole) (hrows : ∀ r ∈ rows, r ∈ s.segments.rows)
    (serverSideCopy : Bool) (statement : Statement) :
    (s.resolveAll serverSideCopy statement rows).Succeeds :=
  Lookup.succeeds_lift_bind (hs.coherent.require_ok hrows statement) <|
    hs.succeeds_resolveBatch hrows serverSideCopy

/-- What coherent tables hold can be told when it is removed. -/
theorem Coherent.succeeds_release (hs : s.Coherent) (hrows : ∀ r ∈ rows, r ∈ s.segments.rows) :
    (SegmentRow.release s.nodes rows).Succeeds := by
  refine Lookup.Succeeds.mapM fun r hr => ?_
  obtain ⟨l, hl, hcovers⟩ := (hs.shaped r (hrows r (List.mem_filter.1 hr).1)).stored
  refine Lookup.succeeds_lift_bind hl ?_
  exact (Lookup.succeeds_pieces hcovers).bind fun _ => Lookup.succeeds_pure _

end Store

/-! ## Aliases are found once nodes have them -/

namespace AliasCache

/-- A cache knows the nodes that it knew, and those of the rows that it remembers. -/
theorem aliasOf?_remember {c : AliasCache} {rows : List NodeRow} {node : NodeId}
    (h : (c.aliasOf? node).isSome = true ∨ ∃ r ∈ rows, r.node = node) :
    ((c.remember rows).aliasOf? node).isSome = true := by
  induction rows generalizing c with
  | nil =>
    rcases h with hknown | ⟨r, hr, -⟩
    · exact hknown
    · exact absurd hr List.not_mem_nil
  | cons r rest ih =>
    refine ih (c := c.insert r) ?_
    have hinsert : ∀ n, (c.insert r).aliasOf? n = if r.node = n then some r.short else c.aliasOf? n := by
      intro n
      unfold aliasOf? insert
      rw [Table.find?_insert]
      split <;> rfl
    rw [hinsert]
    by_cases hnode : r.node = node
    · rw [if_pos hnode]
      exact .inl rfl
    · rw [if_neg hnode]
      rcases h with hknown | ⟨r', hr', hnode'⟩
      · exact .inl hknown
      · rcases List.mem_cons.1 hr' with rfl | hr'
        · exact absurd hnode' hnode
        · exact .inr ⟨r', hr', hnode'⟩

end AliasCache

namespace Catalog

variable {α β : Type} {c : Catalog} {s s' : Store} {R : Error → Store → Prop} {e : Error}

/-- A call that never takes the tables for corrupt. -/
abbrev Trusting (s : Store) (a : Action α) : Prop :=
  FailsWith (fun e _ => e.isCorruption = false) s a

/-- A call that fails with nothing succeeds. -/
theorem exists_ok {a : Action α} (ha : FailsWith (fun _ _ => False) s a) (hc : c.Open s) :
    ∃ v, (c.run a).1 = .ok v := by
  cases hout : (c.run a).1 with
  | ok v => exact ⟨v, rfl⟩
  | error e =>
    obtain ⟨_, -, hno⟩ := ha c hc e (failure?_eq_some.2 hout)
    exact hno.elim

theorem failsWith_ok_bind {x : Except Error α} {v : α} {f : α → Action β} (hx : x = .ok v)
    (hf : FailsWith R s (f v)) : FailsWith R s (liftM x >>= f) := by
  rw [hx]
  exact hf

/-- A call that fails at once with one failure, whatever it is run on. -/
theorem failsWith_of_run {a : Action α} (hrun : ∀ c : Catalog, c.run a = (.error e, c)) (he : R e s) :
    FailsWith R s a := by
  intro c hc e' he'
  rw [failure?_eq_some, hrun c] at he'
  cases he'
  exact ⟨s, by rw [hrun c]; exact hc, he⟩

theorem failsWith_reading {l : Lookup α} (hl : l.Succeeds) : FailsWith R s (reading l) := by
  intro c hc e he
  obtain ⟨v, hv⟩ := hl c.cache
  rw [failure?_eq_some, run_reading] at he
  have hout : (l.run c.cache).1 = .error e := he
  rw [hv] at hout
  cases hout

/-! ## Uploads -/

/-- A start that fails has found its version taken, or cannot read its row back. -/
theorem trusting_start {o : ObjectRow} {taken : Error} {statement : Statement}
    (htaken : taken.isCorruption = false) : Trusting s (do
      if s.objects.contains o.id then throw taken
      commit (s.addObject o)
      o.view statement) := by
  intro c hc e hfail
  rcases start_failure hc hfail with ⟨rfl, hopen⟩ | ⟨hview, hopen⟩
  · exact ⟨s, hopen, htaken⟩
  · exact ⟨_, hopen, trusts_view statement o e hview⟩

theorem trusting_beginNextVersion (now : Instant) (r : BeginObject) :
    Trusting s (beginNextVersion now r) := by
  refine failsWith_lift_bind (trusts_begin r) fun metadata _ => failsWith_reject_bind rfl fun _ => ?_
  exact failsWith_tables_bind (failsWith_get_bind fun _ _ => trusting_start rfl)

theorem trusting_beginExactVersion (now : Instant) (r : BeginObject) :
    Trusting s (beginExactVersion now r) := by
  refine failsWith_lift_bind (trusts_begin r) fun metadata _ => failsWith_reject_bind rfl fun _ => ?_
  exact failsWith_tables_bind (failsWith_get_bind fun _ _ => trusting_start rfl)

theorem trusting_beginSegment (r : BeginSegment) : Trusting s (beginSegment r) := by
  refine failsWith_lift_bind (trusts_beginSegment r) fun _ _ => failsWith_tables_bind ?_
  exact failsWith_lift_bind (trusts_pending _) fun _ _ => failsWith_pure _

theorem trusts_missing (cache : AliasCache) (nodes : List NodeId) : Trusts (cache.missing nodes) := by
  unfold AliasCache.missing
  dsimp only
  split
  · exact trusts_throw rfl
  · exact trusts_pure _

theorem trusting_ensureNodes (nodes : List NodeId) : Trusting s (ensureNodes nodes) := by
  refine failsWith_get_bind fun c _ => ?_
  refine failsWith_lift_bind (trusts_missing c.cache nodes) fun found _ => ?_
  cases found.isEmpty with
  | true => exact failsWith_pure _
  | false =>
    refine failsWith_tables_bind ?_
    cases s.nodes.addAll found with
    | none => exact failsWith_throw rfl
    | some table => exact fun _ _ _ he => by cases he

/-- Nodes that were given aliases are known to the cache. -/
theorem known_of_ensureNodes (hc : c.Open s) {nodes : List NodeId} {u : Unit} {c' : Catalog}
    (hrun : c.run (ensureNodes nodes) = (.ok u, c')) :
    ∀ n ∈ nodes, (c'.cache.aliasOf? n).isSome = true := by
  intro n hn
  unfold ensureNodes at hrun
  rw [run_get_bind, run_lift_bind] at hrun
  cases hmissing : c.cache.missing nodes with
  | error e => rw [hmissing] at hrun; cases hrun
  | ok found =>
    rw [hmissing] at hrun
    have hfound : found = nodes.filter fun n => (c.cache.aliasOf? n).isNone := by
      unfold AliasCache.missing at hmissing
      dsimp only at hmissing
      split at hmissing
      · cases hmissing
      · cases hmissing
        rfl
    -- a node is known, or is one of those that aliases are sought for
    have hsought : (c.cache.aliasOf? n).isSome = true ∨ n ∈ found := by
      cases hknown : c.cache.aliasOf? n with
      | some short => exact .inl rfl
      | none =>
        refine .inr ?_
        rw [hfound, List.mem_filter, hknown]
        exact ⟨hn, rfl⟩
    dsimp only at hrun
    cases hempty : found.isEmpty with
    | true =>
      rw [hempty] at hrun
      cases hrun
      rcases hsought with hknown | hmem
      · exact hknown
      · rw [List.isEmpty_iff.1 hempty] at hmem
        exact absurd hmem List.not_mem_nil
    | false =>
      rw [hempty] at hrun
      simp only [Bool.false_eq_true, if_false] at hrun
      rw [run_tables_bind hc.store] at hrun
      cases hadd : s.nodes.addAll found with
      | none => rw [hadd] at hrun; cases hrun
      | some table =>
        rw [hadd] at hrun
        cases hrun
        refine AliasCache.aliasOf?_remember ?_
        -- a node that was not known has a row now, which the cache has read back
        rcases hsought with hknown | hmem
        · exact .inl hknown
        · obtain ⟨-, -, hall⟩ := hc.aliases.addAll (AliasCache.known_of_missing hmissing) hadd
          obtain ⟨row, hrow, rfl⟩ := hall n hmem
          exact .inr ⟨row, List.mem_filter.2 ⟨hrow, decide_eq_true hmem⟩, rfl⟩

/-- **Pieces in stored form are found:** their nodes have aliases by then. -/
theorem trusting_aliasesOf (pieces : List Piece) : Trusting s (aliasesOf pieces) := by
  intro c hc e he
  have hensure := trusting_ensureNodes (s := s) (pieces.map (·.node)) c hc
  unfold aliasesOf at he ⊢
  rcases hrun : c.run (ensureNodes (pieces.map (·.node))) with ⟨e' | u, c'⟩
  · have hfailed : c.failure? (ensureNodes (pieces.map (·.node))) = some e := by
      rw [failure?_eq_some, run_bind_error hrun] at he
      rw [failure?_eq_some, hrun]
      exact congrArg Except.error (Except.error.inj he)
    obtain ⟨s', hopen, hbenign⟩ := hensure e hfailed
    rw [run_bind_error hrun]
    rw [hrun] at hopen
    exact ⟨s', hopen, hbenign⟩
  · rw [failure?_bind hrun] at he
    have hfailed : c'.cache.aliasesOf pieces = .error e := failure?_eq_some.1 he
    obtain ⟨aliases, hok⟩ : ∃ aliases, c'.cache.aliasesOf pieces = .ok aliases := by
      refine Except.exists_mapM_eq_ok fun p hp => ?_
      have hknown := known_of_ensureNodes hc hrun p.node (List.mem_map_of_mem hp)
      obtain ⟨short, hshort⟩ := Option.isSome_iff_exists.1 hknown
      rw [hshort]
      exact ⟨_, rfl⟩
    rw [hok] at hfailed
    cases hfailed

theorem trusting_commitSegment (now : Instant) (r : CommitSegment) :
    Trusting s (commitSegment now r) := by
  refine failsWith_get_bind fun c _ => failsWith_lift_bind (trusts_commitSegment r _) fun _ _ => ?_
  refine (trusting_aliasesOf r.pieces).bind (sameRows_aliasesOf r.pieces) fun aliases s₁ _ => ?_
  exact failsWith_tables_bind (failsWith_lift_bind (trusts_pending _) fun _ _ => failsWith_commit)

theorem trusting_commitInlineSegment (now : Instant) (r : CommitInlineSegment) :
    Trusting s (commitInlineSegment now r) := by
  refine failsWith_lift_bind (trusts_commitInlineSegment r) fun _ _ => failsWith_tables_bind ?_
  exact failsWith_lift_bind (trusts_pending _) fun _ _ => failsWith_commit

theorem trusting_commitObject (r : CommitObject) : Trusting s (commitObject r) := by
  refine failsWith_lift_bind (trusts_commitObject r) fun metadata _ => failsWith_tables_bind ?_
  refine failsWith_lift_bind (trusts_pendingForCommit _) fun o _ => ?_
  refine failsWith_lift_bind (trusts_require _ _ _) fun _ _ => failsWith_get_bind fun c _ => ?_
  exact failsWith_lift_bind (trusts_complete _ _ _ _ _) fun out _ => failsWith_commit_bind

theorem trusting_commitObjectWithSegments (hs : s.Coherent) (r : CommitObjectWithSegments) :
    Trusting s (commitObjectWithSegments r) := by
  refine failsWith_lift_bind (trusts_commitObject _) fun metadata _ => ?_
  refine failsWith_lift_bind (trusts_ascending _) fun _ _ => failsWith_tables_bind ?_
  refine failsWith_lift_bind (trusts_pendingForCommit _) fun o _ => ?_
  refine failsWith_lift_bind (trusts_require _ _ _) fun _ _ => ?_
  dsimp only
  cases r.segments.find? fun p => !(s.segmentsOf r.commit.stream.stream).any fun x =>
      decide (x.place = p) with
  | some absent => exact failsWith_throw_bind rfl
  | none =>
    dsimp only
    rw [List.partition_eq_filter_filter]
    have hdropped : ∀ row ∈ (s.segmentsOf r.commit.stream.stream).filter (fun row =>
        !decide (row.place ∈ r.segments)), row ∈ s.segments.rows := fun row hrow =>
      (Store.mem_segmentsOf.1 (List.mem_filter.1 hrow).1).1
    refine (failsWith_reading (hs.succeeds_release hdropped)).quiet_bind
      (quiet_reading (SegmentRow.gives_release _ _).learns) fun released => ?_
    refine failsWith_get_bind fun c _ => ?_
    exact failsWith_lift_bind (trusts_complete _ _ _ _ _) fun out _ => failsWith_commit_bind

theorem trusting_updateMetadata (r : UpdateMetadata) : Trusting s (updateMetadata r) := by
  refine failsWith_lift_bind (trusts_stream _) fun _ _ => ?_
  refine failsWith_lift_bind (trusts_metadata _) fun metadata _ => failsWith_tables_bind ?_
  cases s.objectOf? r.stream .committed with
  | none => exact failsWith_throw rfl
  | some o => exact failsWith_commit

/-! ## Copies -/

theorem trusting_beginCopy (r : BeginCopy) : Trusting s (beginCopy r) := by
  refine failsWith_lift_bind (trusts_location _) fun _ _ => failsWith_reject_bind rfl fun _ => ?_
  cases r.version with
  | some version =>
    refine failsWith_tables_bind (failsWith_lift_bind (trusts_exactCommitted _ _) fun _ _ => ?_)
    exact failsWith_pure _
  | none =>
    refine failsWith_tables_bind (failsWith_lift_bind (trusts_latestCommitted _) fun _ _ => ?_)
    exact failsWith_pure _

theorem trusting_finishCopy (hb : s.Booked) (now : Instant) (r : FinishCopy)
    (hfew : (s.segmentsOf r.source.stream).length < 2147483648) :
    Trusting s (finishCopy now r) := by
  refine failsWith_lift_bind (trusts_copy r) fun _ _ => failsWith_tables_bind ?_
  exact failsWith_lift_bind (trusts_finishCopy hb now r hfew) fun out _ => failsWith_commit_bind

/-! ## Deletions -/

theorem trusting_deleteRows (hs : s.Coherent) {statement : Statement} {rows : List ObjectRow}
    (hstored : ∀ o ∈ rows, o ∈ s.objects.rows) (hnodup : rows.Nodup) :
    Trusting s (deleteRows statement s rows) := by
  intro c hc e he
  obtain ⟨s', hopen, hends⟩ := run_deleteRows statement hc hstored hnodup
  rw [failure?_eq_some.1 he] at hends
  have hunread := hends.unread_of_error hs hstored hnodup
  exact ⟨s', hopen, trusts_mapM (fun o _ => trusts_view statement o) e hunread⟩

theorem trusting_deleteSomeRows (hs : s.Coherent) {statement : Statement} {rows : List ObjectRow}
    (hstored : ∀ o ∈ rows, o ∈ s.objects.rows) (hnodup : rows.Nodup) :
    Trusting s (deleteSomeRows statement s rows) := by
  unfold deleteSomeRows
  split
  · exact failsWith_throw rfl
  · exact trusting_deleteRows hs hstored hnodup

/-- A sweep trusts the tables that each of its batches leaves. -/
theorem trusting_sweepRounds (hs : s.Coherent) {statement : Statement}
    {due : Store → List ObjectRow} (hdue : Chooses due) (size rounds : Nat) :
    Trusting s (sweepRounds statement due size rounds) := by
  induction rounds generalizing s with
  | zero => exact failsWith_pure _
  | succ rounds ih =>
    refine failsWith_tables_bind ?_
    dsimp only
    obtain ⟨hstored, hnodup⟩ := hdue.batch (s := s) size
    -- what is left of a sweep needs coherent tables only, and a batch keeps them coherent
    have hleaves : Does (fun _ s₁ => s₁.Coherent) s (deleteRows statement s ((due s).take size)) := by
      intro c hc
      obtain ⟨s₁, hopen, hchanges, -⟩ := sheds_deleteRows statement hstored hnodup c hc
      exact ⟨s₁, hopen, (hchanges.mono (Terms.none_within _)).coherent hs⟩
    refine (trusting_deleteRows hs hstored hnodup).bind hleaves fun d s₁ hs₁ => ?_
    split
    · exact failsWith_pure _
    · have hrest : Does (fun _ _ => True) s₁ (sweepRounds statement due size rounds) := by
        intro c hc
        obtain ⟨s₂, hopen, -⟩ := sheds_sweepRounds statement hdue size rounds c hc
        exact ⟨s₂, hopen, trivial⟩
      exact (ih hs₁).bind hrest fun _ _ _ => failsWith_pure _

theorem trusting_sweep (hs : s.Coherent) {statement : Statement} {due : Store → List ObjectRow}
    (hdue : Chooses due) (size : Nat) : Trusting s (sweep statement due size) :=
  failsWith_tables_bind (trusting_sweepRounds hs hdue _ _)

theorem trusting_delete (hs : s.Coherent) (call : DeleteCall) : Trusting s call.action := by
  have hoption : ∀ (statement : Statement) (found : Option ObjectRow),
      (∀ o, found = some o → o ∈ s.objects.rows) →
        Trusting s (deleteSomeRows statement s found.toList) := by
    intro statement found hstored
    exact trusting_deleteSomeRows hs (fun o ho => hstored o (Option.mem_toList.1 ho))
      (Option.toList_nodup found)
  cases call with
  | pending stream =>
    refine failsWith_lift_bind (trusts_stream _) fun _ _ => failsWith_tables_bind ?_
    exact hoption _ _ fun o ho => (Store.objectOf?_eq_some ho).1
  | exactVersion l version =>
    refine failsWith_lift_bind (trusts_location _) fun _ _ => failsWith_reject_bind rfl fun _ => ?_
    exact failsWith_tables_bind (hoption _ _ fun o ho => (Table.find?_eq_some_iff.1 ho).1)
  | allVersions l =>
    refine failsWith_lift_bind (trusts_location _) fun _ _ => failsWith_tables_bind ?_
    exact trusting_deleteSomeRows hs (fun _ ho => (List.mem_filter.1 ho).1)
      (s.objects.nodup.filter _)
  | committedVersions locations =>
    cases locations with
    | nil => exact failsWith_pure _
    | cons first rest =>
      refine failsWith_lift_bind (trusts_oneBucket _ _) fun _ _ => failsWith_tables_bind ?_
      dsimp only
      split
      · exact failsWith_throw_bind rfl
      · exact trusting_deleteRows hs (fun _ ho => (List.mem_filter.1 ho).1)
          (s.objects.nodup.filter _)
  | expired before batchSize => exact trusting_sweep hs ((chooses_filter _).byTime _) _
  | zombies before inactiveSince batchSize =>
    exact trusting_sweep hs ((chooses_filter _).byTime _) _
  | bucket project name batchSize =>
    exact failsWith_reject_bind rfl fun _ => failsWith_reject_bind rfl fun _ =>
      trusting_sweep hs (chooses_filter _) _

/-! ## Reads -/

theorem trusting_getExactVersion (l : Location) (version : Int64) :
    Trusting s (getExactVersion l version) := by
  refine failsWith_lift_bind (trusts_location l) fun _ _ => failsWith_reject_bind rfl fun _ => ?_
  exact failsWith_tables_bind (failsWith_lift (trusts_exactCommitted l version))

theorem trusting_getLatestVersion (l : Location) : Trusting s (getLatestVersion l) := by
  refine failsWith_lift_bind (trusts_location l) fun _ _ => failsWith_tables_bind ?_
  exact failsWith_lift (trusts_latestCommitted l)

/-- A row of whole tables is always resolved. -/
theorem failsWith_resolve (hs : s.Whole) {row : SegmentRow} (hrow : row ∈ s.segments.rows)
    (statement : Statement) : FailsWith R s (resolve s statement row) := by
  have hread : ∀ r ∈ [row], r ∈ s.segments.rows := fun r hr => List.mem_singleton.1 hr ▸ hrow
  refine failsWith_ok_bind (hs.coherent.require_ok hread statement) ?_
  exact failsWith_get_bind fun c _ => failsWith_reading (hs.succeeds_resolve hrow _)

theorem trusting_getSegment (hs : s.Whole) (x : StreamId) (p : Position) :
    Trusting s (getSegment x p) := by
  refine failsWith_reject_bind rfl fun _ => failsWith_tables_bind ?_
  cases hfound : s.segment? x p with
  | none => exact failsWith_throw rfl
  | some row => exact failsWith_resolve hs (Table.find?_eq_some_iff.1 hfound).1 _

theorem trusting_getLastSegment (hs : s.Whole) (l : Location) : Trusting s (getLastSegment l) := by
  refine failsWith_lift_bind (trusts_location l) fun _ _ => failsWith_tables_bind ?_
  refine failsWith_lift_bind (trusts_latestCommitted l) fun object _ => ?_
  dsimp only
  cases hlast : (s.segmentsOf object.stream.stream).getLast? with
  | none => exact failsWith_throw rfl
  | some row =>
    exact failsWith_resolve hs (Store.mem_segmentsOf.1 (List.mem_of_getLast? hlast)).1 _

theorem trusting_listSegments (hs : s.Whole) (x : StreamId) (cursor : Option Position)
    (limit : Nat) : Trusting s (listSegments x cursor limit) := by
  refine failsWith_reject_bind rfl fun _ => failsWith_tables_bind ?_
  have hread : ∀ n, ∀ r ∈ (s.segmentsAfter x cursor).take n, r ∈ s.segments.rows := by
    intro n r hr
    have hafter := List.mem_of_mem_take hr
    exact (Store.mem_segmentsOf.1 (List.mem_filter.1 hafter).1).1
  have hpage : ∀ rows, (∀ r ∈ rows, r ∈ s.segments.rows) →
      Trusting s (resolveAll s .listSegments rows) := fun rows hrows =>
    failsWith_get_bind fun c _ => failsWith_reading (hs.succeeds_resolveAll hrows _ _)
  refine failsWith_ok_bind (hs.coherent.require_ok (hread _) .listSegments) ?_
  refine (hpage _ ?_).quiet_bind (quiet_resolveAll _ _) fun _ => failsWith_pure _
  intro r hr
  exact hread _ r (List.mem_of_mem_take hr)

theorem trusting_listObjects (r : ListObjects) : Trusting s (listObjects r) :=
  failsWith_lift_bind (trusts_startListing r) fun l _ => failsWith_get_bind fun c _ =>
    failsWith_lift (trusts_drainListing c.store (c.rowCount + 1) l)

theorem trusting_listPending (r : ListPending) : Trusting s (listPending r) :=
  failsWith_lift_bind (trusts_startPending r) fun l _ => failsWith_get_bind fun c _ =>
    failsWith_lift (trusts_drainPending c.store (c.rowCount + 1) l)

theorem trusting_scanObjects (now : Instant) (batchSize : Nat) (asOf : Option Instant) :
    Trusting s (scanObjects now batchSize asOf) :=
  failsWith_get_bind fun c _ => failsWith_lift (trusts_drainObjects c.store _ _)

/-- Aliases that nodes have are translated. -/
theorem failsWith_piecesOf {aliases : List AliasPiece} (hcovers : s.nodes.Covers aliases) :
    FailsWith R s (piecesOf aliases) := by
  refine failsWith_get_bind fun c _ => ?_
  cases hknows : c.cache.knows aliases with
  | true =>
    obtain ⟨pieces, hok⟩ := AliasCache.exists_piecesOf hknows
    exact failsWith_lift fun e he => by
      rw [hok] at he
      cases he
  | false =>
    exact failsWith_tables_bind (failsWith_reading (Lookup.succeeds_pieces hcovers))

/-! ## Scans of segments -/

section Scans

variable {scan : SegmentScan} (hs : s.Whole)

include hs

/-- **The next batch of a scan of whole tables is found,** if there can be room for it. -/
theorem exists_nextSegments (hstore : c.store = some s) (hscan : scan.Whole)
    (hroom : scan.overflows = false) :
    ∃ batch, (StateT.run (nextSegments scan) c).1.1 = .ok batch := by
  obtain ⟨s₀, hs₀, hwhole⟩ : ∃ s₀, scan.snapshot.or c.store = some s₀ ∧ s₀.Whole := by
    cases hsnapshot : scan.snapshot with
    | some s₀ => exact ⟨s₀, rfl, hscan s₀ hsnapshot⟩
    | none => exact ⟨s, hstore, hs⟩
  -- the tables that the scan reads may be older than those of the handle
  obtain ⟨rows, scan', hfetch, hrows⟩ :=
    hwhole.coherent.exists_fetch { scan with snapshot := some s₀ }
  obtain ⟨segments, hresolved⟩ :=
    hwhole.succeeds_resolveBatch hrows c.settings.serverSideCopy c.cache
  refine ⟨segments.map (·.forLoop), ?_⟩
  rw [run_nextSegments, hroom, if_neg Bool.false_ne_true]
  unfold fetchSegments
  rw [StateT.run_bind, StateT.run_get, pure_bind, hs₀]
  dsimp only
  rw [hfetch]
  exact congrArg (Except.map (·.map (·.forLoop))) hresolved

theorem failsWith_nextSegments_bind {f : Except Error (List LoopSegment) × SegmentScan → Action β}
    (hof : scan.Of s.nodes) (hscan : scan.Whole) (hroom : scan.batchSize ≤ SegmentScan.capacity)
    (hf : ∀ batch scan', scan'.Of s.nodes → scan'.Whole → scan'.batchSize = scan.batchSize →
      FailsWith R s (f (.ok batch, scan'))) :
    FailsWith R s (liftM (nextSegments scan) >>= f) := by
  intro c hc e he
  obtain ⟨hopen, hof'⟩ := open_nextSegments hc hof
  have hwhole := whole_nextSegments (c := c) hscan fun s₁ h₁ => by
    rw [hc.store, Option.some.injEq] at h₁
    exact h₁ ▸ hs
  obtain ⟨batch, hbatch⟩ := exists_nextSegments hs hc.store hscan (overflows_of_le hroom)
  have hrest := hf batch _ hof' hwhole (batchSize_nextSegments scan c) _ hopen e
  rw [← hbatch] at hrest
  exact hrest he

theorem failsWith_drainSegments (limit : Nat) (hof : scan.Of s.nodes) (hscan : scan.Whole)
    (hroom : scan.batchSize ≤ SegmentScan.capacity) :
    FailsWith R s (drainSegments limit scan) := by
  induction limit generalizing scan with
  | zero => exact failsWith_pure _
  | succ limit ih =>
    refine failsWith_nextSegments_bind hs hof hscan hroom fun batch scan' hof' hscan' hsize => ?_
    refine failsWith_ok_bind rfl ?_
    cases batch with
    | nil => exact failsWith_pure _
    | cons entry rest =>
      exact (ih hof' hscan' (hsize ▸ hroom)).quiet_bind (quiet_drainSegments _ hof') fun _ =>
        failsWith_pure _

theorem failsWith_feedBatches {σ : Type} (limit : Nat) (hof : scan.Of s.nodes) (hscan : scan.Whole)
    (hroom : scan.batchSize ≤ SegmentScan.capacity) (summary : LoopSummary) (watches : List (Watch σ)) :
    FailsWith R s (feedBatches limit scan summary watches) := by
  induction limit generalizing scan summary watches with
  | zero => exact failsWith_pure _
  | succ limit ih =>
    refine failsWith_nextSegments_bind hs hof hscan hroom fun batch scan' hof' hscan' hsize => ?_
    refine failsWith_ok_bind rfl ?_
    cases batch with
    | nil => exact failsWith_pure _
    | cons entry rest => exact ih hof' hscan' (hsize ▸ hroom) _ _

/-- **A scan of segments does not fail on whole tables,** if there can be room for its batches. -/
theorem failsWith_scanSegments {n : Nat} (hroom : loopBatch n ≤ SegmentScan.capacity) (now : Instant)
    (asOf : Option Instant) : FailsWith R s (scanSegments now n asOf) :=
  failsWith_get_bind fun _ _ => failsWith_drainSegments hs _ (.start _ now n asOf)
    (SegmentScan.whole_start now n asOf) hroom

/-- **The segment loop does not fail on whole tables,** whatever its observers do, if there can be room
for its batches. -/
theorem failsWith_runLoop {σ : Type} {n : Nat} (hroom : loopBatch n ≤ SegmentScan.capacity)
    (now : Instant) (asOf : Option Instant) (observers : List (Observer σ × σ))
    (registry : Registry) : FailsWith R s (runLoop now n asOf observers registry) := by
  refine failsWith_get_bind fun c _ => ?_
  have hof : (SegmentScan.start now n asOf).Of s.nodes := .start _ now n asOf
  have hscan := SegmentScan.whole_start now n asOf
  exact (failsWith_feedBatches hs _ hof hscan hroom _ _).quiet_bind (quiet_feedBatches _ hof _ _)
    fun _ => failsWith_pure _

theorem trusting_scanSegments (now : Instant) (n : Nat) (asOf : Option Instant) :
    Trusting s (scanSegments now n asOf) := by
  by_cases hroom : loopBatch n ≤ SegmentScan.capacity
  · exact failsWith_scanSegments hs hroom now asOf
  · exact failsWith_of_run
      (fun c => run_scanSegments_of_overflow (Nat.not_le.1 hroom) c now asOf) rfl

theorem trusting_runLoop {σ : Type} (now : Instant) (n : Nat) (asOf : Option Instant)
    (observers : List (Observer σ × σ)) (registry : Registry) :
    Trusting s (runLoop now n asOf observers registry) := by
  by_cases hroom : loopBatch n ≤ SegmentScan.capacity
  · exact failsWith_runLoop hs hroom now asOf observers registry
  · exact failsWith_of_run
      (fun c => run_runLoop_of_overflow (Nat.not_le.1 hroom) c now asOf observers registry) rfl

end Scans

end Catalog

/-! ## All calls -/

/-- **No call on whole tables with right numbers takes them for corrupt,** unless it is asked to
translate aliases that no node has. -/
theorem Call.trusting {c : Catalog} {s : Store} (hc : c.Open s) (hs : s.Whole) (hb : s.Booked)
    (hfew : ∀ x, (s.segmentsOf x).length < 2147483648) (now : Instant) (call : Call)
    (hknown : ∀ aliases, call = .piecesOf aliases → s.nodes.Covers aliases) {e : Error}
    (hfail : call.failure? now c = some e) : e.isCorruption = false := by
  have hleft : ∀ {α : Type} {a : Catalog.Action α}, Catalog.Trusting s a →
      c.failure? a = some e → e.isCorruption = false := by
    intro α a ha hfail
    obtain ⟨_, -, hbenign⟩ := ha c hc e hfail
    exact hbenign
  cases call with
  | createTables => cases hfail
  | beginNextVersion r => exact hleft (Catalog.trusting_beginNextVersion now r) hfail
  | beginExactVersion r => exact hleft (Catalog.trusting_beginExactVersion now r) hfail
  | beginSegment r => exact hleft (Catalog.trusting_beginSegment r) hfail
  | commitSegment r => exact hleft (Catalog.trusting_commitSegment now r) hfail
  | commitInlineSegment r => exact hleft (Catalog.trusting_commitInlineSegment now r) hfail
  | commitObject r => exact hleft (Catalog.trusting_commitObject r) hfail
  | commitObjectWithSegments r =>
    exact hleft (Catalog.trusting_commitObjectWithSegments hs.coherent r) hfail
  | updateMetadata r => exact hleft (Catalog.trusting_updateMetadata r) hfail
  | beginCopy r => exact hleft (Catalog.trusting_beginCopy r) hfail
  | finishCopy r => exact hleft (Catalog.trusting_finishCopy hb now r (hfew _)) hfail
  | delete call => exact hleft (Catalog.trusting_delete hs.coherent call) hfail
  | getExactVersion l version => exact hleft (Catalog.trusting_getExactVersion l version) hfail
  | getLatestVersion l => exact hleft (Catalog.trusting_getLatestVersion l) hfail
  | getSegment x p => exact hleft (Catalog.trusting_getSegment hs x p) hfail
  | getLastSegment l => exact hleft (Catalog.trusting_getLastSegment hs l) hfail
  | listSegments x cursor limit =>
    exact hleft (Catalog.trusting_listSegments hs x cursor limit) hfail
  | listObjects r => exact hleft (Catalog.trusting_listObjects r) hfail
  | listPending r => exact hleft (Catalog.trusting_listPending r) hfail
  | scanObjects batchSize asOf => exact hleft (Catalog.trusting_scanObjects now batchSize asOf) hfail
  | scanSegments batchSize asOf =>
    exact hleft (Catalog.trusting_scanSegments hs now batchSize asOf) hfail
  | runLoop batchSize asOf observers registry =>
    exact hleft (Catalog.trusting_runLoop hs now batchSize asOf observers registry) hfail
  | ensureNodes nodes => exact hleft (Catalog.trusting_ensureNodes nodes) hfail
  | aliasesOf pieces => exact hleft (Catalog.trusting_aliasesOf pieces) hfail
  | piecesOf aliases => exact hleft (Catalog.failsWith_piecesOf (hknown aliases rfl)) hfail

/-! ## Runs -/

/-- **Tables that no handle of a site takes for corrupt,** whatever its settings are and whichever rows
of the alias table it has cached. -/
structure Site.Trusted (σ : Site) (s : Store) : Prop where
  /-- No call says that the tables are corrupt, except one that is asked to translate aliases that no
  node has. -/
  calls : ∀ h : Handle, h.cache.Within s.nodes → ∀ now (call : Call) e,
    call.failure? now (σ.catalog h) = some e →
      (∀ aliases, call = .piecesOf aliases → s.nodes.Covers aliases) → e.isCorruption = false
  /-- The segment loop comes to its end, if there can be room for its batches. If not it panics before
  it reads the tables, whatever they are. -/
  loops : ∀ h : Handle, h.cache.Within s.nodes → ∀ {τ : Type} now batchSize asOf
    (observers : List (Observer τ × τ)) registry,
      (loopBatch batchSize ≤ SegmentScan.capacity → ∃ out,
        ((σ.catalog h).run (Catalog.runLoop now batchSize asOf observers registry)).1 = .ok out) ∧
      (SegmentScan.capacity < loopBatch batchSize →
        (σ.catalog h).run (Catalog.runLoop now batchSize asOf observers registry) =
          (.error .capacityOverflow, σ.catalog h))
  /-- A scan of segments under way goes on, on this handle or another one, unless there can be no room
  for its batches. -/
  segmentScans : ∀ h h' : Handle, h'.cache.Within s.nodes → h ∈ σ.handles → ∀ scan ∈ h.scans,
    (scan.overflows = false →
      ∃ batch, (StateT.run (Catalog.nextSegments scan) (σ.catalog h')).1.1 = .ok batch) ∧
    (scan.overflows = true → StateT.run (Catalog.nextSegments scan) (σ.catalog h') =
      ((.error .capacityOverflow, scan), σ.catalog h'))
  objectScans : ∀ scan : ObjectScan, Trusts (scan.next σ.store).1
  listings : ∀ l : Listing, Trusts (l.next σ.store).1
  pendingListings : ∀ l : PendingListing, Trusts (l.next σ.store).1
  /-- Deletions, also those of a sweep's later batches, orphan no segment of a stream of which a copy
  stays: the copy that takes its place has a segment at every position. -/
  promotions : ∀ s₁, Changes Terms.none s s₁ → ∀ rows orphaned s₂,
    DeletionStep s₁ rows orphaned s₂ → ∀ k ∈ orphaned, s₁.heir? (goneStreams rows) k.stream = none

/-- **In runs with fresh stream ids and schemes that fit no tables are corrupt,** if no stream has too
many segments for a 32-bit count. -/
theorem Site.Orderly.never_corrupt {σ : Site} {s : Store} (hσ : σ.Orderly) (hs : σ.store = some s)
    (hfew : ∀ x, (s.segmentsOf x).length < 2147483648) : σ.Trusted s := by
  obtain ⟨s', hstands⟩ := hσ.reachable.stands
  have heq : s' = s := Option.some.inj (hstands.store.symm.trans hs)
  subst heq
  have hwhole : s'.Whole := hσ.whole.store s' hs
  -- a handle that is not of the site is open on its tables all the same
  have hopen : ∀ h : Handle, h.cache.Within s'.nodes → (σ.catalog h).Open s' := fun h hcache =>
    ⟨hs, hcache, hstands.aliases⟩
  constructor
  case calls =>
    intro h hcache now call e hfail hknown
    exact Call.trusting (hopen h hcache) hwhole (hσ.reachable.booked hs) hfew now call hknown hfail
  case loops =>
    intro h hcache τ now batchSize asOf observers registry
    refine ⟨fun hroom => ?_, fun hover => ?_⟩
    · exact Catalog.exists_ok (Catalog.failsWith_runLoop hwhole hroom now asOf observers registry)
        (hopen h hcache)
    · exact Catalog.run_runLoop_of_overflow hover (σ.catalog h) now asOf observers registry
  case segmentScans =>
    intro h h' hcache hh scan hscan
    refine ⟨fun hroom => ?_, fun hover => ?_⟩
    · exact Catalog.exists_nextSegments hwhole (hopen h' hcache).store
        (hσ.whole.scans h hh scan hscan) hroom
    · rw [Catalog.run_nextSegments, if_pos hover]
  case objectScans => exact fun scan => trusts_nextObjects scan σ.store
  case listings => exact fun l => trusts_nextEntry l σ.store
  case pendingListings => exact fun l => trusts_nextPending l σ.store
  case promotions =>
    intro s₁ hchanges rows orphaned s₂ hstep k hk
    have hcoherent := Changes.coherent (hchanges.mono (Terms.none_within _)) hwhole.coherent
    exact (hstep.orphaned_cases hcoherent hk).2.2

namespace Sample

theorem orderly_site : site.Orderly :=
  Site.Orderly.fresh.run (by decide +kernel) (by decide +kernel)

/-- A handle that has cached nothing, and reads copies through their ancestors. -/
def newcomer : Handle := { settings := {} }

end Sample

/-- The loop goes through an object and its two copies, and reports three segments. -/
theorem Sample.never_corrupt_site : ∃ s out, Sample.site.store = some s ∧ Sample.site.Trusted s ∧
    ((Sample.site.catalog newcomer).run (Catalog.runTally moment 2 .empty)).1 = .ok out ∧
      out.1 = ⟨3, 2⟩ := by
  obtain ⟨s, hstands⟩ := Sample.reachable_site.stands
  have hsegments : (Sample.site.store.map (·.segments.rows.length)) = some 3 := by decide +kernel
  rw [hstands.store, Option.map_some, Option.some.injEq] at hsegments
  have hfew : ∀ x, (s.segmentsOf x).length < 2147483648 := by
    intro x
    have hle : (s.segmentsOf x).length ≤ s.segments.rows.length := List.length_filter_le _ _
    omega
  have htrusted := Site.Orderly.never_corrupt Sample.orderly_site hstands.store hfew
  obtain ⟨out, hout⟩ := (htrusted.loops Sample.newcomer (AliasCache.within_empty _) Sample.moment 2
    none [(Tally.observer, {})] .empty).1 (by decide)
  have hsummary : (((Sample.site.catalog newcomer).run
      (Catalog.runTally moment 2 .empty)).1.toOption.map (·.1)) = some ⟨3, 2⟩ := by decide +kernel
  have hrun : ((Sample.site.catalog newcomer).run (Catalog.runTally moment 2 .empty)).1 = .ok out :=
    hout
  rw [hrun] at hsummary
  exact ⟨s, out, hstands.store, htrusted, hrun, Option.some.inj hsummary⟩

end ObjectCatalog
