import ObjectCatalog.Proofs.Coherence
import ObjectCatalog.Proofs.Outcomes

/-!
# What a copy stores

A copy that succeeds adds one object row, a row for each row of its source, and at most one copy
relation.

* `Store.nextVersion_free`: a version that can be read is taken by no row.
* `Store.Copied`: what a copy adds to the tables.
* `Store.Copied.row?_new`: a row of the copy beside the row of the source.
* `Store.Copied.coherent`: **a copy to a fresh stream keeps the tables coherent.**
-/

namespace ObjectCatalog

/-- Pairing takes every segment and every key in turn when there are as many of both. -/
theorem FinishCopy.pair_eq_ok {rows : List SegmentRow} {keys : List SegmentKey}
    {pairs : List (SegmentRow × SegmentKey)} (hpair : pair rows keys = .ok pairs)
    (hlen : rows.length = keys.length) :
    pairs.map (·.1) = rows ∧ pairs.map (·.2) = keys ∧ ∀ q ∈ pairs, q.1.place = q.2.position := by
  induction rows generalizing keys pairs with
  | nil =>
    cases keys with
    | nil =>
      cases hpair
      exact ⟨rfl, rfl, fun _ hq => absurd hq List.not_mem_nil⟩
    | cons _ _ => simp at hlen
  | cons row rows ih =>
    cases keys with
    | nil => simp at hlen
    | cons key keys =>
      rw [pair] at hpair
      obtain ⟨_, hplace, hpair⟩ := Except.bind_eq_ok.1 hpair
      obtain ⟨rest, hrest, hpair⟩ := Except.bind_eq_ok.1 hpair
      cases hpair
      obtain ⟨hrows, hkeys, hplaces⟩ := ih hrest (by simpa using hlen)
      refine ⟨by rw [List.map_cons, hrows], by rw [List.map_cons, hkeys], fun q hq => ?_⟩
      rcases List.mem_cons.1 hq with rfl | hq
      · simpa using reject_eq_ok.1 hplace
      · exact hplaces q hq

namespace Store

variable {s s' : Store} {x : StreamId} {p : Int}

/-! ## The object row -/

theorem le_foldl_max {v : Int} {vs : List Int} : ∀ w ∈ v :: vs, w ≤ vs.foldl max v := by
  induction vs generalizing v with
  | nil =>
    intro w hw
    rw [List.mem_singleton.1 hw]
    exact le_rfl
  | cons u vs ih =>
    intro w hw
    rw [List.foldl_cons]
    have hv := ih (max v u) List.mem_cons_self
    rcases List.mem_cons.1 hw with rfl | hw
    · exact le_trans (le_max_left _ _) hv
    · rcases List.mem_cons.1 hw with rfl | hw
      · exact le_trans (le_max_right _ _) hv
      · exact ih w (List.mem_cons_of_mem _ hw)

/-- **A next version that can be read is taken by no row.** -/
theorem nextVersion_free {l : Location} {v : Int64} (hfits : int64? (s.nextVersion l) = some v) :
    s.objects.find? ⟨l, s.nextVersion l⟩ = none := by
  refine Table.find?_eq_none_iff.2 fun o ho hid => ?_
  have hmem : o.version ∈ (s.versionsOf l).map (·.version) :=
    List.mem_map.2 ⟨o, List.mem_filter.2 ⟨ho, decide_eq_true (congrArg ObjectId.location hid)⟩, rfl⟩
  have hversion : o.version = s.nextVersion l := congrArg ObjectId.version hid
  have hle : s.nextVersion l ≤ 9223372036854775807 := by
    unfold int64? at hfits
    split at hfits
    · next h => exact h.2
    · cases hfits
  unfold nextVersion at hversion hle
  cases hversions : (s.versionsOf l).map (·.version) with
  | nil =>
    rw [hversions] at hmem
    exact absurd hmem List.not_mem_nil
  | cons v vs =>
    rw [hversions] at hmem hversion hle
    have hmax := le_foldl_max o.version hmem
    simp only [versionBound] at hversion hle
    omega

theorem ObjectRow.view_eq_ok_iff {o : ObjectRow} {statement : Statement} {object : Object} :
    o.view statement = .ok object ↔ o.view? = some object := by
  unfold ObjectRow.view
  cases o.view? with
  | none => exact iff_of_false (fun h => by cases h) (fun h => by cases h)
  | some o' => exact ⟨fun h => by cases h; rfl, fun h => by cases h; rfl⟩

/-- The object that a row is read as. -/
theorem ObjectRow.view?_eq_some_iff {o : ObjectRow} {object : Object} :
    o.view? = some object ↔ ∃ version status count fixed,
      int64? o.version = some version ∧ Status.ofCode? o.status = some status ∧
        int32? o.segmentCount = some count ∧ int32? o.fixedSegmentSize = some fixed ∧
        object = {
          stream := ⟨o.location, version, o.stream⟩, createdAt := o.createdAt
          expiresAt := o.expiresAt, status, segmentCount := count, metadata := o.metadata.stored?
          totalPlainSize := o.totalPlainSize, totalEncryptedSize := o.totalEncryptedSize
          fixedSegmentSize := fixed, encryption := .unpack o.encryption
          zombieDeadline := o.zombieDeadline } := by
  unfold ObjectRow.view?
  constructor
  · intro h
    obtain ⟨version, hversion, h⟩ := Option.bind_eq_some_iff.1 h
    obtain ⟨status, hstatus, h⟩ := Option.bind_eq_some_iff.1 h
    obtain ⟨count, hcount, h⟩ := Option.bind_eq_some_iff.1 h
    obtain ⟨fixed, hfixed, h⟩ := Option.bind_eq_some_iff.1 h
    cases h
    exact ⟨version, status, count, fixed, hversion, hstatus, hcount, hfixed, rfl⟩
  · rintro ⟨version, status, count, fixed, hversion, hstatus, hcount, hfixed, rfl⟩
    rw [hversion, hstatus, hcount, hfixed]
    rfl

theorem ObjectRow.view_eq_ok {o : ObjectRow} {statement : Statement} {object : Object} :
    o.view statement = .ok object ↔ ∃ version status count fixed,
      int64? o.version = some version ∧ Status.ofCode? o.status = some status ∧
        int32? o.segmentCount = some count ∧ int32? o.fixedSegmentSize = some fixed ∧
        object = {
          stream := ⟨o.location, version, o.stream⟩, createdAt := o.createdAt
          expiresAt := o.expiresAt, status, segmentCount := count, metadata := o.metadata.stored?
          totalPlainSize := o.totalPlainSize, totalEncryptedSize := o.totalEncryptedSize
          fixedSegmentSize := fixed, encryption := .unpack o.encryption
          zombieDeadline := o.zombieDeadline } :=
  view_eq_ok_iff.trans view?_eq_some_iff

theorem ObjectRow.version_of_view {o : ObjectRow} {statement : Statement} {object : Object}
    (h : o.view statement = .ok object) : int64? o.version = some object.stream.version := by
  obtain ⟨version, _, _, _, hversion, -, -, -, rfl⟩ := ObjectRow.view_eq_ok.1 h
  exact hversion

/-! ## The rows of a copy -/

/-- Copies of the rows of a stream are under different keys. -/
theorem nodup_ids_copied {pairs : List (SegmentRow × SegmentKey)}
    (hrows : pairs.map (·.1) = s.segmentsOf x) (now : Instant) (y : StreamId) :
    ((pairs.map fun q => q.1.copied now y q.2).map (·.id)).Nodup := by
  have hids : (pairs.map fun q => q.1.copied now y q.2).map (·.id) =
      ((s.segmentsOf x).map (·.position)).map fun q => ⟨y, q⟩ := by
    rw [← hrows, List.map_map, List.map_map, List.map_map]
    rfl
  rw [hids]
  exact (nodup_positions s _).map fun a b hab => congrArg SegmentId.position hab

/-- What a copy adds to the tables. -/
structure Copied (s : Store) (now : Instant) (r : FinishCopy) (o : ObjectRow) (source : Object)
    (metadata : Option Metadata) (pairs : List (SegmentRow × SegmentKey)) (object : Object)
    (s' : Store) : Prop where
  found : s.objectOf? r.source .committed = some o
  source_view : o.view .fetchObject = .ok source
  count : (r.newKeys.length : Int) = source.segmentCount.toInt
  rows : pairs.map (·.1) = s.segmentsOf r.source.stream
  keys : pairs.map (·.2) = r.sortedKeys
  places : ∀ q ∈ pairs, q.1.place = q.2.position
  object_view :
    (r.objectRow now source metadata (s.nextVersion r.location)).view .finishCopy = .ok object
  objects : s'.objects = s.objects.insert
    { r.objectRow now source metadata (s.nextVersion r.location) with serial := s.nextSerial }
  nodes : s'.nodes = s.nodes
  segments : s'.segments =
    (s.putSegments (pairs.map fun q => q.1.copied now r.newStream q.2)).segments
  copies : s'.copies =
    if (s.segmentsOf r.source.stream).all (·.isDuplicated) then s.copies
    else s.copies.insert ⟨r.newStream, (s.ancestorOf? r.source.stream).getD r.source.stream⟩

theorem addCopied_eq_ok {rows : List SegmentRow} (h : s.addCopied rows = .ok s') :
    s' = s.putSegments rows := by
  induction rows generalizing s with
  | nil => cases h; rfl
  | cons row rows ih =>
    rw [addCopied] at h
    split at h
    · cases h
    · exact ih h

/-- **A copy that succeeds adds what `Copied` says.** -/
theorem copied_of_ok {now : Instant} {r : FinishCopy} {object : Object}
    (h : s.finishCopy now r = .ok (object, s')) :
    ∃ o source metadata pairs, s.Copied now r o source metadata pairs object s' := by
  unfold finishCopy at h
  obtain ⟨source, hsource, h⟩ := Except.bind_eq_ok.1 h
  obtain ⟨_, hcount, h⟩ := Except.bind_eq_ok.1 h
  obtain ⟨metadata, -, h⟩ := Except.bind_eq_ok.1 h
  obtain ⟨pairs, hpairs, h⟩ := Except.bind_eq_ok.1 h
  obtain ⟨viewed, hview, h⟩ := Except.bind_eq_ok.1 h
  obtain ⟨t, hadd, h⟩ := Except.bind_eq_ok.1 h
  have hcount' : (r.newKeys.length : Int) = source.segmentCount.toInt := by
    simpa using reject_eq_ok.1 hcount
  unfold copySource at hsource
  cases hfound : s.objectOf? r.source .committed with
  | none => rw [hfound] at hsource; cases hsource
  | some o =>
    rw [hfound] at hsource
    unfold copyKeys at hpairs
    obtain ⟨_, -, hpairs⟩ := Except.bind_eq_ok.1 hpairs
    have hlen : ((s.segmentsOf r.source.stream).length : Int) = source.segmentCount.toInt := by
      by_contra hne
      rw [if_pos hne] at hpairs
      cases hpairs
    dsimp only at hpairs
    rw [if_neg (not_not.2 hlen)] at hpairs
    -- there are as many rows as keys, so no row and no key is left over
    have hsorted : r.sortedKeys.length = r.newKeys.length := List.length_mergeSort _
    obtain ⟨hfst, hsnd, hplaces⟩ := FinishCopy.pair_eq_ok hpairs (by omega)
    have hall : (pairs.all fun q => q.1.isDuplicated) =
        (s.segmentsOf r.source.stream).all (·.isDuplicated) := by
      rw [← hfst, List.all_map]
      rfl
    obtain rfl := addCopied_eq_ok hadd
    dsimp only at h
    rw [hall] at h
    split at h
    · next hdup =>
      cases h
      exact ⟨o, source, metadata, pairs, hfound, hsource, hcount', hfst, hsnd, hplaces, hview, rfl,
        rfl, rfl, (if_pos hdup).symm⟩
    · next hdup =>
      obtain ⟨t', hrelation, h⟩ := Except.bind_eq_ok.1 h
      cases h
      unfold addRelation at hrelation
      split at hrelation
      · cases hrelation
      · cases hrelation
        exact ⟨o, source, metadata, pairs, hfound, hsource, hcount', hfst, hsnd, hplaces, hview,
          rfl, rfl, rfl, (if_neg hdup).symm⟩

namespace Copied

variable {now : Instant} {r : FinishCopy} {o : ObjectRow} {source : Object}
  {metadata : Option Metadata} {pairs : List (SegmentRow × SegmentKey)} {object : Object}
  (h : s.Copied now r o source metadata pairs object s')

include h

theorem mem_source {q : SegmentRow × SegmentKey} (hq : q ∈ pairs) :
    q.1 ∈ s.segmentsOf r.source.stream := by
  rw [← h.rows]
  exact List.mem_map_of_mem hq

theorem nodup_ids :
    ((pairs.map fun q => q.1.copied now r.newStream q.2).map (·.id)).Nodup :=
  nodup_ids_copied h.rows now r.newStream

theorem row?_eq : s'.row? x p = (s.putSegments
    (pairs.map fun q => q.1.copied now r.newStream q.2)).row? x p := by
  unfold row?
  rw [h.segments]

/-- A copy stores no rows for other streams. -/
theorem row?_of_ne (hx : x ≠ r.newStream) (p : Int) : s'.row? x p = s.row? x p := by
  rw [h.row?_eq]
  refine row?_putSegments_of_ne h.nodup_ids (fun k hk => ?_) p
  obtain ⟨q, -, rfl⟩ := List.mem_map.1 hk
  exact hx.symm

/-- A row of the copy beside the row of the source at its position. -/
theorem row?_new (hfresh : s.Lacks r.newStream) (p : Int) :
    Option.Rel (fun c k => ∃ q ∈ pairs, q.1 = k ∧ c = k.copied now r.newStream q.2)
      (s'.row? r.newStream p) (s.row? r.source.stream p) := by
  have hpairs : ∀ q ∈ pairs, s.row? r.source.stream q.1.position = some q.1 := fun q hq =>
    mem_segmentsOf_iff_row?.1 (h.mem_source hq)
  -- the stream had no rows, so its rows are those put in place
  rw [h.row?_eq, row?_putSegments h.nodup_ids, hfresh.row?_eq_none, Option.or_none, List.find?_map]
  cases hk : s.row? r.source.stream p with
  | none =>
    have hnone : pairs.find? ((fun k : SegmentRow => decide (k.id = ⟨r.newStream, p⟩)) ∘
        fun q => q.1.copied now r.newStream q.2) = none := by
      rw [List.find?_eq_none]
      intro q hq hid
      have hp : q.1.position = p := congrArg SegmentId.position (of_decide_eq_true hid)
      have hrow := hpairs q hq
      rw [hp, hk] at hrow
      cases hrow
    rw [hnone]
    exact .none
  | some k =>
    cases hfind : pairs.find? ((fun k : SegmentRow => decide (k.id = ⟨r.newStream, p⟩)) ∘
        fun q => q.1.copied now r.newStream q.2) with
    | none =>
      have hmem : k ∈ pairs.map (·.1) := by
        rw [h.rows, mem_segmentsOf_iff_row?, (row?_eq_some_iff.1 hk).2.2]
        exact hk
      obtain ⟨q, hq, rfl⟩ := List.mem_map.1 hmem
      have hid := List.find?_eq_none.1 hfind q hq
      rw [← (row?_eq_some_iff.1 hk).2.2] at hid
      exact absurd (decide_eq_true rfl) hid
    | some q =>
      have hq := List.mem_of_find?_eq_some hfind
      have hid := List.find?_some hfind
      rw [Function.comp_apply, decide_eq_true_eq] at hid
      have hp : q.1.position = p := congrArg SegmentId.position hid
      have hrow := hpairs q hq
      rw [hp, hk] at hrow
      exact .some ⟨q, hq, (Option.some.inj hrow).symm, by rw [Option.some.inj hrow]⟩

/-- Rows after a copy are rows from before or copies of rows of the source. -/
theorem mem_rows {k : SegmentRow} (hk : k ∈ s'.segments.rows) :
    k ∈ s.segments.rows ∨ ∃ q ∈ pairs, q.1 ∈ s.segmentsOf r.source.stream ∧
      k = q.1.copied now r.newStream q.2 := by
  rw [h.segments] at hk
  rcases mem_putSegments h.nodup_ids hk with hk | hk
  · obtain ⟨q, hq, rfl⟩ := List.mem_map.1 hk
    exact .inr ⟨q, hq, h.mem_source hq, rfl⟩
  · exact .inl hk

/-! ### Objects and relations -/

theorem source_committed : s.IsCommitted r.source.stream := by
  obtain ⟨ho, -, hstream, hstatus⟩ := objectOf?_eq_some h.found
  exact ⟨o, ho, hstream, hstatus⟩

theorem mem_objects {o₁ : ObjectRow} :
    o₁ ∈ s'.objects.rows ↔
      o₁ = { r.objectRow now source metadata (s.nextVersion r.location) with
        serial := s.nextSerial } ∨ o₁ ∈ s.objects.rows := by
  have hfree := nextVersion_free (ObjectRow.version_of_view h.object_view)
  rw [h.objects, Table.mem_insert]
  exact or_congr_right (and_iff_left_of_imp (Table.find?_eq_none_iff.1 hfree o₁))

theorem committed_mono (hx : s.IsCommitted x) : s'.IsCommitted x := by
  obtain ⟨o₁, ho₁, hstream⟩ := hx
  exact ⟨o₁, h.mem_objects.2 (.inr ho₁), hstream⟩

theorem new_committed : s'.IsCommitted r.newStream :=
  ⟨_, h.mem_objects.2 (.inl rfl), rfl, ObjectRow.hasStatus_iff.2 rfl⟩

theorem ancestorOf?_of_ne (hx : x ≠ r.newStream) : s'.ancestorOf? x = s.ancestorOf? x := by
  unfold ancestorOf?
  rw [h.copies]
  split
  · rfl
  · rw [Table.find?_insert, if_neg hx.symm]

theorem ancestorOf?_new (hfresh : s.Lacks r.newStream) :
    s'.ancestorOf? r.newStream =
      if (s.segmentsOf r.source.stream).all (·.isDuplicated) then none
      else some ((s.ancestorOf? r.source.stream).getD r.source.stream) := by
  have hnone := hfresh.ancestorOf?_eq_none
  unfold ancestorOf? at hnone ⊢
  rw [h.copies]
  split
  · exact hnone
  · rw [Table.find?_insert, if_pos rfl]
    rfl

section Fresh

variable (hs : s.Coherent) (hfresh : s.Lacks r.newStream)

include hs hfresh

omit hs in
theorem source_ne_new : r.source.stream ≠ r.newStream := by
  obtain ⟨ho, -, hstream, -⟩ := objectOf?_eq_some h.found
  rw [← hstream]
  exact hfresh.1 o ho

/-- The relation of a copy holds what relations promise: the rows of the copy mirror the rows of the
source, or the rows that these mirror. -/
theorem related_new (hpieces : ¬ (s.segmentsOf r.source.stream).all (·.isDuplicated) = true) :
    s'.Related r.newStream ((s.ancestorOf? r.source.stream).getD r.source.stream) := by
  have hsource := h.source_committed
  have hsourceNe := h.source_ne_new hfresh
  cases hanc : s.ancestorOf? r.source.stream with
  | none =>
    refine ⟨hsourceNe.symm, ?_, h.new_committed, h.committed_mono hsource, fun p => ?_⟩
    · rw [Option.getD_none, h.ancestorOf?_of_ne hsourceNe, hanc]
    · rw [Option.getD_none, h.row?_of_ne hsourceNe]
      refine (h.row?_new hfresh p).imp fun c k _ hk hc => ?_
      obtain ⟨q, -, rfl, rfl⟩ := hc
      obtain ⟨hmem, hstream, -⟩ := row?_eq_some_iff.1 hk
      -- a row in need would make every row of the source one that copies duplicate
      have hself : q.1.piecesInAncestor = false := by
        rw [Bool.eq_false_iff]
        intro hneeds
        have hall := hs.unrelated q.1 hmem hneeds (by rw [hstream, hanc])
        rw [hstream] at hall
        exact hpieces (List.all_eq_true.2 hall)
      exact (hs.shaped _ hmem).copied_mirrors hself
  | some a =>
    have hrel := hs.families _ _ hanc
    have haNe := hfresh.ne_of_committed hrel.ancestor_committed
    refine ⟨haNe.symm, ?_, h.new_committed, h.committed_mono hrel.ancestor_committed, fun p => ?_⟩
    · rw [Option.getD_some, h.ancestorOf?_of_ne haNe, hrel.root]
    · rw [Option.getD_some, h.row?_of_ne haNe]
      refine (h.row?_new hfresh p).comp (hrel.rows p) fun c k b hk hc hm => ?_
      obtain ⟨q, -, rfl, rfl⟩ := hc
      exact hm.copied (hs.shaped q.1 (row?_eq_some_iff.1 hk).1)

omit hs in
/-- The relations of other copies stay what they are. -/
theorem related_of_ne {c a : StreamId} (hc : c ≠ r.newStream) (hrel : s.Related c a) :
    s'.Related c a := by
  have ha := hfresh.ne_of_committed hrel.ancestor_committed
  refine ⟨hrel.ne, ?_, h.committed_mono hrel.copy_committed,
    h.committed_mono hrel.ancestor_committed, fun p => ?_⟩
  · rw [h.ancestorOf?_of_ne ha, hrel.root]
  · rw [h.row?_of_ne hc, h.row?_of_ne ha]
    exact hrel.rows p

omit hs in
/-- The duplicate of a row that copies duplicate is one that they duplicate. -/
theorem isDuplicated_new (hall : (s.segmentsOf r.source.stream).all (·.isDuplicated) = true) :
    ∀ k ∈ s'.segmentsOf r.newStream, k.isDuplicated = true := by
  intro k hk
  obtain ⟨hmem, hstream⟩ := mem_segmentsOf.1 hk
  rcases h.mem_rows hmem with hmem | ⟨q, -, hq, rfl⟩
  · exact absurd hstream (hfresh.2.1 k hmem)
  · have hdup := List.all_eq_true.1 hall q.1 hq
    rw [SegmentRow.isDuplicated, Bool.and_eq_true] at hdup
    rw [SegmentRow.isDuplicated, SegmentRow.not_holdsPieces_copied, Bool.not_false, Bool.and_true]
    exact hdup.1

/-- **A copy to a fresh stream keeps the tables coherent.** -/
theorem coherent : s'.Coherent where
  nodes := by
    rw [h.nodes]
    exact hs.nodes
  distinct o₁ ho₁ o₂ ho₂ heq := by
    rcases h.mem_objects.1 ho₁ with rfl | ho₁ <;> rcases h.mem_objects.1 ho₂ with rfl | ho₂
    · rfl
    · exact absurd heq.symm (hfresh.1 o₂ ho₂)
    · exact absurd heq (hfresh.1 o₁ ho₁)
    · exact hs.distinct o₁ ho₁ o₂ ho₂ heq
  owned k hk := by
    rcases h.mem_rows hk with hk | ⟨q, -, -, rfl⟩
    · obtain ⟨o₁, ho₁, hstream⟩ := hs.owned k hk
      exact ⟨o₁, h.mem_objects.2 (.inr ho₁), hstream⟩
    · exact ⟨_, h.mem_objects.2 (.inl rfl), rfl⟩
  shaped k hk := by
    rw [h.nodes]
    rcases h.mem_rows hk with hk | ⟨q, -, hq, rfl⟩
    · exact hs.shaped k hk
    · exact (hs.shaped q.1 (mem_segmentsOf.1 hq).1).copied
  references k hk hneeds := by
    rcases h.mem_rows hk with hk | ⟨q, -, -, rfl⟩
    · exact h.committed_mono (hs.references k hk hneeds)
    · exact h.new_committed
  families c a hca := by
    by_cases hc : c = r.newStream
    · subst hc
      rw [h.ancestorOf?_new hfresh] at hca
      split at hca
      · cases hca
      · next hpieces =>
        cases hca
        exact h.related_new hs hfresh hpieces
    · rw [h.ancestorOf?_of_ne hc] at hca
      exact h.related_of_ne hfresh hc (hs.families c a hca)
  unrelated k hk hneeds hnone := by
    rcases h.mem_rows hk with hk | ⟨q, -, -, rfl⟩
    · have hkNe : k.stream ≠ r.newStream := hfresh.2.1 k hk
      rw [h.ancestorOf?_of_ne hkNe] at hnone
      rw [segmentsOf_congr (h.row?_of_ne hkNe)]
      exact hs.unrelated k hk hneeds hnone
    · -- without a relation every row of the copy is a duplicate of a duplicate
      change s'.ancestorOf? r.newStream = none at hnone
      rw [h.ancestorOf?_new hfresh] at hnone
      split at hnone
      · next hall => exact h.isDuplicated_new hfresh hall
      · cases hnone

end Fresh

end Copied

end Store

end ObjectCatalog
