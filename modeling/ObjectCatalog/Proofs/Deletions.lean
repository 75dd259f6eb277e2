import ObjectCatalog.Proofs.Coherence
import ObjectCatalog.Proofs.Removal

/-!
# What a deletion of rows does

A deletion of object rows from coherent tables removes the streams of these rows, and hands what
copies still need to their heirs.

* `Store.Fate`: what becomes of the streams that stay.
* `Store.Coherent.bequeathed_cases`: a row that stays is as it was, or was in need of the pieces it got.
* `DeletionStep.mem_objects`, `DeletionStep.row?_eq`, `DeletionStep.ancestorOf?_eq`: the tables
  afterwards.
* `DeletionStep.coherent`: **a deletion keeps the tables coherent.**
-/

namespace ObjectCatalog

namespace SegmentRow

variable {t : NodeTable} {c r k : SegmentRow}

theorem not_needs_withPiecesOf (hk : k.holdsPieces = true) :
    (r.withPiecesOf k).piecesInAncestor = false :=
  piecesInAncestor_of_holdsPieces hk

/-- Who mirrors the row of an ancestor mirrors the row of the heir once that has the pieces. -/
theorem Mirrors.heir (hc : c.Mirrors k) (hr : r.Mirrors k) :
    c.Mirrors (if k.holdsPieces then r.withPiecesOf k else r) := by
  cases hk : k.holdsPieces with
  | true =>
    rw [if_pos rfl]
    exact ⟨hc.encryptedSize.trans hr.encryptedSize.symm, hc.plainSize.trans hr.plainSize.symm,
      hc.plainOffset.trans hr.plainOffset.symm, hc.redundancy.trans hr.redundancy.symm,
      hc.no_pieces, hc.needs_eq⟩
  | false =>
    rw [if_neg Bool.false_ne_true]
    refine ⟨hc.encryptedSize.trans hr.encryptedSize.symm, hc.plainSize.trans hr.plainSize.symm,
      hc.plainOffset.trans hr.plainOffset.symm, hc.redundancy.trans hr.redundancy.symm,
      hc.no_pieces, ?_⟩
    rw [hc.needs_eq, hk, hr.no_pieces]

/-- A row that mirrors one with pieces is a reference, and remote once it has them. -/
theorem Shaped.withPiecesOf (hr : r.Shaped t) (hk : k.Shaped t) (hm : r.Mirrors k)
    (hholds : k.holdsPieces = true) : (r.withPiecesOf k).Shaped t where
  shape := by
    have href : r.IsReference := hr.needs_iff.1 (hm.needs_eq.trans hholds)
    exact .inl (href.withPiecesOf (hk.holdsPieces_iff.1 hholds))
  encryptedSize := hr.encryptedSize
  plainSize := hr.plainSize
  position := hr.position
  not_repaired := hk.not_repaired

end SegmentRow

open Store

theorem ObjectRow.perm_byAge (rows : List ObjectRow) : (byAge rows).Perm rows :=
  List.mergeSort_perm rows _

theorem Object.perm_byKey (objects : List Object) : (byKey objects).Perm objects :=
  List.mergeSort_perm objects _

/-- The streams that a deletion of object rows removes, in the order in which it does. -/
def goneStreams (rows : List ObjectRow) : List StreamId := (ObjectRow.byAge rows).map (·.stream)

theorem mem_goneStreams {rows : List ObjectRow} {x : StreamId} :
    x ∈ goneStreams rows ↔ ∃ o ∈ rows, o.stream = x := by
  unfold goneStreams
  simp only [List.mem_map, (ObjectRow.perm_byAge rows).mem_iff]

namespace Store

variable {s s' : Store} {x a h : StreamId} {p : Int} {gone : List StreamId} {r k : SegmentRow}

/-! ## Heirs and what they get -/

/-- The row of a stream at a position inherits from the row of the ancestor there. -/
theorem inherit_segmentsOf (hk : s.row? a r.position = some k) :
    r.inherit (s.segmentsOf a) = if k.holdsPieces then r.withPiecesOf k else r := by
  unfold SegmentRow.inherit
  cases hfind : (s.segmentsOf a).find? fun k => k.holdsPieces && decide (k.position = r.position) with
  | none =>
    have hkmem : k ∈ s.segmentsOf a :=
      mem_segmentsOf_iff_row?.2 ((row?_eq_some_iff.1 hk).2.2 ▸ hk)
    have hnot := List.find?_eq_none.1 hfind k hkmem
    rw [(row?_eq_some_iff.1 hk).2.2, decide_eq_true rfl, Bool.and_true] at hnot
    rw [if_neg hnot]
  | some k' =>
    have hcond := List.find?_some hfind
    rw [Bool.and_eq_true, decide_eq_true_eq] at hcond
    have hk' := mem_segmentsOf_iff_row?.1 (List.mem_of_find?_eq_some hfind)
    rw [hcond.2, hk] at hk'
    cases hk'
    rw [if_pos hcond.1]

theorem exists_heir? (hanc : s.ancestorOf? x = some a) (hx : x ∉ gone) :
    ∃ h, s.heir? gone a = some h := by
  unfold heir?
  rw [← Option.isSome_iff_exists, List.find?_isSome]
  exact ⟨x, mem_copiesOf.2 hanc, by simpa using hx⟩

/-- Whether a stream takes the place of a removed ancestor. -/
def IsHeir (s : Store) (gone : List StreamId) (x : StreamId) : Prop :=
  ∃ a ∈ gone, s.heir? gone a = some x

theorem isHeir_iff (hanc : s.ancestorOf? x = some a) :
    s.IsHeir gone x ↔ a ∈ gone ∧ s.heir? gone a = some x := by
  constructor
  · rintro ⟨b, hb, hheir⟩
    have hanc' := ancestorOf?_of_heir? hheir
    rw [hanc, Option.some.injEq] at hanc'
    subst hanc'
    exact ⟨hb, hheir⟩
  · rintro ⟨ha, hheir⟩
    exact ⟨a, ha, hheir⟩

/-- A row inherits nothing unless its stream is an heir. -/
theorem bequeathed_of_not_isHeir {held : StreamId → List SegmentRow} (hnot : ¬ s.IsHeir gone x) :
    s.bequeathed gone held x r = r := by
  unfold bequeathed
  cases hanc : s.ancestorOf? x with
  | none => rfl
  | some a => exact if_neg fun hcond => hnot ⟨a, hcond⟩

/-- A row of an heir takes the pieces of its ancestor's row. -/
theorem bequeathed_of_heir (hheir : s.heir? gone a = some x) (ha : a ∈ gone)
    (hk : s.row? a r.position = some k) :
    s.bequeathed gone s.segmentsOf x r = if k.holdsPieces then r.withPiecesOf k else r := by
  unfold bequeathed
  rw [ancestorOf?_of_heir? hheir]
  exact (if_pos ⟨ha, hheir⟩).trans (inherit_segmentsOf hk)

/-- **A row that stays is as it was, or was in need of the pieces it got.** -/
theorem Coherent.bequeathed_cases (hs : s.Coherent) (gone : List StreamId)
    (hr : r ∈ s.segments.rows) :
    ¬ s.IsHeir gone r.stream ∧ s.bequeathed gone s.segmentsOf r.stream r = r ∨
      ∃ a ∈ gone, ∃ k, s.heir? gone a = some r.stream ∧ s.row? a r.position = some k ∧
        r.Mirrors k ∧
        (k.holdsPieces = true ∧ s.bequeathed gone s.segmentsOf r.stream r = r.withPiecesOf k ∨
          k.holdsPieces = false ∧ s.bequeathed gone s.segmentsOf r.stream r = r) := by
  by_cases hheir : s.IsHeir gone r.stream
  · obtain ⟨a, ha, hheir⟩ := hheir
    have hrel := hs.families _ _ (ancestorOf?_of_heir? hheir)
    obtain ⟨k, hk, hm⟩ := (hrel.rows r.position).exists_right (row?_self hr)
    refine .inr ⟨a, ha, k, hheir, hk, hm, ?_⟩
    rw [bequeathed_of_heir hheir ha hk]
    cases hholds : k.holdsPieces with
    | true => exact .inl ⟨rfl, if_pos rfl⟩
    | false => exact .inr ⟨rfl, if_neg Bool.false_ne_true⟩
  · exact .inl ⟨hheir, bequeathed_of_not_isHeir hheir⟩

/-! ## What becomes of the streams that stay -/

/-- What becomes of a stream that stays when others are removed: it has no ancestor, keeps the one it
has, takes the place of the one it had, or follows the copy that does. -/
inductive Fate (s : Store) (gone : List StreamId) (x : StreamId) : Prop
  | root (hanc : s.ancestorOf? x = none)
  | kept {a : StreamId} (hanc : s.ancestorOf? x = some a) (ha : a ∉ gone)
  | heir {a : StreamId} (hheir : s.heir? gone a = some x) (ha : a ∈ gone)
  | follower {a b : StreamId} (hanc : s.ancestorOf? x = some a) (ha : a ∈ gone)
      (hheir : s.heir? gone a = some b) (hne : b ≠ x)

theorem fate (hx : x ∉ gone) : s.Fate gone x := by
  cases hanc : s.ancestorOf? x with
  | none => exact .root hanc
  | some a =>
    by_cases ha : a ∈ gone
    · obtain ⟨b, hheir⟩ := exists_heir? hanc hx
      by_cases hb : b = x
      · subst hb
        exact .heir hheir ha
      · exact .follower hanc ha hheir hb
    · exact .kept hanc ha

theorem not_isHeir_of_root (hanc : s.ancestorOf? x = none) : ¬ s.IsHeir gone x := by
  rintro ⟨a, -, hheir⟩
  rw [ancestorOf?_of_heir? hheir] at hanc
  cases hanc

theorem not_isHeir_of_kept (hanc : s.ancestorOf? x = some a) (ha : a ∉ gone) :
    ¬ s.IsHeir gone x := fun hheir => ha ((isHeir_iff hanc).1 hheir).1

theorem not_isHeir_of_follower {b : StreamId} (hanc : s.ancestorOf? x = some a)
    (hheir : s.heir? gone a = some b) (hne : b ≠ x) : ¬ s.IsHeir gone x := by
  intro hx
  have hx' := ((isHeir_iff hanc).1 hx).2
  rw [hheir, Option.some.injEq] at hx'
  exact hne hx'

theorem resettled_root (hanc : s.ancestorOf? x = none) : s.resettled gone x = none := by
  unfold resettled
  rw [hanc]

theorem resettled_kept (hanc : s.ancestorOf? x = some a) (ha : a ∉ gone) :
    s.resettled gone x = some a := by
  unfold resettled
  rw [hanc]
  exact if_neg ha

theorem resettled_heir (hheir : s.heir? gone a = some x) (ha : a ∈ gone) :
    s.resettled gone x = none := by
  unfold resettled
  rw [ancestorOf?_of_heir? hheir]
  dsimp only
  rw [if_pos ha, if_pos hheir]

theorem resettled_follower {b : StreamId} (hanc : s.ancestorOf? x = some a) (ha : a ∈ gone)
    (hheir : s.heir? gone a = some b) (hne : b ≠ x) : s.resettled gone x = some b := by
  unfold resettled
  rw [hanc]
  dsimp only
  rw [if_pos ha, hheir, if_neg fun heq => hne (Option.some.inj heq)]

end Store

/-! ## The deletion -/

/-- Rows of distinct streams go with distinct streams. -/
theorem Store.Coherent.nodup_goneStreams {s : Store} (hs : s.Coherent) {rows : List ObjectRow}
    (hstored : ∀ o ∈ rows, o ∈ s.objects.rows) (hnodup : rows.Nodup) :
    (goneStreams rows).Nodup := by
  have hperm := ObjectRow.perm_byAge rows
  refine List.Nodup.map_on (fun o ho o' ho' heq => ?_) (hperm.nodup_iff.2 hnodup)
  exact hs.distinct o (hstored o (hperm.mem_iff.1 ho)) o' (hstored o' (hperm.mem_iff.1 ho')) heq

namespace DeletionStep

variable {s s' : Store} {rows : List ObjectRow} {orphaned : List SegmentRow} {x : StreamId}
  (hs : s.Coherent) (h : DeletionStep s rows orphaned s')

include hs h

theorem nodup_gone : (goneStreams rows).Nodup := hs.nodup_goneStreams h.stored h.nodup

/-- What the removal of the streams does. -/
theorem removal : (s.dropObjects rows).Removal (goneStreams rows) orphaned s' :=
  removal_of_ok (h.nodup_gone hs) h.removed

theorem row?_eq (x : StreamId) (p : Int) :
    s'.row? x p = if x ∈ goneStreams rows then none
      else (s.row? x p).map (s.bequeathed (goneStreams rows) s.segmentsOf x) :=
  (h.removal hs).row?_eq x p

/-- **The rows of a stream that stays are those from before,** some of them with pieces that they got. -/
theorem row?_rel (hx : x ∉ goneStreams rows) (p : Int) :
    Option.Rel (fun r k => r = k ∨ ∃ heir, r = k.withPiecesOf heir) (s'.row? x p) (s.row? x p) := by
  rw [h.row?_eq hs, if_neg hx]
  cases hr : s.row? x p with
  | none => exact .none
  | some r =>
    obtain ⟨hmem, rfl, -⟩ := row?_eq_some_iff.1 hr
    rcases hs.bequeathed_cases (goneStreams rows) hmem with
      ⟨-, hkeep⟩ | ⟨_, -, k, -, -, -, ⟨-, htake⟩ | ⟨-, hkeep⟩⟩
    · exact .some (.inl hkeep)
    · exact .some (.inr ⟨k, htake⟩)
    · exact .some (.inl hkeep)

theorem ancestorOf?_eq (x : StreamId) :
    s'.ancestorOf? x = if x ∈ goneStreams rows then none else s.resettled (goneStreams rows) x :=
  (h.removal hs).ancestorOf?_eq x

theorem nodes_eq : s'.nodes = s.nodes := (h.removal hs).nodes_eq

/-- The objects that stay are those of streams that are not removed. -/
theorem mem_objects {o : ObjectRow} :
    o ∈ s'.objects.rows ↔ o ∈ s.objects.rows ∧ o.stream ∉ goneStreams rows := by
  rw [(h.removal hs).objects_eq, dropObjects, Table.rows_filter, List.mem_filter,
    decide_eq_true_eq, mem_goneStreams]
  refine and_congr_right fun ho => not_congr ?_
  rw [List.mem_map]
  constructor
  · rintro ⟨o', ho', hid⟩
    exact ⟨o', ho', congrArg ObjectRow.stream (s.objects.eq_of_key_eq (h.stored o' ho') ho hid)⟩
  · rintro ⟨o', ho', hstream⟩
    exact ⟨o', ho', congrArg ObjectRow.id (hs.distinct o' (h.stored o' ho') o ho hstream)⟩

theorem committed_iff : s'.IsCommitted x ↔ s.IsCommitted x ∧ x ∉ goneStreams rows := by
  constructor
  · rintro ⟨o, ho, rfl, hstatus⟩
    obtain ⟨ho, hgone⟩ := (h.mem_objects hs).1 ho
    exact ⟨⟨o, ho, rfl, hstatus⟩, hgone⟩
  · rintro ⟨⟨o, ho, rfl, hstatus⟩, hgone⟩
    exact ⟨o, (h.mem_objects hs).2 ⟨ho, hgone⟩, rfl, hstatus⟩

/-- A row afterwards is a row from before with what it gets. -/
theorem row_eq {r' : SegmentRow} (hr' : r' ∈ s'.segments.rows) :
    r'.stream ∉ goneStreams rows ∧ ∃ r ∈ s.segments.rows, r.stream = r'.stream ∧
      r' = s.bequeathed (goneStreams rows) s.segmentsOf r.stream r := by
  have hrow := row?_self hr'
  rw [h.row?_eq hs] at hrow
  by_cases hx : r'.stream ∈ goneStreams rows
  · rw [if_pos hx] at hrow
    cases hrow
  · rw [if_neg hx] at hrow
    obtain ⟨r, hr, hbeq⟩ := Option.map_eq_some_iff.1 hrow
    obtain ⟨hmem, hstream, -⟩ := row?_eq_some_iff.1 hr
    exact ⟨hx, r, hmem, hstream, by rw [hstream, hbeq]⟩

/-- A stream that stays and is no heir keeps its rows. -/
theorem row?_of_not_isHeir (hx : x ∉ goneStreams rows) (hnot : ¬ s.IsHeir (goneStreams rows) x)
    (p : Int) : s'.row? x p = s.row? x p := by
  rw [h.row?_eq hs, if_neg hx]
  cases s.row? x p with
  | none => rfl
  | some r => rw [Option.map_some, bequeathed_of_not_isHeir hnot]

/-- The rows of a copy mirror those of the heir of its removed ancestor. -/
theorem mirrors_heir {c a b : StreamId} (hc : s.ancestorOf? c = some a)
    (hb : s.heir? (goneStreams rows) a = some b) (ha : a ∈ goneStreams rows) (p : Int) :
    Option.Rel SegmentRow.Mirrors (s.row? c p) (s'.row? b p) := by
  have hrel := (hs.families c a hc).rows p
  have hrel' := (hs.families b a (ancestorOf?_of_heir? hb)).rows p
  rw [h.row?_eq hs, if_neg (heir?_notMem hb)]
  cases hk : s.row? a p with
  | none =>
    rw [hk] at hrel hrel'
    cases hrc : s.row? c p with
    | none =>
      cases hrb : s.row? b p with
      | none => exact .none
      | some rb => obtain ⟨_, hnone, -⟩ := hrel'.exists_right hrb; cases hnone
    | some rc => obtain ⟨_, hnone, -⟩ := hrel.exists_right hrc; cases hnone
  | some k =>
    obtain ⟨rc, hrc, hmc⟩ := hrel.exists_left hk
    obtain ⟨rb, hrb, hmb⟩ := hrel'.exists_left hk
    have hpos : rb.position = p := (row?_eq_some_iff.1 hrb).2.2
    rw [hrc, hrb, Option.map_some, bequeathed_of_heir hb ha (hpos.symm ▸ hk)]
    exact .some (hmc.heir hmb)

theorem families {c b : StreamId} (hcb : s'.ancestorOf? c = some b) : s'.Related c b := by
  have hc : c ∉ goneStreams rows := by
    intro hc
    rw [h.ancestorOf?_eq hs, if_pos hc] at hcb
    cases hcb
  have hcommitted : ∀ y, s.IsCommitted y → y ∉ goneStreams rows → s'.IsCommitted y :=
    fun y hy hstays => (h.committed_iff hs).2 ⟨hy, hstays⟩
  rw [h.ancestorOf?_eq hs, if_neg hc] at hcb
  cases s.fate hc with
  | root hanc =>
    rw [resettled_root hanc] at hcb
    cases hcb
  | kept hanc ha =>
    rw [resettled_kept hanc ha, Option.some.injEq] at hcb
    subst hcb
    have hrel := hs.families _ _ hanc
    refine ⟨hrel.ne, ?_, hcommitted c hrel.copy_committed hc,
      hcommitted _ hrel.ancestor_committed ha, fun p => ?_⟩
    · rw [h.ancestorOf?_eq hs, if_neg ha, resettled_root hrel.root]
    · rw [h.row?_of_not_isHeir hs hc (not_isHeir_of_kept hanc ha),
        h.row?_of_not_isHeir hs ha (not_isHeir_of_root hrel.root)]
      exact hrel.rows p
  | heir hheir ha =>
    rw [resettled_heir hheir ha] at hcb
    cases hcb
  | follower hanc ha hheir hne =>
    -- the heir is the ancestor now
    rw [resettled_follower hanc ha hheir hne, Option.some.injEq] at hcb
    subst hcb
    have hb := heir?_notMem hheir
    have hrel := hs.families _ _ hanc
    have hrel' := hs.families _ _ (ancestorOf?_of_heir? hheir)
    refine ⟨hne.symm, ?_, hcommitted c hrel.copy_committed hc,
      hcommitted _ hrel'.copy_committed hb, fun p => ?_⟩
    · rw [h.ancestorOf?_eq hs, if_neg hb, resettled_heir hheir ha]
    · rw [h.row?_of_not_isHeir hs hc (not_isHeir_of_follower hanc hheir hne)]
      exact h.mirrors_heir hs hanc hheir ha p

/-- A row in need that is in no copy any more was in no copy before. -/
theorem ancestorOf?_of_needs {r : SegmentRow} (hr : r ∈ s.segments.rows)
    (hx : r.stream ∉ goneStreams rows)
    (hneeds : (s.bequeathed (goneStreams rows) s.segmentsOf r.stream r).piecesInAncestor = true)
    (hnone : s'.ancestorOf? r.stream = none) :
    s.ancestorOf? r.stream = none ∧ s.bequeathed (goneStreams rows) s.segmentsOf r.stream r = r := by
  rw [h.ancestorOf?_eq hs, if_neg hx] at hnone
  rcases hs.bequeathed_cases (goneStreams rows) hr with
    ⟨hnot, hkeep⟩ | ⟨a, ha, k, hheir, -, hm, ⟨hholds, htake⟩ | ⟨hholds, hkeep⟩⟩
  · refine ⟨?_, hkeep⟩
    cases s.fate hx with
    | root hanc => exact hanc
    | kept hanc ha =>
      rw [resettled_kept hanc ha] at hnone
      cases hnone
    | heir hheir ha => exact absurd ⟨_, ha, hheir⟩ hnot
    | follower hanc ha hheir hne =>
      rw [resettled_follower hanc ha hheir hne] at hnone
      cases hnone
  · -- an heir that was in need has got its pieces
    rw [htake, SegmentRow.not_needs_withPiecesOf hholds] at hneeds
    exact absurd hneeds (by decide)
  · rw [hkeep, hm.needs_eq, hholds] at hneeds
    exact absurd hneeds (by decide)

/-- **A deletion keeps the tables coherent.** -/
theorem coherent : s'.Coherent where
  nodes := by
    rw [h.nodes_eq hs]
    exact hs.nodes
  distinct o ho o' ho' heq :=
    hs.distinct o ((h.mem_objects hs).1 ho).1 o' ((h.mem_objects hs).1 ho').1 heq
  owned r' hr' := by
    obtain ⟨hgone, r, hr, hstream, -⟩ := h.row_eq hs hr'
    obtain ⟨o, ho, howner⟩ := hs.owned r hr
    rw [hstream] at howner
    exact ⟨o, (h.mem_objects hs).2 ⟨ho, howner.symm ▸ hgone⟩, howner⟩
  shaped r' hr' := by
    obtain ⟨-, r, hr, -, rfl⟩ := h.row_eq hs hr'
    rw [h.nodes_eq hs]
    rcases hs.bequeathed_cases (goneStreams rows) hr with
      ⟨-, hkeep⟩ | ⟨a, ha, k, hheir, hk, hm, ⟨hholds, htake⟩ | ⟨-, hkeep⟩⟩
    · rw [hkeep]
      exact hs.shaped r hr
    · rw [htake]
      exact (hs.shaped r hr).withPiecesOf (hs.shaped k (row?_eq_some_iff.1 hk).1) hm hholds
    · rw [hkeep]
      exact hs.shaped r hr
  references r' hr' hneeds := by
    obtain ⟨hgone, r, hr, hstream, rfl⟩ := h.row_eq hs hr'
    rw [← hstream] at hgone ⊢
    rcases hs.bequeathed_cases (goneStreams rows) hr with
      ⟨-, hkeep⟩ | ⟨a, ha, k, hheir, hk, hm, ⟨hholds, htake⟩ | ⟨-, hkeep⟩⟩
    · rw [hkeep] at hneeds
      exact (h.committed_iff hs).2 ⟨hs.references r hr hneeds, hgone⟩
    · rw [htake, SegmentRow.not_needs_withPiecesOf hholds] at hneeds
      exact absurd hneeds (by decide)
    · rw [hkeep] at hneeds
      exact (h.committed_iff hs).2 ⟨hs.references r hr hneeds, hgone⟩
  families _ _ := h.families hs
  unrelated r' hr' hneeds hnone := by
    obtain ⟨hgone, r, hr, hstream, rfl⟩ := h.row_eq hs hr'
    rw [← hstream] at hgone hnone ⊢
    obtain ⟨hanc, hkeep⟩ := h.ancestorOf?_of_needs hs hr hgone hneeds hnone
    rw [segmentsOf_congr (h.row?_of_not_isHeir hs hgone (not_isHeir_of_root hanc))]
    rw [hkeep] at hneeds
    exact hs.unrelated r hr hneeds hanc

end DeletionStep

end ObjectCatalog
