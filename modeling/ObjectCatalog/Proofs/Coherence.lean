import ObjectCatalog.Proofs.Changes
import ObjectCatalog.Proofs.Families

/-!
# Coherent tables

What holds of the four tables together in every run in which new stream ids are fresh: segments
belong to objects, copies and their ancestors are committed and stand beside each other row by row,
and no ancestor is a copy.

* `Store.Related`: what a copy relation promises.
* `Store.Coherent`: the invariant.
* `Store.KeepsCommitted`: a change that leaves the streams of committed objects alone.
* `UploadStep.coherent`: **uploads keep the tables coherent.**
-/

namespace ObjectCatalog

theorem ObjectRow.hasStatus_iff {o : ObjectRow} {status : Status} :
    o.hasStatus status = true ↔ o.status = status.code := by
  rw [ObjectRow.hasStatus, decide_eq_true_eq]

/-- No row is both pending and committed. -/
theorem ObjectRow.not_committed_of_pending {o : ObjectRow} (hp : o.hasStatus .pending = true) :
    ¬ o.hasStatus .committed = true := by
  intro hc
  rw [hasStatus_iff] at hp hc
  rw [hp] at hc
  exact absurd hc (by decide)

namespace Store

/-- The stream of a committed object. -/
def IsCommitted (s : Store) (x : StreamId) : Prop :=
  ∃ o ∈ s.objects.rows, o.stream = x ∧ o.hasStatus .committed = true

/-- A committed stream is no fresh one. -/
theorem Lacks.ne_of_committed {s : Store} {x y : StreamId} (h : s.Lacks y) (hx : s.IsCommitted x) :
    x ≠ y := by
  obtain ⟨o, ho, rfl, -⟩ := hx
  exact h.1 o ho

/-- What a copy relation promises: two committed streams, the second no copy, that have rows at the
same positions, each of which mirrors the other. -/
structure Related (s : Store) (c a : StreamId) : Prop where
  ne : c ≠ a
  root : s.ancestorOf? a = none
  copy_committed : s.IsCommitted c
  ancestor_committed : s.IsCommitted a
  rows : ∀ p, Option.Rel SegmentRow.Mirrors (s.row? c p) (s.row? a p)

/-- **The invariant of the tables.** A row that needs its ancestor but has no copy relation is in a
stream of which a copy would take every row for one with data. -/
structure Coherent (s : Store) : Prop where
  nodes : s.nodes.Sound
  distinct : ∀ o ∈ s.objects.rows, ∀ o' ∈ s.objects.rows, o.stream = o'.stream → o = o'
  owned : ∀ r ∈ s.segments.rows, ∃ o ∈ s.objects.rows, o.stream = r.stream
  shaped : ∀ r ∈ s.segments.rows, r.Shaped s.nodes
  references : ∀ r ∈ s.segments.rows, r.piecesInAncestor = true → s.IsCommitted r.stream
  families : ∀ c a, s.ancestorOf? c = some a → s.Related c a
  unrelated : ∀ r ∈ s.segments.rows, r.piecesInAncestor = true → s.ancestorOf? r.stream = none →
    ∀ r' ∈ s.segmentsOf r.stream, r'.isDuplicated = true

theorem coherent_empty : Store.empty.Coherent where
  nodes := NodeTable.sound_empty
  distinct _ ho := absurd ho List.not_mem_nil
  owned _ hr := absurd hr List.not_mem_nil
  shaped _ hr := absurd hr List.not_mem_nil
  references _ hr := absurd hr List.not_mem_nil
  families _ _ h := by cases h
  unrelated _ hr := absurd hr List.not_mem_nil

variable {s s' : Store} {x : StreamId} {o o' : ObjectRow}

/-! ## Objects -/

/-- The stream of a pending object is no stream of a committed one. -/
theorem Coherent.ne_of_pending (hs : s.Coherent) (ho : o ∈ s.objects.rows)
    (hp : o.hasStatus .pending = true) (hx : s.IsCommitted x) : x ≠ o.stream := by
  rintro rfl
  obtain ⟨o₁, ho₁, hstream, hc⟩ := hx
  rw [hs.distinct o₁ ho₁ o ho hstream] at hc
  exact ObjectRow.not_committed_of_pending hp hc

/-- Rows of a pending object need no ancestor. -/
theorem Coherent.not_needs_of_pending (hs : s.Coherent) (ho : o ∈ s.objects.rows)
    (hp : o.hasStatus .pending = true) {r : SegmentRow} (hr : r ∈ s.segments.rows)
    (hstream : r.stream = o.stream) : r.piecesInAncestor = false := by
  rw [Bool.eq_false_iff]
  intro hneeds
  exact hs.ne_of_pending ho hp (hs.references r hr hneeds) hstream

/-- A row with pieces has no ancestor. -/
theorem Coherent.ancestorOf?_of_holdsPieces (hs : s.Coherent) {r : SegmentRow} (hr : r ∈ s.segments.rows)
    (hholds : r.holdsPieces = true) : s.ancestorOf? r.stream = none := by
  cases hanc : s.ancestorOf? r.stream with
  | none => rfl
  | some a =>
    obtain ⟨k, -, hm⟩ := ((hs.families _ _ hanc).rows r.position).exists_right (row?_self hr)
    rw [hm.no_pieces] at hholds
    exact absurd hholds (by decide)

section Replace

variable (ho : o ∈ s.objects.rows) (hid : o'.id = o.id)

include ho hid in
/-- Other object rows stay when a row is replaced. -/
theorem mem_replace {o₁ : ObjectRow} :
    o₁ ∈ (s.objects.insert o').rows ↔ o₁ = o' ∨ o₁ ∈ s.objects.rows ∧ o₁ ≠ o := by
  rw [Table.mem_insert, hid]
  refine or_congr_right (and_congr_right fun ho₁ => not_congr ?_)
  exact ⟨fun heq => s.objects.eq_of_key_eq ho₁ ho heq, fun heq => by rw [heq]⟩

variable (hstream : o'.stream = o.stream)

include ho hid hstream in
theorem exists_stream_replace :
    (∃ o₁ ∈ (s.objects.insert o').rows, o₁.stream = x) ↔ ∃ o₁ ∈ s.objects.rows, o₁.stream = x := by
  constructor
  · rintro ⟨o₁, ho₁, rfl⟩
    rcases (mem_replace ho hid).1 ho₁ with rfl | ⟨ho₁, -⟩
    · exact ⟨o, ho, hstream.symm⟩
    · exact ⟨o₁, ho₁, rfl⟩
  · rintro ⟨o₁, ho₁, rfl⟩
    by_cases heq : o₁ = o
    · subst heq
      exact ⟨o', (mem_replace ho hid).2 (.inl rfl), hstream⟩
    · exact ⟨o₁, (mem_replace ho hid).2 (.inr ⟨ho₁, heq⟩), rfl⟩

include ho hid hstream in
/-- Streams stay distinct when a row is replaced by one with its stream. -/
theorem Coherent.distinct_replace (hs : s.Coherent) :
    ∀ o₁ ∈ (s.objects.insert o').rows, ∀ o₂ ∈ (s.objects.insert o').rows,
      o₁.stream = o₂.stream → o₁ = o₂ := by
  intro o₁ ho₁ o₂ ho₂ heq
  rcases (mem_replace ho hid).1 ho₁ with h₁ | ⟨ho₁, hne₁⟩ <;>
    rcases (mem_replace ho hid).1 ho₂ with h₂ | ⟨ho₂, hne₂⟩
  · rw [h₁, h₂]
  · rw [h₁, hstream] at heq
    exact absurd (hs.distinct o ho o₂ ho₂ heq).symm hne₂
  · rw [h₂, hstream] at heq
    exact absurd (hs.distinct o₁ ho₁ o ho heq) hne₁
  · exact hs.distinct o₁ ho₁ o₂ ho₂ heq

end Replace

/-! ## Changes that leave committed streams alone -/

/-- A change that leaves the rows and relations of committed streams alone. Rows it stores need no
ancestor. -/
structure KeepsCommitted (s s' : Store) : Prop where
  nodes : s'.nodes.Sound ∧ s.nodes.Extends s'.nodes
  copies : s'.copies = s.copies
  distinct : ∀ o ∈ s'.objects.rows, ∀ o' ∈ s'.objects.rows, o.stream = o'.stream → o = o'
  committed : ∀ x, s.IsCommitted x → s'.IsCommitted x
  owned : ∀ r ∈ s'.segments.rows, ∃ o ∈ s'.objects.rows, o.stream = r.stream
  rows : ∀ x, s.IsCommitted x → ∀ p, s'.row? x p = s.row? x p
  stored : ∀ r ∈ s'.segments.rows, r ∈ s.segments.rows ∨
    r.Shaped s'.nodes ∧ r.piecesInAncestor = false

theorem KeepsCommitted.ancestorOf?_eq (h : KeepsCommitted s s') (x : StreamId) :
    s'.ancestorOf? x = s.ancestorOf? x := by
  unfold ancestorOf?
  rw [h.copies]

/-- **Such a change keeps the tables coherent.** -/
theorem Coherent.of_keepsCommitted (hs : s.Coherent) (h : KeepsCommitted s s') : s'.Coherent where
  nodes := h.nodes.1
  distinct := h.distinct
  owned := h.owned
  shaped r hr := by
    rcases h.stored r hr with hr | ⟨hr, -⟩
    · exact (hs.shaped r hr).mono h.nodes.2
    · exact hr
  references r hr hneeds := by
    rcases h.stored r hr with hr | ⟨-, hself⟩
    · exact h.committed _ (hs.references r hr hneeds)
    · rw [hself] at hneeds
      exact absurd hneeds (by decide)
  families c a hca := by
    rw [h.ancestorOf?_eq] at hca
    have hrel := hs.families c a hca
    refine ⟨hrel.ne, ?_, h.committed _ hrel.copy_committed, h.committed _ hrel.ancestor_committed,
      fun p => ?_⟩
    · rw [h.ancestorOf?_eq]
      exact hrel.root
    · rw [h.rows c hrel.copy_committed, h.rows a hrel.ancestor_committed]
      exact hrel.rows p
  unrelated r hr hneeds hnone := by
    rw [h.ancestorOf?_eq] at hnone
    rcases h.stored r hr with hr | ⟨-, hself⟩
    · rw [segmentsOf_congr (h.rows _ (hs.references r hr hneeds))]
      exact hs.unrelated r hr hneeds hnone
    · rw [hself] at hneeds
      exact absurd hneeds (by decide)

/-! ## Rows put in place -/

theorem row?_putSegments {rows : List SegmentRow} (hrows : (rows.map (·.id)).Nodup) {p : Int} :
    (s.putSegments rows).row? x p =
      (rows.find? fun r => decide (r.id = ⟨x, p⟩)).or (s.row? x p) :=
  Table.find?_foldl_insert hrows _

/-- A row after rows were put in place is one of them or was there before. -/
theorem mem_putSegments {rows : List SegmentRow} (hrows : (rows.map (·.id)).Nodup) {r : SegmentRow}
    (hr : r ∈ (s.putSegments rows).segments.rows) : r ∈ rows ∨ r ∈ s.segments.rows := by
  have hrow := row?_self hr
  rw [row?_putSegments hrows, Option.or_eq_some_iff] at hrow
  rcases hrow with hput | ⟨-, hold⟩
  · exact .inl (List.mem_of_find?_eq_some hput)
  · exact .inr (row?_eq_some_iff.1 hold).1

theorem row?_putSegments_of_ne {rows : List SegmentRow} (hrows : (rows.map (·.id)).Nodup)
    (hne : ∀ r ∈ rows, r.stream ≠ x) (p : Int) : (s.putSegments rows).row? x p = s.row? x p := by
  have hnone : (rows.find? fun r => decide (r.id = ⟨x, p⟩)) = none := by
    rw [List.find?_eq_none]
    intro r hr hid
    exact hne r hr (congrArg SegmentId.stream (of_decide_eq_true hid))
  rw [row?_putSegments hrows, hnone, Option.none_or]

/-- Laying segments out anew changes nothing but their offsets. -/
theorem map_withOffsets {β : Type} {f : SegmentRow → β}
    (hf : ∀ r k, f { r with plainOffset := k } = f r) (offset : Int) (rows : List SegmentRow) :
    (withOffsets offset rows).map f = rows.map f := by
  induction rows generalizing offset with
  | nil => rfl
  | cons r rest ih => rw [withOffsets, List.map_cons, List.map_cons, ih, hf]

theorem mem_withOffsets {offset : Int} {rows : List SegmentRow} {r : SegmentRow}
    (hr : r ∈ withOffsets offset rows) :
    ∃ r₀ ∈ rows, ∃ k, r = { r₀ with plainOffset := k } := by
  induction rows generalizing offset with
  | nil => exact absurd hr List.not_mem_nil
  | cons r₀ rest ih =>
    rcases List.mem_cons.1 hr with rfl | hr
    · exact ⟨r₀, List.mem_cons_self, offset, rfl⟩
    · obtain ⟨r₁, hr₁, k, rfl⟩ := ih hr
      exact ⟨r₁, List.mem_cons_of_mem _ hr₁, k, rfl⟩

theorem nodup_ids_segmentsOf (s : Store) (x : StreamId) : ((s.segmentsOf x).map (·.id)).Nodup :=
  (nodup_segmentsOf s x).map_on fun _ hr _ hr' heq =>
    s.segments.eq_of_key_eq (mem_segmentsOf.1 hr).1 (mem_segmentsOf.1 hr').1 heq

end Store

/-! ## Uploads -/

open Store

variable {s s' : Store}

namespace Store.Coherent

variable (hs : s.Coherent) {o : ObjectRow} (ho : o ∈ s.objects.rows)

include hs

theorem keeps_nodes : s.nodes.Sound ∧ s.nodes.Extends s.nodes := ⟨hs.nodes, .refl _⟩

theorem addNodes {nodes : List NodeId} {t : NodeTable} (hknown : ∀ n ∈ nodes, n.isZero = false)
    (hadd : s.nodes.addAll nodes = some t) : s.KeepsCommitted { s with nodes := t } := by
  obtain ⟨hsound, hext, -⟩ := hs.nodes.addAll hknown hadd
  exact ⟨⟨hsound, hext⟩, rfl, hs.distinct, fun _ hx => hx, hs.owned, fun _ _ _ => rfl,
    fun _ hr => .inl hr⟩

theorem start (hfree : s.objects.find? o.id = none) (hfresh : s.Lacks o.stream) :
    s.KeepsCommitted (s.addObject o) := by
  have hmem : ∀ o₁, o₁ ∈ (s.addObject o).objects.rows ↔
      o₁ = { o with serial := s.nextSerial } ∨ o₁ ∈ s.objects.rows := by
    intro o₁
    unfold addObject
    rw [Table.mem_insert]
    exact or_congr_right (and_iff_left_of_imp (Table.find?_eq_none_iff.1 hfree o₁))
  refine ⟨hs.keeps_nodes, rfl, fun o₁ ho₁ o₂ ho₂ heq => ?_, fun x hx => ?_, fun r hr => ?_,
    fun _ _ _ => rfl, fun _ hr => .inl hr⟩
  · rcases (hmem o₁).1 ho₁ with rfl | ho₁ <;> rcases (hmem o₂).1 ho₂ with rfl | ho₂
    · rfl
    · exact absurd heq.symm (hfresh.1 o₂ ho₂)
    · exact absurd heq (hfresh.1 o₁ ho₁)
    · exact hs.distinct o₁ ho₁ o₂ ho₂ heq
  · obtain ⟨o₁, ho₁, h₁⟩ := hx
    exact ⟨o₁, (hmem o₁).2 (.inr ho₁), h₁⟩
  · obtain ⟨o₁, ho₁, h₁⟩ := hs.owned r hr
    exact ⟨o₁, (hmem o₁).2 (.inr ho₁), h₁⟩

include ho

theorem storeSegment (hstatus : o.hasStatus .pending = true) {r : SegmentRow}
    (hstream : r.stream = o.stream) (hshaped : r.Shaped s.nodes) (hself : r.piecesInAncestor = false) :
    s.KeepsCommitted { s with segments := s.segments.insert r } := by
  refine ⟨hs.keeps_nodes, rfl, hs.distinct, fun _ hx => hx, fun r' hr' => ?_, fun x hx p => ?_,
    fun r' hr' => ?_⟩
  · rcases Table.mem_insert.1 hr' with rfl | ⟨hr', -⟩
    · exact ⟨o, ho, hstream.symm⟩
    · exact hs.owned r' hr'
  · have hne : r.id ≠ ⟨x, p⟩ := fun heq =>
      hs.ne_of_pending ho hstatus hx (hstream ▸ (congrArg SegmentId.stream heq).symm)
    rw [row?, Table.find?_insert, if_neg hne]
    rfl
  · rcases Table.mem_insert.1 hr' with rfl | ⟨hr', -⟩
    · exact .inr ⟨hshaped, hself⟩
    · exact .inl hr'

theorem dropSegments (hstatus : o.hasStatus .pending = true) (kept : List Position) :
    s.KeepsCommitted (s.dropOtherSegments o.stream kept) := by
  have hsub : ∀ r ∈ (s.dropOtherSegments o.stream kept).segments.rows, r ∈ s.segments.rows :=
    fun r hr => (List.mem_filter.1 hr).1
  refine ⟨hs.keeps_nodes, rfl, hs.distinct, fun _ hx => hx, fun r hr => hs.owned r (hsub r hr),
    fun x hx p => ?_, fun r hr => .inl (hsub r hr)⟩
  unfold dropOtherSegments row?
  rw [Table.find?_filter]
  cases hr : s.segments.find? ⟨x, p⟩ with
  | none => rfl
  | some r =>
    obtain ⟨-, rfl, -⟩ := row?_eq_some_iff.1 hr
    have hne := hs.ne_of_pending ho hstatus hx
    exact Option.filter_some_pos (by simp [hne])

theorem complete (hstatus : o.hasStatus .pending = true) (r : CommitObject)
    (metadata : Option Metadata) :
    s.KeepsCommitted { s.putSegments (withOffsets 0 (s.segmentsOf o.stream)) with
      objects := s.objects.insert (r.row metadata o (s.segmentsOf o.stream)) } := by
  have hid : (r.row metadata o (s.segmentsOf o.stream)).id = o.id := rfl
  have hids : ((withOffsets 0 (s.segmentsOf o.stream)).map (·.id)).Nodup := by
    rw [map_withOffsets fun _ _ => rfl]
    exact nodup_ids_segmentsOf s o.stream
  -- the rows that are laid out anew are rows of the upload
  have hput : ∀ r' ∈ withOffsets 0 (s.segmentsOf o.stream), ∃ r₀ ∈ s.segments.rows,
      r₀.stream = o.stream ∧ ∃ k, r' = { r₀ with plainOffset := k } := by
    intro r' hr'
    obtain ⟨r₀, hr₀, k, hk⟩ := mem_withOffsets hr'
    obtain ⟨hmem, hstream⟩ := mem_segmentsOf.1 hr₀
    exact ⟨r₀, hmem, hstream, k, hk⟩
  refine ⟨hs.keeps_nodes, rfl, hs.distinct_replace ho hid rfl, fun x hx => ?_, fun r' hr' => ?_,
    fun x hx p => ?_, fun r' hr' => ?_⟩
  · obtain ⟨o₁, ho₁, hstream, hc⟩ := hx
    refine ⟨o₁, (mem_replace ho hid).2 (.inr ⟨ho₁, ?_⟩), hstream, hc⟩
    rintro rfl
    exact ObjectRow.not_committed_of_pending hstatus hc
  · refine (exists_stream_replace ho hid rfl).2 ?_
    rcases mem_putSegments hids hr' with hr' | hr'
    · obtain ⟨r₀, hr₀, -, k, rfl⟩ := hput r' hr'
      exact hs.owned r₀ hr₀
    · exact hs.owned r' hr'
  · refine row?_putSegments_of_ne hids (fun r' hr' => ?_) p
    obtain ⟨r₀, -, hstream, k, rfl⟩ := hput r' hr'
    exact fun heq => hs.ne_of_pending ho hstatus hx (heq.symm.trans hstream)
  · rcases mem_putSegments hids hr' with hr' | hr'
    · obtain ⟨r₀, hr₀, hstream, k, rfl⟩ := hput r' hr'
      have hself := hs.not_needs_of_pending ho hstatus hr₀ hstream
      exact .inr ⟨(hs.shaped r₀ hr₀).withOffset k, hself⟩
    · exact .inl hr'

theorem replaceMetadata (parts : MetadataParts) :
    s.KeepsCommitted { s with objects := s.objects.insert { o with metadata := parts } } := by
  have hid : ({ o with metadata := parts } : ObjectRow).id = o.id := rfl
  refine ⟨hs.keeps_nodes, rfl, hs.distinct_replace ho hid rfl, fun x hx => ?_, fun r hr => ?_,
    fun _ _ _ => rfl, fun _ hr => .inl hr⟩
  · obtain ⟨o₁, ho₁, hstream, hc⟩ := hx
    by_cases heq : o₁ = o
    · subst heq
      exact ⟨_, (mem_replace ho hid).2 (.inl rfl), hstream, hc⟩
    · exact ⟨o₁, (mem_replace ho hid).2 (.inr ⟨ho₁, heq⟩), hstream, hc⟩
  · exact (exists_stream_replace ho hid rfl).2 (hs.owned r hr)

end Store.Coherent

/-- **Uploads leave the streams of committed objects alone.** -/
theorem UploadStep.keepsCommitted (hs : s.Coherent) (h : UploadStep Store.Lacks s s') :
    s.KeepsCommitted s' := by
  cases h with
  | nodes hknown hadd => exact hs.addNodes hknown hadd
  | start _ hfree hfresh => exact hs.start hfree hfresh
  | segment ho hstatus hstream hshaped hself => exact hs.storeSegment ho hstatus hstream hshaped hself
  | drop ho hstatus kept => exact hs.dropSegments ho hstatus kept
  | complete ho hstatus r metadata => exact hs.complete ho hstatus r metadata
  | metadata ho _ parts => exact hs.replaceMetadata ho parts

/-- **Uploads keep the tables coherent.** -/
theorem UploadStep.coherent (hs : s.Coherent) (h : UploadStep Store.Lacks s s') : s'.Coherent :=
  hs.of_keepsCommitted (h.keepsCommitted hs)

end ObjectCatalog
