import ObjectCatalog.Proofs.Calls
import ObjectCatalog.Proofs.Copies
import ObjectCatalog.Upload.Segment

/-!
# Calls that upload and copy

Each call of an upload does steps of an upload to the tables, also when it fails after its first
step; a copy does one change or none.

* `Catalog.run_aliasesOf`: pieces in stored form name rows of the alias table.
* `CommitSegment.Checked.shaped_row`, `CommitInlineSegment.shaped_row`: the rows that uploads store.
* `Catalog.does_commitSegment` and its companions: **what each call does.**
-/

namespace ObjectCatalog

/-! ## What the checks of an upload ensure -/

/-- Pieces after a piece have higher numbers, in ascending order. -/
theorem Piece.ascending_of_checkAfter {previous : Option UInt16} {pieces : List Piece}
    (h : checkAfter previous pieces = .ok ()) :
    pieces.Pairwise (fun a b => a.number < b.number) ∧
      ∀ n, previous = some n → ∀ p ∈ pieces, n < p.number := by
  induction pieces generalizing previous with
  | nil => exact ⟨.nil, fun _ _ _ hp => absurd hp List.not_mem_nil⟩
  | cons p rest ih =>
    rw [checkAfter] at h
    obtain ⟨_, -, h⟩ := Except.bind_eq_ok.1 h
    obtain ⟨_, hrepeated, h⟩ := Except.bind_eq_ok.1 h
    obtain ⟨_, hordered, h⟩ := Except.bind_eq_ok.1 h
    obtain ⟨hasc, hafter⟩ := ih h
    have hrest := hafter p.number rfl
    refine ⟨List.pairwise_cons.2 ⟨hrest, hasc⟩, fun n hn q hq => ?_⟩
    subst hn
    have hne : n ≠ p.number := by simpa using reject_eq_ok.1 hrepeated
    have hle : ¬ p.number < n := by simpa using reject_eq_ok.1 hordered
    have hlt : n < p.number := UInt16.lt_of_le_of_ne (UInt16.not_lt.1 hle) hne
    rcases List.mem_cons.1 hq with rfl | hq
    · exact hlt
    · exact UInt16.lt_trans hlt (hrest q hq)

theorem Piece.of_checkAll {pieces : List Piece} (h : checkAll pieces = .ok ()) :
    pieces ≠ [] ∧ pieces.Pairwise fun a b => a.number < b.number := by
  unfold checkAll at h
  obtain ⟨_, hempty, h⟩ := Except.bind_eq_ok.1 h
  refine ⟨?_, (ascending_of_checkAfter h).1⟩
  simpa using reject_eq_ok.1 hempty

theorem Position.of_check {p : Position} (h : p.check = .ok ()) : p.part ≤ maxPart :=
  by simpa using reject_eq_ok.1 h

/-- A version of the caller's choice is positive. -/
theorem BeginObject.version_pos {r : BeginObject} {metadata : Option Metadata}
    (h : r.check = .ok metadata) (hne : r.stream.version ≠ 0) : 0 < r.stream.version.toInt := by
  unfold BeginObject.check ObjectStream.check at h
  obtain ⟨_, hstream, -⟩ := Except.bind_eq_ok.1 h
  obtain ⟨_, -, hstream⟩ := Except.bind_eq_ok.1 hstream
  obtain ⟨_, hversion, -⟩ := Except.bind_eq_ok.1 hstream
  have hnonneg : ¬ r.stream.version < 0 := by simpa using reject_eq_ok.1 hversion
  have hzero : r.stream.version.toInt ≠ 0 := fun h => hne (Int64.toInt_inj.1 h)
  rw [Int64.lt_iff_toInt_lt] at hnonneg
  change ¬ r.stream.version.toInt < 0 at hnonneg
  omega

/-- What the check of a remote segment ensures. -/
structure CommitSegment.Checked (r : CommitSegment) : Prop where
  position : r.position.part ≤ Position.maxPart
  rootPiece : r.rootPiece.isZero = false
  pieces : r.pieces ≠ []
  ascending : r.pieces.Pairwise fun a b => a.number < b.number
  encryptedSize : 0 < r.encryptedSize.toInt
  redundancy : r.redundancy.isZero = false

theorem CommitSegment.checked_of_check {r : CommitSegment} {validatePlainSize : Bool}
    (h : r.check validatePlainSize = .ok ()) : r.Checked := by
  unfold CommitSegment.check at h
  obtain ⟨_, -, h⟩ := Except.bind_eq_ok.1 h
  obtain ⟨_, hposition, h⟩ := Except.bind_eq_ok.1 h
  obtain ⟨_, hroot, h⟩ := Except.bind_eq_ok.1 h
  obtain ⟨_, hpieces, h⟩ := Except.bind_eq_ok.1 h
  obtain ⟨_, -, h⟩ := Except.bind_eq_ok.1 h
  obtain ⟨_, hsize, h⟩ := Except.bind_eq_ok.1 h
  obtain ⟨_, -, h⟩ := Except.bind_eq_ok.1 h
  obtain ⟨_, -, h⟩ := Except.bind_eq_ok.1 h
  obtain ⟨_, -, h⟩ := Except.bind_eq_ok.1 h
  obtain ⟨_, hredundancy, -⟩ := Except.bind_eq_ok.1 h
  obtain ⟨hnonempty, hascending⟩ := Piece.of_checkAll hpieces
  refine ⟨Position.of_check hposition, reject_eq_ok.1 hroot, hnonempty, hascending, ?_,
    reject_eq_ok.1 hredundancy⟩
  have hnot : ¬ r.encryptedSize ≤ 0 := by simpa using reject_eq_ok.1 hsize
  rw [Int32.le_iff_toInt_le] at hnot
  exact not_le.1 hnot

/-! ## Rows that uploads store -/

/-- The row of a checked remote segment whose pieces are in the alias table. -/
theorem CommitSegment.Checked.shaped_row {r : CommitSegment} (h : r.Checked) {t : NodeTable}
    (now : Instant) (pending : ObjectRow) {aliases : List AliasPiece}
    (haliases : List.Forall₂ (fun p a => a.number = p.number ∧ (t.node? a.short).isSome)
      r.pieces aliases) :
    (r.row now pending aliases).Shaped t ∧
      (r.row now pending aliases).piecesInAncestor = false := by
  have hnumbers : r.pieces.map (·.number) = aliases.map (·.number) := by
    refine List.forall₂_eq_eq_eq ▸ List.forall₂_map_left_iff.2 (List.forall₂_map_right_iff.2 ?_)
    exact haliases.imp fun _ _ ha => ha.1.symm
  have hlist : SegmentRow.IsPieceList t aliases := by
    refine ⟨fun hnil => ?_, ?_, fun a ha => ?_⟩
    · rw [hnil, List.map_nil, List.map_eq_nil_iff] at hnumbers
      exact h.pieces hnumbers
    · have hasc := List.pairwise_map.2 h.ascending
      rw [hnumbers] at hasc
      exact List.pairwise_map.1 hasc
    · obtain ⟨p, -, hp⟩ := Except.exists_of_forall₂ haliases ha
      exact hp.2
  have hremote : SegmentRow.IsRemote t (r.row now pending aliases) :=
    ⟨⟨aliases, hlist, rfl⟩, ⟨r.rootPiece, h.rootPiece, rfl⟩, rfl, h.encryptedSize⟩
  exact ⟨⟨.inl hremote, ⟨r.encryptedSize, rfl⟩, ⟨r.plainSize, rfl⟩,
    ⟨r.position, h.position, by simp only [row]⟩, rfl⟩,
    SegmentRow.piecesInAncestor_of_holdsPieces hremote.holdsPieces⟩

/-- The row of an inline segment. -/
theorem CommitInlineSegment.shaped_row {r : CommitInlineSegment}
    (h : r.position.part ≤ Position.maxPart) (t : NodeTable) (now : Instant)
    (pending : ObjectRow) :
    (r.row now pending).Shaped t ∧ (r.row now pending).piecesInAncestor = false := by
  have hinline : (r.row now pending).IsInline :=
    ⟨rfl, rfl, rfl, r.inlineData, by simp only [row], by simp only [row]⟩
  have hsize : (r.row now pending).encryptedSize =
      (Int32.ofInt ((r.inlineData.length : Int).bmod 4294967296)).toInt := by
    rw [Int32.toInt_ofInt_of_le (by rw [Int.bmod_def]; omega) (by rw [Int.bmod_def]; omega)]
    simp only [row]
  exact ⟨⟨.inr (.inl hinline), ⟨_, hsize⟩, ⟨r.plainSize, rfl⟩, ⟨r.position, h, by simp only [row]⟩,
    rfl⟩, hinline.not_needs⟩

/-! ## Rows that are stored over others -/

section Store

variable (now : Instant) (o : ObjectRow) (segments : Table SegmentRow.id)

/-- **Storing a remote segment leaves nothing of the row that was at its position.** -/
theorem CommitSegment.store_eq (r : CommitSegment) (aliases : List AliasPiece) :
    r.store now o aliases segments = segments.insert (r.row now o aliases) :=
  Table.upsert_eq_insert fun old hid => by
    obtain ⟨hstream, hposition⟩ := SegmentId.mk.inj hid
    simp only [overwrite, row] at hstream hposition ⊢
    rw [hstream, hposition]

/-- **Storing an inline segment leaves nothing of the row that was at its position.** -/
theorem CommitInlineSegment.store_eq (r : CommitInlineSegment) :
    r.store now o segments = segments.insert (r.row now o) :=
  Table.upsert_eq_insert fun old hid => by
    obtain ⟨hstream, hposition⟩ := SegmentId.mk.inj hid
    simp only [overwrite, row] at hstream hposition ⊢
    rw [hstream, hposition]

end Store

/-! ## Aliases -/

namespace AliasCache

variable {c : AliasCache} {nodes : List NodeId} {found : List NodeId}

/-- The zero node is never among the nodes that are looked up. -/
theorem known_of_missing (h : c.missing nodes = .ok found) : ∀ n ∈ found, n.isZero = false := by
  unfold missing at h
  dsimp only at h
  split at h
  · cases h
  · next hnone =>
    cases h
    intro n hn
    simpa using List.find?_eq_none.1 hnone n hn

end AliasCache

namespace Catalog

variable {α : Type} {c : Catalog} {s : Store} {t : Terms}

/-- Nodes get aliases in one step, or nothing is stored. -/
theorem does_ensureNodes {R : Store → Store → Prop} (hrefl : R s s)
    (hnodes : ∀ (found : List NodeId) (table : NodeTable), s.nodes.Sound →
      (∀ n ∈ found, n.isZero = false) → s.nodes.addAll found = some table →
        R s { s with nodes := table })
    (nodes : List NodeId) : Does R s (ensureNodes nodes) := by
  intro c hc
  unfold ensureNodes
  rw [run_get_bind, run_lift_bind]
  cases hmissing : c.cache.missing nodes with
  | error e => exact ⟨s, hc, hrefl⟩
  | ok found =>
    dsimp only
    cases found.isEmpty with
    | true => exact ⟨s, hc, hrefl⟩
    | false =>
      have hknown := AliasCache.known_of_missing hmissing
      simp only [Bool.false_eq_true, if_false]
      rw [run_tables_bind hc.store]
      cases hadd : s.nodes.addAll found with
      | none => exact ⟨s, hc, hrefl⟩
      | some table =>
        obtain ⟨hsound, hext, -⟩ := hc.aliases.addAll hknown hadd
        refine ⟨{ s with nodes := table }, ⟨rfl, ?_, hsound⟩,
          hnodes found table hc.aliases hknown hadd⟩
        exact (hc.cache.mono hext).remember fun r hr => (List.mem_filter.1 hr).1

theorem changes_ensureNodes (nodes : List NodeId) :
    Does (Changes Terms.none) s (ensureNodes nodes) :=
  does_ensureNodes .refl (fun _ _ _ hknown hadd => .single (.upload (.nodes hknown hadd))) nodes

/-- **Pieces in stored form name rows of the alias table.** -/
theorem run_aliasesOf (hc : c.Open s) (pieces : List Piece) :
    ∃ s', (c.run (aliasesOf pieces)).2.Open s' ∧ Changes Terms.none s s' ∧
      ∀ aliases, (c.run (aliasesOf pieces)).1 = .ok aliases →
        List.Forall₂ (fun p a => a.number = p.number ∧ s'.nodes.node? a.short = some p.node)
          pieces aliases := by
  obtain ⟨s', hopen, hchanges⟩ := changes_ensureNodes (s := s) (pieces.map (·.node)) c hc
  refine ⟨s', ?_⟩
  unfold aliasesOf
  rcases hrun : c.run (ensureNodes (pieces.map (·.node))) with ⟨e | u, c'⟩
  · rw [hrun] at hopen
    rw [run_bind_error hrun]
    exact ⟨hopen, hchanges, fun _ h => by cases h⟩
  · rw [hrun] at hopen
    rw [run_bind_ok hrun]
    refine ⟨hopen, hchanges, fun aliases h => ?_⟩
    have hall : c'.cache.aliasesOf pieces = .ok aliases := h
    refine (Except.mapM_eq_ok_iff.1 hall).imp fun p a hpa => ?_
    cases hshort : c'.cache.aliasOf? p.node with
    | none => rw [hshort] at hpa; cases hpa
    | some short =>
      rw [hshort] at hpa
      cases hpa
      have hrow := hopen.cache.aliasOf?_eq hshort
      exact ⟨rfl, Option.map_eq_some_iff.2
        ⟨⟨short, p.node⟩, Table.find?_eq_some_iff.2 ⟨hrow, rfl⟩, rfl⟩⟩

/-! ## Objects of an upload -/

/-- The object that a call has read is the one that it has found. -/
theorem objectOf?_of_read {stream : ObjectStream} {row o : ObjectRow}
    (hfound : s.objectOf? stream .pending = some row)
    (hread : (row.view .fetchObject >>= fun _ => pure row) = .ok o) :
    s.objectOf? stream .pending = some o := by
  obtain ⟨_, -, hsame⟩ := Except.bind_eq_ok.1 hread
  cases hsame
  exact hfound

theorem objectOf?_of_pending {stream : ObjectStream} {o : ObjectRow}
    (h : s.pending stream = .ok o) : s.objectOf? stream .pending = some o := by
  unfold Store.pending at h
  cases hfound : s.objectOf? stream .pending with
  | none => rw [hfound] at h; cases h
  | some row =>
    rw [hfound] at h
    rw [← hfound]
    exact objectOf?_of_read hfound h

theorem objectOf?_of_pendingForCommit {stream : ObjectStream} {o : ObjectRow}
    (h : s.pendingForCommit stream = .ok o) : s.objectOf? stream .pending = some o := by
  unfold Store.pendingForCommit at h
  cases hfound : s.objectOf? stream .pending with
  | none => rw [hfound] at h; cases h
  | some row =>
    rw [hfound] at h
    rw [← hfound]
    exact objectOf?_of_read hfound h

theorem find?_of_not_contains {k : ObjectId} (h : ¬ s.objects.contains k = true) :
    s.objects.find? k = none := by
  rwa [Table.contains, Option.not_isSome_iff_eq_none] at h

/-! ## The calls of an upload -/

/-- A pending row is added under a key and version that no row has. -/
theorem does_start {o : ObjectRow} {taken : Error} {statement : Statement}
    (hstatus : o.hasStatus .pending = true) (hallow : t.stream s o.stream)
    (hversion : o.version = s.nextVersion o.location ∨ 0 < o.version) :
    Does (Move t) s (do
      if s.objects.contains o.id then throw taken
      commit (s.addObject o)
      o.view statement) := by
  dsimp only
  split
  · exact (quiet_throw _).does (.refl _ _)
  · next hfree =>
    exact does_commit_bind_of_nodes rfl
      (.change (.upload (.start hstatus (find?_of_not_contains hfree) hallow hversion))) (quiet_lift _)

theorem does_beginNextVersion {r : BeginObject} (now : Instant)
    (hallow : t.stream s r.stream.stream) : Does (Move t) s (beginNextVersion now r) := by
  refine does_lift_bind (.refl _ _) fun metadata _ => does_reject_bind (.refl _ _) fun _ => ?_
  refine does_tables_bind (does_get_bind fun c _ => ?_)
  exact does_start (ObjectRow.hasStatus_iff.2 rfl) hallow (.inl rfl)

theorem does_beginExactVersion {r : BeginObject} (now : Instant)
    (hallow : t.stream s r.stream.stream) : Does (Move t) s (beginExactVersion now r) := by
  refine does_lift_bind (.refl _ _) fun metadata hcheck => ?_
  refine does_reject_bind (.refl _ _) fun hversion => ?_
  refine does_tables_bind (does_get_bind fun c _ => ?_)
  have hpos := BeginObject.version_pos hcheck (by simpa using hversion)
  exact does_start (ObjectRow.hasStatus_iff.2 rfl) hallow (.inr hpos)

theorem does_commitInlineSegment (now : Instant) (r : CommitInlineSegment)
    (hrow : ∀ o, t.row (r.row now o)) : Does (Move t) s (commitInlineSegment now r) := by
  refine does_lift_bind (.refl _ _) fun _ hcheck => does_tables_bind ?_
  refine does_lift_bind (.refl _ _) fun o ho => ?_
  obtain ⟨hmem, -, hstream, hstatus⟩ := Store.objectOf?_eq_some (objectOf?_of_pending ho)
  have hposition : r.position.part ≤ Position.maxPart := by
    unfold CommitInlineSegment.check at hcheck
    obtain ⟨_, -, hcheck⟩ := Except.bind_eq_ok.1 hcheck
    obtain ⟨_, hposition, -⟩ := Except.bind_eq_ok.1 hcheck
    exact Position.of_check hposition
  obtain ⟨hshaped, hself⟩ :=
    CommitInlineSegment.shaped_row hposition s.nodes now o
  rw [CommitInlineSegment.store_eq]
  exact does_commit (.refl _) (fun h => h)
    (.upload (.segment hmem hstatus hstream.symm hshaped hself (hrow o)))

theorem does_commitSegment (now : Instant) (r : CommitSegment)
    (hrow : r.redundancy.isZero = false → ∀ o aliases, t.row (r.row now o aliases)) :
    Does (Move t) s (commitSegment now r) := by
  refine does_get_bind fun c₀ _ => does_lift_bind (.refl _ _) fun _ hcheck => ?_
  have hchecked := CommitSegment.checked_of_check hcheck
  -- the nodes of the pieces get aliases first, and keep them if the segment is not stored
  intro c hc
  obtain ⟨s₁, hopen, hchanges, haliases⟩ := run_aliasesOf hc r.pieces
  rcases hrun : c.run (aliasesOf r.pieces) with ⟨e | aliases, c'⟩
  · rw [hrun] at hopen
    rw [run_bind_error hrun]
    exact ⟨s₁, hopen, .ofNone hchanges⟩
  · rw [hrun] at hopen haliases
    rw [run_bind_ok hrun]
    have hrest : Does (Changes t.closed) s₁ (do
        let s ← tables .fetchObject
        let pending ← s.pending r.stream
        commit { s with segments := r.store now pending aliases s.segments }) := by
      refine does_tables_bind (does_lift_bind .refl fun o ho => ?_)
      obtain ⟨hmem, -, hstream, hstatus⟩ := Store.objectOf?_eq_some (objectOf?_of_pending ho)
      obtain ⟨hshaped, hself⟩ := hchecked.shaped_row now o <|
        (haliases aliases rfl).imp fun _ _ h => ⟨h.1, by rw [h.2]; rfl⟩
      rw [CommitSegment.store_eq]
      exact does_commit (.refl _) (fun h => h)
        (.single (.upload (.segment hmem hstatus hstream.symm hshaped hself
          (hrow hchecked.redundancy o aliases))))
    obtain ⟨s', hopen', hchanges'⟩ := hrest c' hopen
    exact ⟨s', hopen', .changes ((hchanges.mono (Terms.none_within _)).trans hchanges')⟩

/-- What completing an upload does to the tables. -/
theorem complete_eq_ok {settings : Settings} {r : CommitObject} {metadata : Option Metadata}
    {o : ObjectRow} {rows : List SegmentRow} {object : Object} {s' : Store}
    (h : s.complete settings r metadata o rows = .ok (object, s')) :
    s' = { s.putSegments (withOffsets 0 rows) with
      objects := s.objects.insert (r.row metadata o rows) } := by
  unfold Store.complete at h
  obtain ⟨_, -, h⟩ := Except.bind_eq_ok.1 h
  obtain ⟨_, -, h⟩ := Except.bind_eq_ok.1 h
  cases h
  rfl

theorem does_commitObject (r : CommitObject) : Does (Move t) s (commitObject r) := by
  refine does_lift_bind (.refl _ _) fun metadata _ => does_tables_bind ?_
  refine does_lift_bind (.refl _ _) fun o ho => ?_
  have hpending := objectOf?_of_pendingForCommit ho
  obtain ⟨hmem, -, hstream, hstatus⟩ := Store.objectOf?_eq_some hpending
  refine does_lift_bind (.refl _ _) fun _ _ => does_get_bind fun c _ => ?_
  refine does_lift_bind (.refl _ _) fun out hout => ?_
  obtain ⟨object, s'⟩ := out
  obtain rfl := complete_eq_ok hout
  rw [← hstream]
  exact does_commit_bind_of_nodes rfl (.upload (.complete hmem hstatus r metadata)) (quiet_pure _)

/-- The listed segments of a stream are its segments once the others are dropped. -/
theorem segmentsOf_dropOtherSegments (x : StreamId) (kept : List Position) :
    (s.dropOtherSegments x kept).segmentsOf x =
      (s.segmentsOf x).filter fun r => decide (r.place ∈ kept) := by
  unfold Store.segmentsOf Store.dropOtherSegments
  rw [Table.rows_filter, List.filter_filter, List.filter_filter]
  refine List.filter_congr fun r _ => ?_
  by_cases hr : r.stream = x <;> simp [hr]

theorem does_commitObjectWithSegments (r : CommitObjectWithSegments) :
    Does (Move t) s (commitObjectWithSegments r) := by
  refine does_lift_bind (.refl _ _) fun metadata _ => does_lift_bind (.refl _ _) fun _ _ => ?_
  refine does_tables_bind (does_lift_bind (.refl _ _) fun o ho => ?_)
  have hpending := objectOf?_of_pendingForCommit ho
  obtain ⟨hmem, -, hstream, hstatus⟩ := Store.objectOf?_eq_some hpending
  refine does_lift_bind (.refl _ _) fun _ _ => ?_
  dsimp only
  cases r.segments.find? fun p => !(s.segmentsOf r.commit.stream.stream).any fun x =>
      decide (x.place = p) with
  | some absent => exact does_throw_bind (.refl _ _)
  | none =>
    dsimp only
    rw [List.partition_eq_filter_filter]
    refine (quiet_reading (SegmentRow.gives_release _ _).learns).does_bind (.refl _ _) fun _ => ?_
    refine does_get_bind fun c _ => does_lift_bind (.refl _ _) fun out hout => ?_
    obtain ⟨object, s'⟩ := out
    obtain rfl := complete_eq_ok hout
    rw [← segmentsOf_dropOtherSegments, ← hstream]
    have hkept : o ∈ (s.dropOtherSegments o.stream r.segments).objects.rows := hmem
    refine does_commit_bind_of_nodes rfl (.changes ?_) (quiet_pure _)
    exact .head (.upload (.drop hmem hstatus r.segments))
      (.single (.upload (.complete hkept hstatus r.commit metadata)))

theorem does_updateMetadata (r : UpdateMetadata) : Does (Move t) s (updateMetadata r) := by
  refine does_lift_bind (.refl _ _) fun _ _ => does_lift_bind (.refl _ _) fun metadata _ => ?_
  refine does_tables_bind ?_
  cases hfound : s.objectOf? r.stream .committed with
  | none => exact (quiet_throw _).does (.refl _ _)
  | some o =>
    obtain ⟨hmem, -, -, hstatus⟩ := Store.objectOf?_eq_some hfound
    exact does_commit (.refl _) (fun h => h) (.upload (.metadata hmem hstatus _))

/-! ## Copies -/

theorem does_finishCopy {r : FinishCopy} (now : Instant) (hallow : t.stream s r.newStream) :
    Does (Move t) s (finishCopy now r) := by
  refine does_lift_bind (.refl _ _) fun _ _ => does_tables_bind ?_
  refine does_lift_bind (.refl _ _) fun out hout => ?_
  obtain ⟨object, s'⟩ := out
  obtain ⟨_, _, _, _, hcopied⟩ := Store.copied_of_ok hout
  exact does_commit_bind_of_nodes hcopied.nodes (.change (.copy hallow hout)) (quiet_pure _)

end Catalog

end ObjectCatalog
