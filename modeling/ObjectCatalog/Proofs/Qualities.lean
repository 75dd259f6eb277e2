import ObjectCatalog.Proofs.Runs

/-!
# Qualities of segment rows

Rows of segments come from uploads and copies. Later they are laid out anew, take the pieces of
another row, or go; nothing else happens to them, whatever stream ids a run gives. So a quality that
these steps keep is one of all rows.

* `SegmentRow.Lasting`: a quality that rows get when they are stored, and that no step takes from them.
* `Change.lasting`: **every change leaves rows with such a quality,** and so does every run:
  `Site.Reachable.lasting`.
* `Site.Reachable.sane`: the rows of any run can be read, stand at a position, and have pieces on known
  nodes.
* `Site.Reachable.packed`: none of their blobs is without pieces.
-/

namespace ObjectCatalog

/-- A quality that rows get when they are stored, and that no change takes from them. -/
structure SegmentRow.Lasting (t : Terms) (quality : NodeTable → SegmentRow → Prop) : Prop where
  mono : ∀ {n n' : NodeTable} {r : SegmentRow}, n.Extends n' → quality n r → quality n' r
  stored : ∀ {n : NodeTable} {r : SegmentRow}, r.Shaped n → t.row r → quality n r
  offset : ∀ {n : NodeTable} {r : SegmentRow} (k : Int), quality n r →
    quality n { r with plainOffset := k }
  taken : ∀ {n : NodeTable} {r k : SegmentRow}, quality n r → quality n k →
    quality n (r.withPiecesOf k)
  copied : ∀ {n : NodeTable} {r : SegmentRow} (now : Instant) (x : StreamId) (key : SegmentKey),
    quality n r → quality n (r.copied now x key)

/-- Every row of the tables has a quality. -/
def Store.AllRows (s : Store) (quality : NodeTable → SegmentRow → Prop) : Prop :=
  ∀ r ∈ s.segments.rows, quality s.nodes r

variable {t : Terms} {s s' : Store} {quality : NodeTable → SegmentRow → Prop}

/-! ## Removal -/

namespace Store

section Removal

variable {Q : SegmentRow → Prop}

theorem of_mem_takeSegments (hall : ∀ r ∈ s.segments.rows, Q r) (gone : List StreamId) :
    (∀ b ∈ (s.takeSegments gone).1, ∀ r ∈ b.2, Q r) ∧
      ∀ r ∈ (s.takeSegments gone).2.segments.rows, Q r := by
  induction gone generalizing s with
  | nil => exact ⟨fun _ hb => absurd hb List.not_mem_nil, hall⟩
  | cons x rest ih =>
    -- the streams that follow are taken from what is left without this one
    have hkept : ∀ r ∈ (s.segments.filter fun r => decide (r.stream ≠ x)).rows, Q r :=
      fun r hr => hall r (List.mem_filter.1 hr).1
    obtain ⟨htaken, hleft⟩ :=
      ih (s := { s with segments := s.segments.filter fun r => decide (r.stream ≠ x) }) hkept
    refine ⟨fun b hb r hr => ?_, hleft⟩
    rcases List.mem_cons.1 hb with rfl | hb
    · exact hall r (List.mem_filter.1 hr).1
    · exact htaken b hb r hr

/-- A row after a promotion is one from before, or one with the pieces of a removed row. -/
theorem mem_promote {x heir : StreamId} {rows : List SegmentRow} {r : SegmentRow}
    (hr : r ∈ (s.promote x heir rows).2.segments.rows) :
    r ∈ s.segments.rows ∨ ∃ r₀ ∈ s.segments.rows, ∃ k ∈ rows, r = r₀.withPiecesOf k := by
  have hrow := row?_self hr
  rw [row?_promote] at hrow
  split at hrow
  · obtain ⟨r₀, hr₀, rfl⟩ := Option.map_eq_some_iff.1 hrow
    have hmem : r₀ ∈ s.segments.rows := (row?_eq_some_iff.1 hr₀).1
    unfold SegmentRow.inherit
    split
    · next k hk => exact .inr ⟨r₀, hmem, k, List.mem_of_find?_eq_some hk, rfl⟩
    · exact .inl hmem
  · exact .inl (row?_eq_some_iff.1 hrow).1

theorem of_mem_settle (htaken : ∀ r k, Q r → Q k → Q (r.withPiecesOf k))
    (hall : ∀ r ∈ s.segments.rows, Q r) {gone : List (StreamId × List SegmentRow)}
    (hgone : ∀ b ∈ gone, ∀ r ∈ b.2, Q r) : ∀ r ∈ (s.settle gone).2.segments.rows, Q r := by
  induction gone generalizing s with
  | nil => exact hall
  | cons b rest ih =>
    have hrest : ∀ b' ∈ rest, ∀ r ∈ b'.2, Q r := fun b' hb' => hgone b' (List.mem_cons_of_mem _ hb')
    cases hcopies : s.copiesOf b.1 with
    | nil =>
      rw [settle_of_no_copies hcopies]
      exact ih hall hrest
    | cons heir others =>
      -- the first copy takes the pieces of the stream that is gone
      rw [settle_of_copies hcopies]
      refine ih (fun r hr => ?_) hrest
      rcases mem_promote hr with hold | ⟨r₀, hr₀, k, hk, rfl⟩
      · exact hall r hold
      · exact htaken r₀ k (hall r₀ hr₀) (hgone b List.mem_cons_self k hk)

/-- **What rows keep when they take the pieces of another, all rows keep when streams are removed.** -/
theorem of_mem_removeStreams (htaken : ∀ r k, Q r → Q k → Q (r.withPiecesOf k))
    (hall : ∀ r ∈ s.segments.rows, Q r) {gone : List StreamId} {orphaned : List SegmentRow}
    (hok : s.removeStreams gone = .ok (orphaned, s')) : ∀ r ∈ s'.segments.rows, Q r := by
  obtain ⟨hrows, hleft⟩ := of_mem_takeSegments hall gone
  unfold removeStreams at hok
  obtain ⟨-, -, hout⟩ := Except.bind_eq_ok.1 hok
  have hs' : ((s.takeSegments gone).2.dropRelations gone).settle (s.takeSegments gone).1 =
      (orphaned, s') := Except.ok.inj hout
  have hsettled := of_mem_settle (s := (s.takeSegments gone).2.dropRelations gone) htaken hleft hrows
  rw [hs'] at hsettled
  exact hsettled

end Removal

end Store

open Store

/-! ## Changes -/

theorem UploadStep.lasting (hq : SegmentRow.Lasting t quality) (h : UploadStep t s s')
    (hsound : s.nodes.Sound) (hall : s.AllRows quality) : s'.AllRows quality := by
  intro r hr
  cases h with
  | nodes hknown hadd =>
    obtain ⟨-, hext, -⟩ := hsound.addAll hknown hadd
    exact hq.mono hext (hall r hr)
  | start => exact hall r hr
  | metadata => exact hall r hr
  | segment _ _ _ hshaped _ hrow =>
    -- the new row takes the place of whatever stood there
    rcases Table.mem_insert.1 hr with rfl | ⟨hr, -⟩
    · exact hq.stored hshaped hrow
    · exact hall r hr
  | drop => exact hall r (List.mem_filter.1 hr).1
  | @complete o =>
    -- the rows of the stream are laid out anew, the others are as before
    have hids : ((withOffsets 0 (s.segmentsOf o.stream)).map (·.id)).Nodup := by
      rw [map_withOffsets fun _ _ => rfl]
      exact nodup_ids_segmentsOf s o.stream
    rcases mem_putSegments hids hr with hr | hr
    · obtain ⟨r₀, hr₀, k, rfl⟩ := mem_withOffsets hr
      exact hq.offset k (hall r₀ (mem_segmentsOf.1 hr₀).1)
    · exact hall r hr

/-- **Every change leaves rows with a lasting quality.** -/
theorem Change.lasting (hq : SegmentRow.Lasting t quality) (h : Change t s s')
    (hsound : s.nodes.Sound) (hall : s.AllRows quality) : s'.AllRows quality := by
  cases h with
  | upload h => exact h.lasting hq hsound hall
  | copy _ hcopy =>
    obtain ⟨_, _, _, _, hcopied⟩ := copied_of_ok hcopy
    intro r hr
    rw [hcopied.nodes]
    rcases hcopied.mem_rows hr with hr | ⟨q, -, hq', rfl⟩
    · exact hall r hr
    · exact hq.copied _ _ _ (hall q.1 (mem_segmentsOf.1 hq').1)
  | @delete rows _ hdelete =>
    have hnodes : s'.nodes = s.nodes := (keeps_of_removeStreams hdelete.removed).2
    intro r hr
    rw [hnodes]
    exact of_mem_removeStreams (s := s.dropObjects rows) (Q := quality s.nodes)
      (fun _ _ => hq.taken) hall hdelete.removed r hr

/-- Changes one after the other leave rows with a lasting quality. -/
theorem Changes.lasting (hq : SegmentRow.Lasting t quality) (h : Changes t s s')
    (hsound : s.nodes.Sound) (hall : s.AllRows quality) :
    s'.nodes.Sound ∧ s'.AllRows quality := by
  induction h with
  | refl => exact ⟨hsound, hall⟩
  | tail _ hc ih => exact ⟨(hc.nodes_extends ih.1).2, hc.lasting hq ih.1 ih.2⟩

/-- **The rows of any run have the qualities that last.** -/
theorem Site.Reachable.lasting {allow : Store → StreamId → Prop} {σ : Site}
    (hq : SegmentRow.Lasting allow quality) (hσ : σ.Reachable allow) (hs : σ.store = some s) :
    s.AllRows quality := by
  have hboth : s.nodes.Sound ∧ s.AllRows quality := by
    refine hσ.invariant (P := fun s => s.nodes.Sound ∧ s.AllRows quality)
      ⟨NodeTable.sound_empty, fun _ hr => absurd hr List.not_mem_nil⟩ ?_ hs
    rintro s₁ s₂ hchange ⟨hsound, hall⟩
    exact ⟨(hchange.nodes_extends hsound).2, hchange.lasting hq hsound hall⟩
  exact hboth.2

/-! ## Rows that can be read -/

/-- A row that can be read, at a position of a part that can be stored, with pieces on known nodes. -/
structure SegmentRow.Sane (n : NodeTable) (r : SegmentRow) : Prop where
  readable : r.isReadable = true
  position : ∃ p : Position, p.part ≤ Position.maxPart ∧ r.position = p.column
  stored : ∃ l, Blob.stored r.blob = .ok l ∧ n.Covers l

theorem SegmentRow.isReadable_iff {r : SegmentRow} :
    r.isReadable = true ↔ r.rootPiece?.isSome = true ∧ r.hasReadableSizes = true := by
  rw [isReadable, Bool.and_eq_true]

theorem SegmentRow.lasting_sane (t : Terms) : Lasting t Sane where
  mono hext hr := by
    obtain ⟨l, hl, hcovers⟩ := hr.stored
    exact ⟨hr.readable, hr.position, l, hl, hext.covers hcovers⟩
  stored hr _ := ⟨hr.isReadable, hr.position, hr.stored⟩
  offset _ hr := ⟨hr.readable, hr.position, hr.stored⟩
  taken hr hk := by
    have hroot := (isReadable_iff.1 hk.readable).1
    have hsizes := (isReadable_iff.1 hr.readable).2
    exact ⟨isReadable_iff.2 ⟨hroot, hsizes⟩, hr.position, hk.stored⟩
  copied now x key hr := by
    have hroot : (Id.ofBytes? (Id.zero : PieceId).bytes : Option PieceId).isSome = true := by
      rw [Id.ofBytes?_bytes]
      rfl
    have hsizes := (isReadable_iff.1 hr.readable).2
    exact ⟨isReadable_iff.2 ⟨hroot, hsizes⟩, hr.position, [], rfl,
      fun _ hp => absurd hp List.not_mem_nil⟩

/-- **The rows of any run can be read,** stand at a position, and have pieces on known nodes. -/
theorem Site.Reachable.sane {allow : Store → StreamId → Prop} {σ : Site} (hσ : σ.Reachable allow)
    (hs : σ.store = some s) : s.AllRows SegmentRow.Sane :=
  hσ.lasting (SegmentRow.lasting_sane allow) hs

/-! ## Rows with pieces -/

/-- A row without a blob, or with the blob of some pieces. -/
def SegmentRow.Packed (r : SegmentRow) : Prop :=
  r.blob = none ∨ ∃ l, l ≠ [] ∧ r.blob = some (Blob.encode l)

/-- Whoever looks at the length of such a blob sees whether there are pieces in it. -/
theorem SegmentRow.Packed.holdsPieces_eq_false_iff {r : SegmentRow} (h : r.Packed) :
    r.holdsPieces = false ↔ Blob.stored r.blob = .ok [] := by
  rcases h with hnone | ⟨l, hne, hblob⟩
  · rw [holdsPieces, hnone]
    exact iff_of_true rfl rfl
  · have hholds : Blob.holdsPieces (some (Blob.encode l)) = true := Blob.holdsPieces_encode.2 hne
    rw [holdsPieces, hblob, hholds, Blob.stored_encode, Except.ok.injEq]
    exact iff_of_false (by decide) hne

theorem SegmentRow.lasting_packed (t : Terms) : Lasting t fun _ r => r.Packed where
  mono _ hr := hr
  stored hr _ := by
    rcases hr.shape with hremote | hinline | href
    · obtain ⟨l, hl, hblob⟩ := hremote.pieces
      exact .inr ⟨l, hl.nonempty, hblob⟩
    · exact .inl hinline.no_blob
    · exact .inl href.no_blob
  offset _ hr := hr
  taken _ hk := hk
  copied _ _ _ _ := .inl rfl

/-- **The blobs of any run hold some pieces each.** -/
theorem Site.Reachable.packed {allow : Store → StreamId → Prop} {σ : Site} (hσ : σ.Reachable allow)
    (hs : σ.store = some s) : s.AllRows fun _ r => r.Packed :=
  hσ.lasting (SegmentRow.lasting_packed allow) hs

end ObjectCatalog
