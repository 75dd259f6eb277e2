import ObjectCatalog.Copy
import ObjectCatalog.Proofs.Aliases
import ObjectCatalog.Proofs.Blobs

/-!
# Shapes of segment rows

Uploads and copies store rows of three shapes: with pieces of their own, with data of their own, or
by reference, with neither. The shape of a row decides every question that readers and deletions ask
of it.

* `Position.ofColumn_column`: a stored position reads as the position it was stored for.
* `SegmentRow.IsRemote`, `SegmentRow.IsInline`, `SegmentRow.IsReference`: the shapes.
* `SegmentRow.Shaped`: a row of some shape, with values that can be read.
* `SegmentRow.Mirrors`: a copy's row beside the row its pieces are with.
-/

namespace ObjectCatalog

/-! ## Stored positions -/

namespace Position

theorem encode_lt (p : Position) : p.encode < 18446744073709551616 := by
  have := p.part.toNat_lt
  have := p.index.toNat_lt
  unfold encode
  omega

theorem decode_encode (p : Position) : decode p.encode = p := by
  have hpart := p.part.toNat_lt
  have hindex := p.index.toNat_lt
  have hdiv : p.encode / 4294967296 = p.part.toNat := by unfold encode; omega
  have hmod : UInt32.ofNat p.encode = p.index := by
    apply UInt32.toNat_inj.1
    rw [UInt32.toNat_ofNat', encode]
    omega
  rw [decode, hdiv, hmod, UInt32.ofNat_toNat]

/-- **A stored position reads as the position it was stored for.** -/
theorem ofColumn_column (p : Position) : ofColumn p.column = p := by
  have hlt := p.encode_lt
  have hmod : p.column % 18446744073709551616 = (p.encode : Int) := by
    unfold column
    rw [Int.bmod_def]
    omega
  rw [ofColumn, hmod, Int.toNat_natCast, decode_encode]

end Position

/-! ## The shapes -/

namespace SegmentRow

/-- A piece list that an upload stores: some pieces with ascending numbers, on known nodes. -/
structure IsPieceList (t : NodeTable) (pieces : List AliasPiece) : Prop where
  nonempty : pieces ≠ []
  ascending : pieces.Pairwise fun a b => a.number < b.number
  covered : t.Covers pieces

/-- A row with pieces of its own. -/
structure IsRemote (t : NodeTable) (r : SegmentRow) : Prop where
  pieces : ∃ l, IsPieceList t l ∧ r.blob = some (Blob.encode l)
  rootPiece : ∃ id : PieceId, id.isZero = false ∧ r.rootPiece = id.bytes
  no_data : r.inlineData = none
  encryptedSize : 0 < r.encryptedSize

/-- A row with data of its own. -/
structure IsInline (r : SegmentRow) : Prop where
  no_blob : r.blob = none
  rootPiece : r.rootPiece = (Id.zero : PieceId).bytes
  redundancy : r.redundancy = 0
  data : ∃ data, r.inlineData = some data ∧ r.encryptedSize = (data.length : Int).bmod 4294967296

/-- A row of a copy whose pieces are with the ancestor. -/
structure IsReference (r : SegmentRow) : Prop where
  no_blob : r.blob = none
  rootPiece : r.rootPiece = (Id.zero : PieceId).bytes
  no_data : r.inlineData = none
  encryptedSize : 0 < r.encryptedSize

/-- A row of one of the shapes, with sizes and a position that can be read. No upload or copy says
that a segment was repaired. -/
structure Shaped (t : NodeTable) (r : SegmentRow) : Prop where
  shape : r.IsRemote t ∨ r.IsInline ∨ r.IsReference
  encryptedSize : ∃ v : Int32, r.encryptedSize = v.toInt
  plainSize : ∃ v : Int32, r.plainSize = v.toInt
  position : ∃ p : Position, p.part ≤ Position.maxPart ∧ r.position = p.column
  not_repaired : r.repairedAt = none

variable {t t' : NodeTable} {r h c a : SegmentRow}

theorem IsPieceList.mono {l : List AliasPiece} (hl : IsPieceList t l) (hext : t.Extends t') :
    IsPieceList t' l :=
  ⟨hl.nonempty, hl.ascending, hext.covers hl.covered⟩

theorem IsRemote.mono (hr : r.IsRemote t) (hext : t.Extends t') : r.IsRemote t' := by
  obtain ⟨l, hl, hblob⟩ := hr.pieces
  exact ⟨⟨l, hl.mono hext, hblob⟩, hr.rootPiece, hr.no_data, hr.encryptedSize⟩

theorem Shaped.mono (hr : r.Shaped t) (hext : t.Extends t') : r.Shaped t' :=
  { hr with shape := hr.shape.imp_left (·.mono hext) }

/-! ### What a shape decides -/

theorem IsRemote.holdsPieces (hr : r.IsRemote t) : r.holdsPieces = true := by
  obtain ⟨l, hl, hblob⟩ := hr.pieces
  rw [SegmentRow.holdsPieces, hblob]
  exact Blob.holdsPieces_encode.2 hl.nonempty

theorem holdsPieces_of_no_blob (hr : r.blob = none) : r.holdsPieces = false := by
  rw [holdsPieces, hr]; rfl

theorem IsInline.not_holdsPieces (hr : r.IsInline) : r.holdsPieces = false :=
  holdsPieces_of_no_blob hr.no_blob

theorem IsReference.not_holdsPieces (hr : r.IsReference) : r.holdsPieces = false :=
  holdsPieces_of_no_blob hr.no_blob

theorem piecesInAncestor_of_holdsPieces (hr : r.holdsPieces = true) : r.piecesInAncestor = false := by
  rw [piecesInAncestor, hr]; simp

/-- Data of no bytes has the encrypted size zero, so a row with data is never in need. -/
theorem IsInline.not_needs (hr : r.IsInline) : r.piecesInAncestor = false := by
  obtain ⟨data, hdata, hsize⟩ := hr.data
  cases data with
  | nil =>
    have hzero : r.encryptedSize = 0 := hsize
    simp [piecesInAncestor, hzero]
  | cons b rest => simp [piecesInAncestor, hasInlineData, hdata]

theorem IsReference.needs (hr : r.IsReference) : r.piecesInAncestor = true := by
  have hsize : r.encryptedSize ≠ 0 := ne_of_gt hr.encryptedSize
  simp [piecesInAncestor, hasInlineData, hr.no_data, hr.not_holdsPieces, hsize]

/-- A row is in need of its ancestor just when it is a reference. -/
theorem Shaped.needs_iff (hr : r.Shaped t) : r.piecesInAncestor = true ↔ r.IsReference := by
  constructor
  · intro hneeds
    rcases hr.shape with hremote | hinline | href
    · rw [piecesInAncestor_of_holdsPieces hremote.holdsPieces] at hneeds
      exact absurd hneeds (by decide)
    · rw [hinline.not_needs] at hneeds
      exact absurd hneeds (by decide)
    · exact href
  · exact IsReference.needs

/-- A row holds pieces just when it is remote. -/
theorem Shaped.holdsPieces_iff (hr : r.Shaped t) : r.holdsPieces = true ↔ r.IsRemote t := by
  constructor
  · intro hholds
    rcases hr.shape with hremote | hinline | href
    · exact hremote
    · rw [hinline.not_holdsPieces] at hholds
      exact absurd hholds (by decide)
    · rw [href.not_holdsPieces] at hholds
      exact absurd hholds (by decide)
  · exact IsRemote.holdsPieces

theorem Shaped.rootPiece_isSome (hr : r.Shaped t) : r.rootPiece?.isSome = true := by
  have hid : ∃ id : PieceId, r.rootPiece = id.bytes := by
    rcases hr.shape with hremote | hinline | href
    · obtain ⟨id, -, hid⟩ := hremote.rootPiece
      exact ⟨id, hid⟩
    · exact ⟨_, hinline.rootPiece⟩
    · exact ⟨_, href.rootPiece⟩
  obtain ⟨id, hid⟩ := hid
  rw [rootPiece?, hid, Id.ofBytes?_bytes]
  rfl

theorem Shaped.hasReadableSizes (hr : r.Shaped t) : r.hasReadableSizes = true := by
  obtain ⟨e, he⟩ := hr.encryptedSize
  obtain ⟨p, hp⟩ := hr.plainSize
  rw [SegmentRow.hasReadableSizes, he, hp, int32?_toInt, int32?_toInt]
  rfl

/-- **Every shaped row can be read.** -/
theorem Shaped.isReadable (hr : r.Shaped t) : r.isReadable = true := by
  rw [SegmentRow.isReadable, hr.rootPiece_isSome, hr.hasReadableSizes]
  rfl

/-- A row stands at the position that it was stored for. -/
theorem place_eq {p : Position} (h : r.position = p.column) : r.place = p := by
  rw [place, h, Position.ofColumn_column]

theorem Shaped.position_eq (hr : r.Shaped t) : r.place.column = r.position := by
  obtain ⟨p, -, hp⟩ := hr.position
  rw [place_eq hp, hp]

/-- Nothing fails at rows that all have the quality. -/
theorem require_of_forall {quality : SegmentRow → Bool} {rows : List SegmentRow}
    (h : ∀ r ∈ rows, quality r = true) (statement : Statement) :
    require statement quality rows = .ok () := if_pos (List.all_eq_true.2 h)

/-- The pieces that a shaped row has of its own, in stored form. -/
theorem Shaped.stored (hr : r.Shaped t) : ∃ l, Blob.stored r.blob = .ok l ∧ t.Covers l := by
  rcases hr.shape with hremote | hinline | href
  · obtain ⟨l, hl, hblob⟩ := hremote.pieces
    exact ⟨l, by rw [hblob, Blob.stored_encode], hl.covered⟩
  · exact ⟨[], by rw [hinline.no_blob]; rfl, fun _ hp => absurd hp List.not_mem_nil⟩
  · exact ⟨[], by rw [href.no_blob]; rfl, fun _ hp => absurd hp List.not_mem_nil⟩

/-! ### Rows that change -/

/-- Laying segments out anew keeps their shapes. -/
theorem Shaped.withOffset (hr : r.Shaped t) (offset : Int) :
    Shaped t { r with plainOffset := offset } where
  shape := by
    rcases hr.shape with h | h | h
    · exact .inl ⟨h.pieces, h.rootPiece, h.no_data, h.encryptedSize⟩
    · exact .inr (.inl ⟨h.no_blob, h.rootPiece, h.redundancy, h.data⟩)
    · exact .inr (.inr ⟨h.no_blob, h.rootPiece, h.no_data, h.encryptedSize⟩)
  encryptedSize := hr.encryptedSize
  plainSize := hr.plainSize
  position := hr.position
  not_repaired := hr.not_repaired

/-- A reference that is handed pieces becomes remote. -/
theorem IsReference.withPiecesOf (hr : r.IsReference) (hh : h.IsRemote t) :
    (r.withPiecesOf h).IsRemote t :=
  ⟨hh.pieces, hh.rootPiece, hr.no_data, hr.encryptedSize⟩

theorem withPiecesOf_withPiecesOf {h' : SegmentRow} :
    r.withPiecesOf (h.withPiecesOf h') = r.withPiecesOf h' := rfl

theorem IsInline.isDuplicated (hr : r.IsInline) : r.isDuplicated = true := by
  rw [SegmentRow.isDuplicated, hr.redundancy, hr.not_holdsPieces]
  rfl

theorem IsRemote.not_isDuplicated (hr : r.IsRemote t) : r.isDuplicated = false := by
  rw [SegmentRow.isDuplicated, hr.holdsPieces, Bool.not_true, Bool.and_false]

section Copied

variable {now : Instant} {stream : StreamId} {key : SegmentKey}

theorem not_holdsPieces_copied : (r.copied now stream key).holdsPieces = false :=
  holdsPieces_of_no_blob rfl

/-- The copy of a row with data has the data. -/
theorem IsInline.copied (hr : r.IsInline) : (r.copied now stream key).IsInline where
  no_blob := rfl
  rootPiece := rfl
  redundancy := hr.redundancy
  data := by
    obtain ⟨data, hdata, hsize⟩ := hr.data
    exact ⟨data, by rw [SegmentRow.copied, hr.isDuplicated]; exact hdata, hsize⟩

/-- The copy of a row without data is a reference. -/
theorem isReference_copied (hdata : r.inlineData = none) (hsize : 0 < r.encryptedSize) :
    (r.copied now stream key).IsReference where
  no_blob := rfl
  rootPiece := rfl
  no_data := by
    rw [SegmentRow.copied]
    split
    · exact hdata
    · rfl
  encryptedSize := hsize

/-- A row and its copy are inline together, and otherwise the copy is a reference. -/
theorem Shaped.shape_copied (hr : r.Shaped t) (now : Instant) (stream : StreamId)
    (key : SegmentKey) :
    r.IsInline ∧ (r.copied now stream key).IsInline ∨
      ¬ r.IsInline ∧ (r.copied now stream key).IsReference := by
  rcases hr.shape with h | h | h
  · refine .inr ⟨fun hinline => ?_, isReference_copied h.no_data h.encryptedSize⟩
    exact absurd h.holdsPieces (by rw [hinline.not_holdsPieces]; decide)
  · exact .inl ⟨h, h.copied⟩
  · refine .inr ⟨fun hinline => ?_, isReference_copied h.no_data h.encryptedSize⟩
    exact absurd h.needs (by rw [hinline.not_needs]; decide)

/-- **The copy of a shaped row is shaped.** -/
theorem Shaped.copied (hr : r.Shaped t) : (r.copied now stream key).Shaped t where
  shape := by
    rcases hr.shape_copied now stream key with ⟨-, h⟩ | ⟨-, h⟩
    · exact .inr (.inl h)
    · exact .inr (.inr h)
  encryptedSize := hr.encryptedSize
  plainSize := hr.plainSize
  position := hr.position
  not_repaired := rfl

end Copied

/-! ## Copies and ancestors -/

/-- A copy's row beside the row its pieces are with: of the same sizes, without pieces, and in need
of its ancestor just when the ancestor has pieces. -/
structure Mirrors (c a : SegmentRow) : Prop where
  encryptedSize : c.encryptedSize = a.encryptedSize
  plainSize : c.plainSize = a.plainSize
  plainOffset : c.plainOffset = a.plainOffset
  redundancy : c.redundancy = a.redundancy
  no_pieces : c.holdsPieces = false
  needs_eq : c.piecesInAncestor = a.holdsPieces

section Copied

variable {now : Instant} {stream : StreamId} {key : SegmentKey}

/-- The copy of a row that is no reference mirrors the row. -/
theorem Shaped.copied_mirrors (hr : r.Shaped t) (hself : r.piecesInAncestor = false) :
    (r.copied now stream key).Mirrors r where
  encryptedSize := rfl
  plainSize := rfl
  plainOffset := rfl
  redundancy := rfl
  no_pieces := not_holdsPieces_copied
  needs_eq := by
    rcases hr.shape_copied now stream key with ⟨hr', hc⟩ | ⟨hr', hc⟩
    · rw [hc.not_needs, hr'.not_holdsPieces]
    · rw [hc.needs]
      rcases hr.shape with h | h | h
      · exact h.holdsPieces.symm
      · exact absurd h hr'
      · rw [h.needs] at hself
        exact absurd hself (by decide)

/-- The copy of a row mirrors the row that its source mirrors. -/
theorem Mirrors.copied (hm : r.Mirrors a) (hr : r.Shaped t) :
    (r.copied now stream key).Mirrors a where
  encryptedSize := hm.encryptedSize
  plainSize := hm.plainSize
  plainOffset := hm.plainOffset
  redundancy := hm.redundancy
  no_pieces := not_holdsPieces_copied
  needs_eq := by
    rw [← hm.needs_eq]
    rcases hr.shape_copied now stream key with ⟨hr', hc⟩ | ⟨hr', hc⟩
    · rw [hc.not_needs, hr'.not_needs]
    · rw [hc.needs]
      rcases hr.shape with h | h | h
      · exact absurd hm.no_pieces (by rw [h.holdsPieces]; decide)
      · exact absurd h hr'
      · exact h.needs.symm

end Copied

end SegmentRow

end ObjectCatalog
