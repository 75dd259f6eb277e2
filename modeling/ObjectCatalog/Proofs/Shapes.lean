import ObjectCatalog.Proofs.Marks
import ObjectCatalog.Proofs.Qualities

/-!
# Every row has one shape

Readers, deletions and copies each look at other columns of a row to tell where its content is. In
runs with fresh stream ids, whose inline segments are no longer than a 32-bit size can tell, they all
see the same: a row has pieces, or data, or refers to its ancestor.

* `Shape`, `SegmentRow.HasShape`: where the content of a row is, and what its columns say then.
* `Site.Brief`: the runs.
* `Site.Brief.sized`: the size of a row with data is the length of the data.
* `Site.Brief.one_shape`: **every row has exactly one shape, and every test of a row tells it.**
-/

namespace ObjectCatalog

/-- Where the content of a segment row is. -/
inductive Shape
  /-- On storage nodes. -/
  | remote
  /-- In the row. -/
  | inline
  /-- With the ancestor of the stream. -/
  | reference
  deriving DecidableEq

namespace SegmentRow

/-- A row whose content is on storage nodes. -/
structure OnNodes (s : Store) (r : SegmentRow) : Prop where
  pieces : ∃ l, Blob.stored r.blob = .ok l ∧ l ≠ [] ∧
    (l.Pairwise fun a b => a.number < b.number) ∧
    ∀ p ∈ l, ∃ node, s.nodes.node? p.short = some node ∧ node.isZero = false
  rootPiece : ∃ id, r.rootPiece? = some id ∧ id.isZero = false
  no_data : r.inlineData = none
  encryptedSize : 0 < r.encryptedSize

/-- A row that has its content. -/
structure InRow (r : SegmentRow) : Prop where
  no_blob : r.blob = none
  rootPiece : r.rootPiece? = some .zero
  redundancy : r.redundancy = 0
  data : ∃ data, r.inlineData = some data ∧ r.encryptedSize = data.length

/-- A row whose content is with the ancestor of its stream. The one object of the stream is
committed. -/
structure WithAncestor (s : Store) (r : SegmentRow) : Prop where
  no_blob : r.blob = none
  rootPiece : r.rootPiece? = some .zero
  no_data : r.inlineData = none
  encryptedSize : 0 < r.encryptedSize
  owner : ∃ o ∈ s.objects.rows, o.stream = r.stream ∧ o.hasStatus .committed = true ∧
    ∀ o' ∈ s.objects.rows, o'.stream = r.stream → o' = o

/-- What the columns of a row say when it has a shape. -/
def HasShape (s : Store) (r : SegmentRow) : Shape → Prop
  | .remote => r.OnNodes s
  | .inline => r.InRow
  | .reference => r.WithAncestor s

variable {s : Store} {r : SegmentRow}

/-! ## One shape at most -/

theorem stored_of_no_blob (h : r.blob = none) : Blob.stored r.blob = .ok [] := by
  rw [h]
  rfl

theorem OnNodes.blob_ne_none (h : r.OnNodes s) : r.blob ≠ none := by
  obtain ⟨l, hl, hne, -⟩ := h.pieces
  intro hnone
  rw [stored_of_no_blob hnone, Except.ok.injEq] at hl
  exact hne hl.symm

theorem InRow.data_ne_none (h : r.InRow) : r.inlineData ≠ none := by
  obtain ⟨data, hdata, -⟩ := h.data
  rw [hdata]
  exact Option.some_ne_none data

/-- **No row has two shapes.** -/
theorem HasShape.unique {shape shape' : Shape} (h : r.HasShape s shape) (h' : r.HasShape s shape') :
    shape = shape' := by
  cases shape <;> cases shape'
  case remote.remote => rfl
  case remote.inline => exact absurd (InRow.no_blob h') (OnNodes.blob_ne_none h)
  case remote.reference => exact absurd (WithAncestor.no_blob h') (OnNodes.blob_ne_none h)
  case inline.remote => exact absurd (InRow.no_blob h) (OnNodes.blob_ne_none h')
  case inline.inline => rfl
  case inline.reference => exact absurd (WithAncestor.no_data h') (InRow.data_ne_none h)
  case reference.remote => exact absurd (WithAncestor.no_blob h) (OnNodes.blob_ne_none h')
  case reference.inline => exact absurd (WithAncestor.no_data h) (InRow.data_ne_none h')
  case reference.reference => rfl

/-! ## One shape at least -/

theorem rootPiece?_of_eq {id : PieceId} (h : r.rootPiece = id.bytes) : r.rootPiece? = some id := by
  rw [rootPiece?, h, Id.ofBytes?_bytes]

theorem IsRemote.onNodes (h : r.IsRemote s.nodes) (hsound : s.nodes.Sound) : r.OnNodes s where
  pieces := by
    obtain ⟨l, hl, hblob⟩ := h.pieces
    refine ⟨l, by rw [hblob, Blob.stored_encode], hl.nonempty, hl.ascending, fun p hp => ?_⟩
    obtain ⟨node, hnode⟩ := Option.isSome_iff_exists.1 (hl.covered p hp)
    exact ⟨node, hnode, hsound.known _ (NodeTable.node?_eq_some_iff.1 hnode)⟩
  rootPiece := by
    obtain ⟨id, hid, hroot⟩ := h.rootPiece
    exact ⟨id, rootPiece?_of_eq hroot, hid⟩
  no_data := h.no_data
  encryptedSize := h.encryptedSize

/-- Data whose length a signed 32-bit number can tell. -/
def Sized (r : SegmentRow) : Prop := ∀ data ∈ r.inlineData, data.length < 2147483648

theorem IsInline.inRow (h : r.IsInline) (hsized : r.Sized) : r.InRow where
  no_blob := h.no_blob
  rootPiece := rootPiece?_of_eq h.rootPiece
  redundancy := h.redundancy
  data := by
    obtain ⟨data, hdata, hsize⟩ := h.data
    have hlength : data.length < 2147483648 := hsized data hdata
    refine ⟨data, hdata, ?_⟩
    rw [hsize, Int.bmod_def]
    omega

theorem IsReference.withAncestor (h : r.IsReference) (hs : s.Coherent) (hr : r ∈ s.segments.rows) :
    r.WithAncestor s where
  no_blob := h.no_blob
  rootPiece := rootPiece?_of_eq h.rootPiece
  no_data := h.no_data
  encryptedSize := h.encryptedSize
  owner := by
    obtain ⟨o, ho, hstream, hcommitted⟩ := hs.references r hr h.needs
    exact ⟨o, ho, hstream, hcommitted, fun o' ho' hstream' =>
      hs.distinct o' ho' o ho (hstream'.trans hstream.symm)⟩

/-- **Every row of coherent tables has a shape,** if its data is not too long. -/
theorem exists_hasShape (hs : s.Coherent) (hr : r ∈ s.segments.rows) (hsized : r.Sized) :
    ∃ shape, r.HasShape s shape := by
  rcases (hs.shaped r hr).shape with hremote | hinline | href
  · exact ⟨.remote, hremote.onNodes hs.nodes⟩
  · exact ⟨.inline, hinline.inRow hsized⟩
  · exact ⟨.reference, href.withAncestor hs hr⟩

/-! ## What tells the shape -/

theorem OnNodes.isRemote (h : r.OnNodes s) (hr : r.Shaped s.nodes) : r.IsRemote s.nodes := by
  rcases hr.shape with hremote | hinline | href
  · exact hremote
  · exact absurd hinline.no_blob h.blob_ne_none
  · exact absurd href.no_blob h.blob_ne_none

theorem WithAncestor.isReference (h : r.WithAncestor s) : r.IsReference where
  no_blob := h.no_blob
  rootPiece := by
    have hroot := h.rootPiece
    unfold rootPiece? Id.ofBytes? at hroot
    split at hroot
    · exact congrArg Id.bytes (Option.some.inj hroot)
    · cases hroot
  no_data := h.no_data
  encryptedSize := h.encryptedSize

/-! ## Data of moderate length -/

/-- The terms of runs with fresh stream ids and inline segments whose length can be told. -/
def briefTerms : Terms := ⟨Store.Lacks, Sized⟩

/-- The length of the data is told by every row whose data is its own upload's. -/
theorem lasting_sized : Lasting briefTerms fun _ r => r.Sized where
  mono _ hr := hr
  stored _ hr := hr
  offset _ hr := hr
  taken hr _ := hr
  copied now x key hr := by
    intro data hdata
    -- a copy has the data of the row that it copies, or none
    have hcopy : data ∈ if SegmentRow.isDuplicated _ then SegmentRow.inlineData _ else none := hdata
    split at hcopy
    · exact hr data hcopy
    · exact absurd hcopy (Option.not_mem_none data)

end SegmentRow

/-- The data of the inline segment that an event is to store. -/
def Event.inlineData? : Event → Option Bytes
  | call _ _ (.commitInlineSegment r) => some r.inlineData
  | _ => none

/-- The data of a row that an event stores is the data that the event gives. -/
theorem Event.MayStore.inlineData {e : Event} {r : SegmentRow} (h : e.MayStore r) :
    ∀ data ∈ r.inlineData, data ∈ e.inlineData? := by
  intro data hdata
  cases e with
  | call i now call =>
    cases call with
    | commitSegment q =>
      obtain ⟨-, o, aliases, rfl⟩ := h
      exact absurd hdata (Option.not_mem_none data)
    | commitInlineSegment q =>
      obtain ⟨o, rfl⟩ := h
      exact hdata
    | _ => exact absurd h id
  | opening | startScan | nextBatch => exact absurd h id

namespace Site

/-- The sites of runs with fresh stream ids in which the length of inline segments can be told in a
signed 32-bit number. -/
inductive Brief : Site → Prop
  | fresh : Brief fresh
  | step {σ : Site} {e : Event} (hσ : Brief σ) (he : σ.Admits Store.Lacks e)
      (hdata : ∀ data ∈ e.inlineData?, data.length < 2147483648) : Brief (σ.step e)

variable {σ : Site} {s : Store}

theorem Brief.reachable (hσ : σ.Brief) : σ.Reachable Store.Lacks := by
  induction hσ with
  | fresh => exact .fresh
  | step _ he _ ih => exact ih.step he

/-- Admitted events with data that is not too long lead from a brief site to a brief one. -/
theorem Brief.run (hσ : σ.Brief) {events : List Event} (hadmits : AdmitsAll Store.Lacks σ events)
    (hdata : ∀ e ∈ events, ∀ data ∈ e.inlineData?, data.length < 2147483648) :
    (σ.run events).Brief := by
  induction events generalizing σ with
  | nil => exact hσ
  | cons e events ih =>
    exact ih (hσ.step hadmits.1 (hdata e List.mem_cons_self)) hadmits.2
      fun e' he' => hdata e' (List.mem_cons_of_mem _ he')

/-- **The rows of runs with data that is not too long have no longer data.** -/
theorem Brief.sized (hσ : σ.Brief) (hs : σ.store = some s) : s.AllRows fun _ r => r.Sized := by
  induction hσ generalizing s with
  | fresh =>
    cases hs
    exact fun r hr => absurd hr List.not_mem_nil
  | @step σ e hσ he hdata ih =>
    obtain ⟨s₀, hstands⟩ := hσ.reachable.stands
    have hrow : ∀ r, e.MayStore r → r.Sized := fun r hstore data hd =>
      hdata data (hstore.inlineData data hd)
    obtain ⟨s₁, hstands₁, hmove⟩ := hstands.step_under (t := SegmentRow.briefTerms) he hrow
    rw [hstands₁.store, Option.some.injEq] at hs
    subst hs
    exact (hmove.toChanges.lasting SegmentRow.lasting_sized hstands.aliases (ih hstands.store)).2

/-- **Every row has exactly one shape, and every test of a row tells it.** Whoever looks at the length
of the blob and whoever decodes it find pieces in the same rows, and those whose pieces are looked for
at the ancestor are the ones whose content is there. -/
theorem Brief.one_shape (hσ : σ.Brief) (hs : σ.store = some s) {r : SegmentRow}
    (hr : r ∈ s.segments.rows) :
    (∃! shape, r.HasShape s shape) ∧
      ∃ l, Blob.stored r.blob = .ok l ∧
        (r.holdsPieces = true ↔ l ≠ []) ∧
        (r.holdsPieces = true ↔ r.HasShape s .remote) ∧
        (r.piecesInAncestor = true ↔ r.HasShape s .reference) := by
  have hcoherent : s.Coherent := hσ.reachable.coherent hs
  have hshaped : r.Shaped s.nodes := hcoherent.shaped r hr
  have hholds : r.holdsPieces = true ↔ r.OnNodes s :=
    hshaped.holdsPieces_iff.trans
      ⟨fun hremote => hremote.onNodes hcoherent.nodes, fun hnodes => hnodes.isRemote hshaped⟩
  have hneeds : r.piecesInAncestor = true ↔ r.WithAncestor s :=
    hshaped.needs_iff.trans
      ⟨fun href => href.withAncestor hcoherent hr, fun hancestor => hancestor.isReference⟩
  obtain ⟨shape, hshape⟩ := SegmentRow.exists_hasShape hcoherent hr (hσ.sized hs r hr)
  refine ⟨⟨shape, hshape, fun shape' hshape' => hshape'.unique hshape⟩, ?_⟩
  obtain ⟨l, hl, -⟩ := hshaped.stored
  refine ⟨l, hl, ?_, hholds, hneeds⟩
  constructor
  · intro hpieces
    obtain ⟨l', hl', hne, -⟩ := (hholds.1 hpieces).pieces
    cases hl.symm.trans hl'
    exact hne
  · intro hne
    rcases hshaped.shape with hremote | hinline | href
    · exact hremote.holdsPieces
    · cases hl.symm.trans (SegmentRow.stored_of_no_blob hinline.no_blob)
      exact absurd rfl hne
    · cases hl.symm.trans (SegmentRow.stored_of_no_blob href.no_blob)
      exact absurd rfl hne

end Site

/-! ### A site with every shape -/

namespace Sample

/-- An inline segment with three bytes. -/
def inlined (o : ObjectStream) : Call :=
  .commitInlineSegment {
    stream := o, position := ⟨0, 0⟩, keyNonce := [1], key := [2], plainOffset := 0, plainSize := 5
    inlineData := [6, 7, 8] }

/-- An upload, its copy, and an object with an inline segment. -/
def mixed : Site :=
  Site.fresh.run (upload { algorithm := 1 } ++
    [begin (identity 4 4), inlined (identity 4 4)].map (.call 0 moment))

theorem brief_mixed : mixed.Brief :=
  Site.Brief.fresh.run (by decide +kernel) (by decide +kernel)

end Sample

theorem Sample.one_shape_mixed :
    Sample.mixed.Brief ∧ ∃ s, Sample.mixed.store = some s ∧
      ∀ shape, ∃ r ∈ s.segments.rows, r.HasShape s shape := by
  obtain ⟨s, hstands⟩ := Sample.brief_mixed.reachable.stands
  have htell := fun r (hr : r ∈ s.segments.rows) =>
    Site.Brief.one_shape Sample.brief_mixed hstands.store hr
  have hrows : (Sample.mixed.store.any fun s => s.segments.rows.any (·.holdsPieces) &&
      s.segments.rows.any (fun r => !r.holdsPieces && !r.piecesInAncestor) &&
      s.segments.rows.any (·.piecesInAncestor)) = true := by decide +kernel
  simp only [hstands.store, Option.any_some, Bool.and_eq_true, Bool.not_eq_true',
    List.any_eq_true] at hrows
  obtain ⟨⟨⟨r₁, hr₁, hholds⟩, r₂, hr₂, hlacks, hhere⟩, r₃, hr₃, hneeds⟩ := hrows
  refine ⟨Sample.brief_mixed, s, hstands.store, fun shape => ?_⟩
  cases shape with
  | remote =>
    obtain ⟨-, _, -, -, hremote, -⟩ := htell r₁ hr₁
    exact ⟨r₁, hr₁, hremote.1 hholds⟩
  | inline =>
    -- the row has a shape, which is none of the others
    obtain ⟨⟨shape, hshape, -⟩, _, -, -, hremote, href⟩ := htell r₂ hr₂
    refine ⟨r₂, hr₂, ?_⟩
    cases shape with
    | remote => exact absurd (hremote.2 hshape) (by rw [hlacks]; decide)
    | inline => exact hshape
    | reference => exact absurd (href.2 hshape) (by rw [hhere]; decide)
  | reference =>
    obtain ⟨-, _, -, -, -, href⟩ := htell r₃ hr₃
    exact ⟨r₃, hr₃, href.1 hneeds⟩

end ObjectCatalog
