import ObjectCatalog.Proofs.Stability

/-!
# What is read of a copy

A copy is read as its source is, under keys of its own, with one exception. A row without pieces and
with a redundancy that packs to zero is taken for a row with data. If every row of the source is such
a row the copy gets no ancestor. Rows with data lose nothing by that. But a source that is a copy
itself may have rows in need of an ancestor, and the copies of these cannot be read.

* `Segment.underKey`, `SegmentRow.underKey`: a segment as a copy has it.
* `Store.losesPieces`: the exception.
* `Store.Copied.read_new`: **what is read of a copy.**
* `Site.Reachable.copy_read`: the same for a call of a handle, with what the object says of itself.
-/

namespace ObjectCatalog

/-! ## Segments under new keys -/

/-- A segment as a copy of it is read. -/
def Segment.underKey (v : Segment) (now : Instant) (stream : StreamId) (key : SegmentKey) : Segment :=
  { v with stream, createdAt := now, keyNonce := key.nonce, key := key.key }

namespace SegmentRow

/-- A row as its copy has it, but with the pieces. -/
def underKey (r : SegmentRow) (now : Instant) (stream : StreamId) (key : SegmentKey) : SegmentRow :=
  { r with stream, createdAt := now, keyNonce := key.nonce, key := key.key }

variable {t : NodeTable} {r k : SegmentRow} {now : Instant} {stream : StreamId} {key : SegmentKey}

/-- The copy of a row with data is the row under a new key. -/
theorem IsInline.copied_eq (hr : r.IsInline) (hrepaired : r.repairedAt = none) :
    r.copied now stream key = r.underKey now stream key := by
  unfold SegmentRow.copied underKey
  rw [hr.isDuplicated, if_pos rfl, ← hr.rootPiece, ← hrepaired, ← hr.no_blob]

/-- The copy of a row without data has what the row has once both have the same pieces. -/
theorem withPiecesOf_copied (hdata : r.inlineData = none) :
    (r.copied now stream key).withPiecesOf k = (r.withPiecesOf k).underKey now stream key := by
  have hnone : (if r.isDuplicated then r.inlineData else none) = r.inlineData := by
    rw [hdata]
    exact ite_self none
  unfold copied underKey withPiecesOf
  rw [hnone]

end SegmentRow

theorem Encryption.unpack_pack (e : Encryption) : unpack e.pack = e := by
  have hsuite := e.cipherSuite.toNat_lt
  have hdiv : e.pack / 4294967296 % 256 = e.cipherSuite.toNat := by unfold pack; omega
  have hblock : Int32.ofInt e.pack = e.blockSize := by
    rw [← Int32.toInt_inj, Int32.toInt_ofInt]
    have := e.blockSize.toInt_lt
    have := e.blockSize.le_toInt
    unfold pack
    rw [show Int32.size = 4294967296 from rfl, Int.bmod_def]
    omega
  unfold unpack
  rw [hdiv, hblock, Int.toNat_natCast, UInt8.ofNat_toNat]

/-- An object that says of its content what another says. -/
structure Object.SameContent (o source : Object) : Prop where
  segmentCount : o.segmentCount = source.segmentCount
  totalPlainSize : o.totalPlainSize = source.totalPlainSize
  totalEncryptedSize : o.totalEncryptedSize = source.totalEncryptedSize
  fixedSegmentSize : o.fixedSegmentSize = source.fixedSegmentSize
  encryption : o.encryption = source.encryption

namespace Store

/-- Whether a copy of a stream is without the pieces of the segment at a position: the stream needs
its ancestor there, but none of its rows shows it to a copy. -/
def losesPieces (s : Store) (x : StreamId) (p : Position) : Bool :=
  (s.segmentsOf x).all (·.isDuplicated) && (s.segment? x p).any (·.piecesInAncestor)

variable {s s' : Store} {x : StreamId} {p : Position} {v : Segment} {serverSideCopy : Bool}

/-- What it takes to read a segment. -/
theorem read_eq_ok (h : s.read serverSideCopy x p = .ok v) :
    x.isZero = false ∧ ∃ r, s.row? x p.column = some r ∧ r.isReadable = true ∧
      s.resolved serverSideCopy r = .ok v := by
  unfold read at h
  obtain ⟨_, hzero, h⟩ := Except.bind_eq_ok.1 h
  rw [segment?_eq] at h
  cases hr : s.row? x p.column with
  | none => rw [hr] at h; cases h
  | some r =>
    rw [hr] at h
    obtain ⟨_, hreadable, h⟩ := Except.bind_eq_ok.1 h
    refine ⟨reject_eq_ok.1 hzero, r, rfl, ?_, h⟩
    by_contra hnot
    simp [SegmentRow.require, hnot] at hreadable

theorem read_of_row? {r : SegmentRow} (hzero : x.isZero = false) (hr : s.row? x p.column = some r)
    (hreadable : r.isReadable = true) :
    s.read serverSideCopy x p = s.resolved serverSideCopy r := by
  unfold read
  rw [hzero, segment?_eq, hr]
  simp only [SegmentRow.require, List.all_cons, List.all_nil, hreadable, Bool.and_true, if_true]
  rfl

namespace Copied

variable {now : Instant} {f : FinishCopy} {o : ObjectRow} {source : Object}
  {metadata : Option Metadata} {pairs : List (SegmentRow × SegmentKey)} {object : Object}
  (h : s.Copied now f o source metadata pairs object s')

include h

/-- The object says of its content what the source says. -/
theorem sameContent : object.SameContent source ∧ object.stream.stream = f.newStream := by
  obtain ⟨_, _, count, fixed, -, -, hcount, hfixed, rfl⟩ := ObjectRow.view_eq_ok.1 h.object_view
  dsimp only [FinishCopy.objectRow] at hcount hfixed ⊢
  rw [int32?_toInt] at hcount hfixed
  cases hcount
  cases hfixed
  exact ⟨⟨rfl, rfl, rfl, rfl, Encryption.unpack_pack _⟩, rfl⟩

variable (hs : s.Coherent)

include hs

/-- There is one key for each position of the source. -/
theorem key_unique {q : SegmentRow × SegmentKey} (hq : q ∈ pairs) :
    q.2 ∈ f.newKeys ∧ ∀ key ∈ f.newKeys, key.position = q.2.position → key = q.2 := by
  have hmem : ∀ key, key ∈ f.newKeys ↔ ∃ q ∈ pairs, q.2 = key := by
    intro key
    rw [← List.mem_map, h.keys, FinishCopy.sortedKeys, List.mem_mergeSort]
  have hshaped : ∀ q ∈ pairs, q.1.Shaped s.nodes := fun q hq =>
    hs.shaped _ (mem_segmentsOf.1 (h.mem_source hq)).1
  refine ⟨(hmem _).2 ⟨q, hq, rfl⟩, fun key hkey hpos => ?_⟩
  obtain ⟨q', hq', rfl⟩ := (hmem key).1 hkey
  have hplace : q'.1.position = q.1.position := by
    rw [← (hshaped q' hq').position_eq, ← (hshaped q hq).position_eq, h.places q' hq',
      h.places q hq, hpos]
  have hnodup : (pairs.map fun q => q.1.position).Nodup := by
    have hpositions := nodup_positions s f.source.stream
    rw [← h.rows, List.map_map] at hpositions
    exact hpositions
  rw [List.inj_on_of_nodup_map hnodup hq' hq hplace]

variable (hfresh : s.Lacks f.newStream)

include hfresh

/-- The copy of a row without data takes the pieces of the row that the pieces are with. -/
theorem withAncestor_reference {r k : SegmentRow} {key : SegmentKey} (hr : r ∈ s.segments.rows)
    (hdata : r.inlineData = none) (hsize : 0 < r.encryptedSize)
    (hall : (s.segmentsOf f.source.stream).all (·.isDuplicated) = false)
    (hk : s.row? ((s.ancestorOf? f.source.stream).getD f.source.stream) r.position = some k) :
    s'.withAncestor true (r.copied now f.newStream key) =
      .ok ((r.withPiecesOf k).underKey now f.newStream key) := by
  have hanc := h.ancestorOf?_new hfresh
  rw [if_neg (by rw [hall]; decide)] at hanc
  have hne : (s.ancestorOf? f.source.stream).getD f.source.stream ≠ f.newStream := by
    cases hsource : s.ancestorOf? f.source.stream with
    | none => exact h.source_ne_new hfresh
    | some b => exact hfresh.ne_of_committed (hs.families _ _ hsource).ancestor_committed
  have hcShaped : (r.copied now f.newStream key).Shaped s.nodes := (hs.shaped r hr).copied
  have hneeds : (r.copied now f.newStream key).piecesInAncestor = true :=
    (SegmentRow.isReference_copied hdata hsize).needs
  have hkept : s'.row? ((s.ancestorOf? f.source.stream).getD f.source.stream) r.position = some k := by
    rw [h.row?_of_ne hne]
    exact hk
  rw [← SegmentRow.withPiecesOf_copied hdata]
  exact withAncestor_some hcShaped (hs.shaped k (row?_eq_some_iff.1 hk).1) hneeds hanc hkept

/-- **What the copy of a row takes from the ancestor.** -/
theorem withAncestor_new {r r₁ : SegmentRow} {key : SegmentKey}
    (hr : r ∈ s.segmentsOf f.source.stream) (hw : s.withAncestor true r = .ok r₁) :
    s'.withAncestor true (r.copied now f.newStream key) =
      if (s.segmentsOf f.source.stream).all (·.isDuplicated) && r.piecesInAncestor then
        .error (.corrupted (.noAncestor r.place f.newStream))
      else .ok (r₁.underKey now f.newStream key) := by
  obtain ⟨hmem, hstream⟩ := mem_segmentsOf.1 hr
  have hshaped := hs.shaped r hmem
  rcases hshaped.shape with hremote | hinline | href
  · have hself := SegmentRow.piecesInAncestor_of_holdsPieces hremote.holdsPieces
    have hall : (s.segmentsOf f.source.stream).all (·.isDuplicated) = false := by
      rw [List.all_eq_false]
      exact ⟨r, hr, by rw [hremote.not_isDuplicated]; decide⟩
    have hnone := hs.ancestorOf?_of_holdsPieces hmem hremote.holdsPieces
    rw [withAncestor_self hself] at hw
    cases hw
    rw [hself, Bool.and_false, if_neg Bool.false_ne_true]
    have hk : s.row? ((s.ancestorOf? f.source.stream).getD f.source.stream) r.position = some r := by
      rw [← hstream, hnone, Option.getD_none]
      exact row?_self hmem
    exact h.withAncestor_reference hs hfresh hmem hremote.no_data hremote.encryptedSize hall hk
  · rw [withAncestor_self hinline.not_needs] at hw
    cases hw
    rw [hinline.not_needs, Bool.and_false, if_neg Bool.false_ne_true,
      withAncestor_self hinline.copied.not_needs, hinline.copied_eq hshaped.not_repaired]
  · rw [href.needs, Bool.and_true]
    cases hall : (s.segmentsOf f.source.stream).all (·.isDuplicated) with
    | true =>
      -- the copy has no ancestor
      have hanc := h.ancestorOf?_new hfresh
      rw [hall, if_pos rfl] at hanc
      rw [if_pos rfl]
      exact withAncestor_none (SegmentRow.isReference_copied href.no_data href.encryptedSize).needs hanc
    | false =>
      rw [if_neg Bool.false_ne_true]
      cases hsource : s.ancestorOf? f.source.stream with
      | none =>
        rw [withAncestor_none href.needs (hstream ▸ hsource)] at hw
        cases hw
      | some a =>
        obtain ⟨k, hk, -⟩ :=
          ((hs.families _ _ hsource).rows r.position).exists_right (hstream ▸ row?_self hmem)
        rw [withAncestor_some hshaped (hs.shaped k (row?_eq_some_iff.1 hk).1) href.needs
          (hstream ▸ hsource) hk] at hw
        cases hw
        have hk' : s.row? ((s.ancestorOf? f.source.stream).getD f.source.stream) r.position = some k := by
          rw [hsource, Option.getD_some]
          exact hk
        exact h.withAncestor_reference hs hfresh hmem href.no_data href.encryptedSize hall hk'

/-- **What is read of a copy** is what is read of the source, under the key for the position. -/
theorem read_new (hzero : f.newStream.isZero = false)
    (hread : s.read true f.source.stream p = .ok v) :
    ∃ key ∈ f.newKeys, key.position = p ∧ (∀ key' ∈ f.newKeys, key'.position = p → key' = key) ∧
      s'.read true f.newStream p =
        if s.losesPieces f.source.stream p then .error (.corrupted (.noAncestor p f.newStream))
        else .ok (v.underKey now f.newStream key) := by
  obtain ⟨-, r, hr, -, hresolved⟩ := read_eq_ok hread
  obtain ⟨c, hc, q, hq, rfl, rfl⟩ := (h.row?_new hfresh p.column).exists_left hr
  have hplace : q.1.place = p := SegmentRow.place_eq (row?_eq_some_iff.1 hr).2.2
  obtain ⟨hkey, hunique⟩ := h.key_unique hs hq
  have hposition : q.2.position = p := (h.places q hq).symm.trans hplace
  rw [hposition] at hunique
  refine ⟨q.2, hkey, hposition, hunique, ?_⟩
  have hcShaped := (h.coherent hs hfresh).shaped _ (row?_eq_some_iff.1 hc).1
  rw [read_of_row? hzero hc hcShaped.isReadable]
  unfold resolved at hresolved
  obtain ⟨r₁, hw, hresolved⟩ := Except.bind_eq_ok.1 hresolved
  obtain ⟨aliases, haliases, hresolved⟩ := Except.bind_eq_ok.1 hresolved
  obtain ⟨pieces, hpieces, hresolved⟩ := Except.bind_eq_ok.1 hresolved
  cases hresolved
  unfold resolved losesPieces
  rw [h.withAncestor_new hs hfresh (h.mem_source hq) hw, segment?_eq, hr, hplace]
  dsimp only [Option.any_some]
  split
  · rfl
  · show (Blob.stored r₁.blob >>= _) = _
    rw [haliases, h.nodes]
    show (s.nodes.piecesOf aliases >>= _) = _
    rw [hpieces]
    rfl

end Copied

end Store

/-! ## Calls -/

open Store

/-- A call that copies, once its request is checked. -/
theorem Catalog.run_finishCopy {c : Catalog} {s : Store} (hstore : c.store = some s) {now : Instant}
    {f : FinishCopy} (hcheck : f.check = .ok ()) :
    c.run (finishCopy now f) =
      match s.finishCopy now f with
      | .error e => (.error e, c)
      | .ok (object, s') => (.ok object, { c with store := some s' }) := by
  unfold finishCopy
  rw [run_lift_bind, hcheck]
  dsimp only
  rw [run_tables_bind hstore, run_lift_bind]
  cases s.finishCopy now f with
  | error e => rfl
  | ok out => rfl

/-- What it has done if it succeeds. -/
theorem Catalog.finishCopy_of_ok {c : Catalog} {s : Store} (hstore : c.store = some s) {now : Instant}
    {f : FinishCopy} {object : Object} (hok : (c.run (finishCopy now f)).1 = .ok object) :
    f.newStream.isZero = false ∧ ∃ s', s.finishCopy now f = .ok (object, s') ∧
      (c.run (finishCopy now f)).2.store = some s' := by
  have hcheck : f.check = .ok () := by
    unfold finishCopy at hok
    obtain ⟨_, hcheck, -⟩ := run_lift_bind_eq_ok.1 hok
    exact hcheck
  have hzero : f.newStream.isZero = false := by
    unfold FinishCopy.check at hcheck
    obtain ⟨_, -, hcheck⟩ := Except.bind_eq_ok.1 hcheck
    obtain ⟨_, -, hcheck⟩ := Except.bind_eq_ok.1 hcheck
    obtain ⟨_, -, hcheck⟩ := Except.bind_eq_ok.1 hcheck
    obtain ⟨_, hstream, -⟩ := Except.bind_eq_ok.1 hcheck
    exact reject_eq_ok.1 hstream
  rw [run_finishCopy hstore hcheck] at hok ⊢
  cases hcopy : s.finishCopy now f with
  | error e => rw [hcopy] at hok; cases hok
  | ok out =>
    rw [hcopy] at hok
    cases hok
    exact ⟨hzero, out.2, rfl, rfl⟩

/-- **In runs with fresh stream ids a copy made on a handle with server-side copies is read as its
source is,** under the key that was given for the position, unless it loses the pieces there. What is
read of the source stays the same, and the object says of its content what the source says. -/
theorem Site.Reachable.copy_read {σ : Site} (hσ : σ.Reachable Lacks) {i : Nat} {h : Handle}
    (hget : σ.handles[i]? = some h) (hcopies : h.settings.serverSideCopy = true) {now : Instant}
    {f : FinishCopy} (hadmits : σ.Admits Lacks (.call i now (.finishCopy f))) {object : Object}
    (hok : ((σ.catalog h).run (Catalog.finishCopy now f)).1 = .ok object) {h' : Handle}
    (hh' : h' ∈ (σ.step (.call i now (.finishCopy f))).handles)
    (hcopies' : h'.settings.serverSideCopy = true) :
    (∃ o ∈ σ.objects, o.stream = f.source.stream ∧ o.hasStatus .committed = true ∧
      ∃ source, o.view .fetchObject = .ok source ∧ object.SameContent source) ∧
    object.stream.stream = f.newStream ∧
    ∀ p, (σ.step (.call i now (.finishCopy f))).read h' f.source.stream p =
        σ.read h f.source.stream p ∧
      ∀ v, σ.read h f.source.stream p = .ok v →
        ∃ key ∈ f.newKeys, key.position = p ∧
          (∀ key' ∈ f.newKeys, key'.position = p → key' = key) ∧
          (σ.step (.call i now (.finishCopy f))).read h' f.newStream p =
            if σ.store.any (·.losesPieces f.source.stream p) then
              .error (.corrupted (.noAncestor p f.newStream))
            else .ok (v.underKey now f.newStream key) := by
  obtain ⟨s, hstands⟩ := hσ.stands
  obtain ⟨s', hstands', -⟩ := hstands.step hadmits
  have hs := hσ.coherent hstands.store
  have hh := List.mem_of_getElem? hget
  have hfresh : s.Lacks f.newStream := hadmits f.newStream rfl s hstands.store
  obtain ⟨hzero, s₁, hcopy, hstore⟩ := Catalog.finishCopy_of_ok hstands.store hok
  obtain ⟨o, source, metadata, pairs, hcopied⟩ := copied_of_ok hcopy
  -- the tables that the call left are those of the site afterwards
  have hsame : s₁ = s' := by
    rw [← Option.some.injEq, ← hstands'.store, Site.step_call hget]
    exact hstore.symm
  subst hsame
  obtain ⟨ho, -, hstream, hstatus⟩ := objectOf?_eq_some hcopied.found
  obtain ⟨hcontent, hnew⟩ := hcopied.sameContent
  refine ⟨⟨o, hstands.mem_objects.2 ho, hstream, hstatus, source, hcopied.source_view, hcontent⟩,
    hnew, fun p => ?_⟩
  rw [hstands.read_eq hh, hstands'.read_eq hh', hstands'.read_eq hh', hcopies, hcopies',
    hstands.store]
  exact ⟨hcopied.read_eq hs hfresh hcopied.source_committed,
    fun v hv => hcopied.read_new hs hfresh hzero hv⟩

namespace Sample

/-- The site with an upload and a copy of it. -/
def source : Site := Site.fresh.run (upload { algorithm := 1 })

/-- The same with a redundancy that is not zero but packs to zero: the low three bytes of its share
size are zero. -/
def lossy : Site := Site.fresh.run (upload { shareSize := 16777216 })

/-- A copy of the copy is made. -/
def copying : Event := .call 0 moment (.finishCopy second)

end Sample

theorem Sample.copy_read_site : ∃ h ∈ source.handles, ∃ h' ∈ (source.step copying).handles,
    ∃ v, ∃ key ∈ second.newKeys, source.read h (.ofNat 2) ⟨0, 0⟩ = .ok v ∧
      (source.step copying).read h' (.ofNat 3) ⟨0, 0⟩ =
        .ok (v.underKey moment (.ofNat 3) key) := by
  have hreachable : source.Reachable Lacks := Site.Reachable.fresh.run (by decide +kernel)
  have hadmits : source.Admits Lacks copying := by decide +kernel
  have hget : source.handles[0]? = some (handleOf source) := getElem?_handles (by decide +kernel)
  have hcopies : (handleOf source).settings.serverSideCopy = true := by decide +kernel
  have hkeeps : (source.store.any (·.losesPieces second.source.stream ⟨0, 0⟩)) = false := by
    decide +kernel
  obtain ⟨object, hok⟩ : ∃ object, ((source.catalog (handleOf source)).run
      (Catalog.finishCopy moment second)).1 = .ok object := Except.exists_eq_ok (by decide +kernel)
  obtain ⟨v, hv⟩ : ∃ v, source.read (handleOf source) (.ofNat 2) ⟨0, 0⟩ = .ok v :=
    Except.exists_eq_ok (by decide +kernel)
  obtain ⟨h', hh', hcopies'⟩ : ∃ h' ∈ (source.step copying).handles,
      h'.settings.serverSideCopy = true := by decide +kernel
  obtain ⟨-, -, hall⟩ := Site.Reachable.copy_read hreachable hget hcopies hadmits hok hh' hcopies'
  obtain ⟨key, hkey, -, -, hnew⟩ := (hall ⟨0, 0⟩).2 v hv
  rw [hkeeps, if_neg Bool.false_ne_true] at hnew
  exact ⟨_, List.mem_of_getElem? hget, h', hh', v, key, hkey, hv, hnew⟩

/-- The copy of the copy has no ancestor, and its segment cannot be read. -/
theorem Sample.copy_unread : lossy.Reachable Lacks ∧ lossy.Admits Lacks copying ∧
    ∃ h ∈ lossy.handles, h.settings.serverSideCopy = true ∧
      ((lossy.catalog h).run (Catalog.finishCopy moment second)).1.toOption.isSome = true ∧
      (lossy.read h (.ofNat 2) ⟨0, 0⟩).toOption.isSome = true ∧
      ∃ h' ∈ (lossy.step copying).handles, h'.settings.serverSideCopy = true ∧
        (lossy.step copying).read h' (.ofNat 3) ⟨0, 0⟩ =
          .error (.corrupted (.noAncestor ⟨0, 0⟩ (.ofNat 3))) := by
  refine ⟨Site.Reachable.fresh.run ?_, ?_, ?_⟩ <;> decide +kernel

end ObjectCatalog
