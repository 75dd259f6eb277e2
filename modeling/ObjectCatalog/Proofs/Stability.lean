import ObjectCatalog.Proofs.Lookups
import ObjectCatalog.Proofs.Relations

/-!
# Committed data stays readable

What a committed stream holds is read with its copies resolved. Its rows may change when its
ancestor is deleted, but what is read does not.

* `Store.Coherent.read_congr`: streams whose rows take the same from their ancestors are read alike.
* `DeletionStep.read_eq`: the heir of an ancestor has what its row took, and the others take from it.
* `Changes.keeps`: what each change leaves of a committed stream that stays, all changes leave.
* `Move.read_eq`, `Site.Reachable.read_stable`: **no call alters what is read of a committed object
  that stays.**
-/

namespace ObjectCatalog

namespace Store

variable {s s' : Store} {x a : StreamId} {r r' k : SegmentRow} {t : NodeTable} {p : Position}

/-! ## Rows and their ancestors -/

theorem withAncestor_self (hself : r.piecesInAncestor = false) (serverSideCopy : Bool) :
    s.withAncestor serverSideCopy r = .ok r := by
  unfold withAncestor
  rw [hself, Bool.and_false]
  rfl

theorem withAncestor_none (hneeds : r.piecesInAncestor = true) (hanc : s.ancestorOf? r.stream = none) :
    s.withAncestor true r = .error (.corrupted (.noAncestor r.place r.stream)) := by
  unfold withAncestor
  rw [hneeds, hanc]
  rfl

theorem withAncestor_some (hr : r.Shaped t) (hk : k.Shaped t) (hneeds : r.piecesInAncestor = true)
    (hanc : s.ancestorOf? r.stream = some a) (hrow : s.row? a r.position = some k) :
    s.withAncestor true r = .ok (r.withPiecesOf k) := by
  have hheld : s.segment? a r.place = some k := by
    rw [segment?_eq, hr.position_eq, hrow]
  unfold withAncestor
  rw [hneeds, hanc]
  simp only [Bool.and_self, if_true, fromAncestor, hheld, SegmentRow.require, List.all_cons,
    hk.rootPiece_isSome, List.all_nil]
  rfl

/-- A row takes the same from its ancestor in stores that agree on the ancestor. -/
theorem withAncestor_congr (hanc : s'.ancestorOf? r.stream = s.ancestorOf? r.stream)
    (hrows : ∀ a, s.ancestorOf? r.stream = some a → ∀ p, s'.row? a p = s.row? a p)
    (serverSideCopy : Bool) :
    s'.withAncestor serverSideCopy r = s.withAncestor serverSideCopy r := by
  unfold withAncestor
  rw [hanc]
  cases ha : s.ancestorOf? r.stream with
  | none => rfl
  | some a => simp only [fromAncestor, segment?_eq, hrows a ha]

/-- The row of an heir has what it took from its ancestor. -/
theorem Coherent.withAncestor_heir (hs : s.Coherent) (s' : Store) (hr : r ∈ s.segments.rows)
    {gone : List StreamId} (hheir : s.heir? gone a = some r.stream) (ha : a ∈ gone) :
    s'.withAncestor true (s.bequeathed gone s.segmentsOf r.stream r) =
      s.withAncestor true r := by
  have hanc := ancestorOf?_of_heir? hheir
  obtain ⟨k, hk, hm⟩ := ((hs.families _ _ hanc).rows r.position).exists_right (row?_self hr)
  have hkShaped := hs.shaped k (row?_eq_some_iff.1 hk).1
  rw [bequeathed_of_heir hheir ha hk]
  cases hholds : k.holdsPieces with
  | true =>
    have hneeds : r.piecesInAncestor = true := hm.needs_eq.trans hholds
    rw [if_pos rfl, withAncestor_some (hs.shaped r hr) hkShaped hneeds hanc hk]
    exact withAncestor_self (SegmentRow.not_needs_withPiecesOf hholds) true
  | false =>
    have hself : r.piecesInAncestor = false := hm.needs_eq.trans hholds
    rw [if_neg Bool.false_ne_true, withAncestor_self hself, withAncestor_self hself]

/-- Rows that take the same from their ancestors are read alike. -/
theorem Coherent.resolved_congr (hs : s.Coherent) (hext : s.nodes.Extends s'.nodes)
    (hr : r ∈ s.segments.rows) (hw : s'.withAncestor true r' = s.withAncestor true r) :
    s'.resolved true r' = s.resolved true r := by
  unfold resolved
  rw [hw]
  cases hout : s.withAncestor true r with
  | error e => rfl
  | ok r₁ =>
    obtain ⟨l, hl, hcovers⟩ := stored_withAncestor (fun k hk => (hs.shaped k hk).stored) hr hout
    show (Blob.stored r₁.blob >>= _) = (Blob.stored r₁.blob >>= _)
    rw [hl]
    show (s'.nodes.piecesOf l >>= _) = (s.nodes.piecesOf l >>= _)
    rw [hext.piecesOf_eq hcovers]

/-- Streams whose rows take the same from their ancestors are read alike. -/
theorem Coherent.read_congr (hs : s.Coherent) (hs' : s'.Coherent)
    (hext : s.nodes.Extends s'.nodes)
    (hrows : ∀ p, Option.Rel
      (fun r' r => s'.withAncestor true r' = s.withAncestor true r) (s'.row? x p) (s.row? x p)) :
    s'.read true x p = s.read true x p := by
  have hrel := hrows p.column
  unfold read
  rw [segment?_eq, segment?_eq]
  cases hr : s.row? x p.column with
  | none =>
    cases hr' : s'.row? x p.column with
    | none => rfl
    | some r' =>
      obtain ⟨_, hnone, -⟩ := hrel.exists_right hr'
      rw [hr] at hnone
      cases hnone
  | some r =>
    obtain ⟨r', hr', hw⟩ := hrel.exists_left hr
    have hmem := (row?_eq_some_iff.1 hr).1
    have hmem' := (row?_eq_some_iff.1 hr').1
    rw [hr']
    simp only [SegmentRow.require, List.all_cons, List.all_nil, (hs.shaped r hmem).isReadable,
      (hs'.shaped r' hmem').isReadable, Bool.and_true, if_true,
      hs.resolved_congr hext hmem hw]

/-! ## Changes -/

/-- A change that leaves committed streams alone leaves what is read of them. -/
theorem KeepsCommitted.read_eq (h : KeepsCommitted s s') (hs : s.Coherent)
    (hx : s.IsCommitted x) : s'.read true x p = s.read true x p := by
  refine hs.read_congr (hs.of_keepsCommitted h) h.nodes.2 fun q => ?_
  rw [h.rows x hx]
  cases hr : s.row? x q with
  | none => exact .none
  | some r =>
    refine .some (withAncestor_congr (h.ancestorOf?_eq _) (fun a ha => ?_) true)
    exact h.rows a (hs.families _ _ ha).ancestor_committed

/-- A copy leaves what is read of other streams. -/
theorem Copied.read_eq {now : Instant} {f : FinishCopy} {o : ObjectRow} {source : Object}
    {metadata : Option Metadata} {pairs : List (SegmentRow × SegmentKey)} {object : Object}
    (h : s.Copied now f o source metadata pairs object s') (hs : s.Coherent)
    (hfresh : s.Lacks f.newStream) (hx : s.IsCommitted x) :
    s'.read true x p = s.read true x p := by
  have hxNe := hfresh.ne_of_committed hx
  have hext : s.nodes.Extends s'.nodes := by
    rw [h.nodes]
    exact .refl _
  refine hs.read_congr (h.coherent hs hfresh) hext fun q => ?_
  rw [h.row?_of_ne hxNe]
  cases hr : s.row? x q with
  | none => exact .none
  | some r =>
    obtain ⟨-, rfl, -⟩ := row?_eq_some_iff.1 hr
    refine .some (withAncestor_congr (h.ancestorOf?_of_ne hxNe) (fun a ha => ?_) true)
    exact h.row?_of_ne (hfresh.ne_of_committed (hs.families _ _ ha).ancestor_committed)

end Store

open Store

namespace DeletionStep

variable {s s' : Store} {rows : List ObjectRow} {orphaned : List SegmentRow} {x : StreamId}
  (h : DeletionStep s rows orphaned s') (hs : s.Coherent)

include h hs

/-- The row of the heir has what its ancestor's row had, at each position of a copy. -/
theorem row?_heir {a b : StreamId} (hheir : s.heir? (goneStreams rows) a = some b)
    (ha : a ∈ goneStreams rows) {p : Int} {k : SegmentRow} (hk : s.row? a p = some k)
    (hholds : k.holdsPieces = true) : ∃ c : SegmentRow, s'.row? b p = some (c.withPiecesOf k) := by
  have hrel := hs.families _ _ (ancestorOf?_of_heir? hheir)
  obtain ⟨c, hc, -⟩ := (hrel.rows p).exists_left hk
  have hpos : c.position = p := (row?_eq_some_iff.1 hc).2.2
  refine ⟨c, ?_⟩
  rw [h.row?_eq hs, if_neg (heir?_notMem hheir), hc, Option.map_some,
    bequeathed_of_heir hheir ha (hpos.symm ▸ hk), hholds, if_pos rfl]

/-- The row of another copy takes from the heir what it took from the ancestor. -/
theorem withAncestor_follower {r : SegmentRow} (hr : r ∈ s.segments.rows) {a b : StreamId}
    (hanc : s.ancestorOf? r.stream = some a) (ha : a ∈ goneStreams rows)
    (hheir : s.heir? (goneStreams rows) a = some b) (hanc' : s'.ancestorOf? r.stream = some b) :
    s'.withAncestor true r = s.withAncestor true r := by
  cases hneeds : r.piecesInAncestor with
  | false => rw [withAncestor_self hneeds, withAncestor_self hneeds]
  | true =>
    obtain ⟨k, hk, hm⟩ := ((hs.families _ _ hanc).rows r.position).exists_right (row?_self hr)
    have hholds : k.holdsPieces = true := hm.needs_eq.symm.trans hneeds
    have hrShaped := hs.shaped r hr
    have hkShaped := hs.shaped k (row?_eq_some_iff.1 hk).1
    obtain ⟨c, hc⟩ := h.row?_heir hs hheir ha hk hholds
    have hcShaped := (h.coherent hs).shaped _ (row?_eq_some_iff.1 hc).1
    rw [h.nodes_eq hs] at hcShaped
    rw [withAncestor_some hrShaped hcShaped hneeds hanc' hc,
      withAncestor_some hrShaped hkShaped hneeds hanc hk, SegmentRow.withPiecesOf_withPiecesOf]

/-- A row that stays takes from its ancestor what it took before, or has it already. -/
theorem withAncestor_eq (hx : x ∉ goneStreams rows) {p : Int} {r : SegmentRow}
    (hr : s.row? x p = some r) :
    s'.withAncestor true (s.bequeathed (goneStreams rows) s.segmentsOf x r) =
      s.withAncestor true r := by
  obtain ⟨hmem, rfl, rfl⟩ := row?_eq_some_iff.1 hr
  have hanc' := h.ancestorOf?_eq hs r.stream
  rw [if_neg hx] at hanc'
  cases s.fate hx with
  | root hanc =>
    rw [bequeathed_of_not_isHeir (not_isHeir_of_root hanc)]
    rw [resettled_root hanc, ← hanc] at hanc'
    refine withAncestor_congr hanc' (fun a ha => ?_) true
    rw [hanc] at ha
    cases ha
  | kept hanc ha =>
    rw [bequeathed_of_not_isHeir (not_isHeir_of_kept hanc ha)]
    rw [resettled_kept hanc ha, ← hanc] at hanc'
    refine withAncestor_congr hanc' (fun b hb => ?_) true
    rw [hanc, Option.some.injEq] at hb
    subst hb
    exact h.row?_of_not_isHeir hs ha (not_isHeir_of_root (hs.families _ _ hanc).root)
  | heir hheir ha => exact hs.withAncestor_heir s' hmem hheir ha
  | follower hanc ha hheir hne =>
    rw [bequeathed_of_not_isHeir (not_isHeir_of_follower hanc hheir hne)]
    rw [resettled_follower hanc ha hheir hne] at hanc'
    exact h.withAncestor_follower hs hmem hanc ha hheir hanc'

/-- **A deletion leaves what is read of the streams that stay.** -/
theorem read_eq (hx : x ∉ goneStreams rows) {p : Position} :
    s'.read true x p = s.read true x p := by
  have hext : s.nodes.Extends s'.nodes := by
    rw [h.nodes_eq hs]
    exact .refl _
  refine hs.read_congr (h.coherent hs) hext fun q => ?_
  rw [h.row?_eq hs, if_neg hx]
  cases hr : s.row? x q with
  | none => exact .none
  | some r => exact .some (h.withAncestor_eq hs hx hr)

end DeletionStep

/-! ## Objects that stay -/

variable {t : Terms} {s s' : Store} {x : StreamId} {p : Position}

/-- An object row after a step of an upload was there before under the same key and version, with the
same stream, or it is new. -/
theorem UploadStep.object_before (h : UploadStep t s s') {o' : ObjectRow}
    (ho' : o' ∈ s'.objects.rows) :
    (∃ o ∈ s.objects.rows, o.id = o'.id ∧ o.stream = o'.stream) ∨
      s.objects.find? o'.id = none ∧ t.stream s o'.stream ∧
        (o'.version = s.nextVersion o'.location ∨ 0 < o'.version) := by
  have hsame : o' ∈ s.objects.rows →
      (∃ o ∈ s.objects.rows, o.id = o'.id ∧ o.stream = o'.stream) ∨
        s.objects.find? o'.id = none ∧ t.stream s o'.stream ∧
          (o'.version = s.nextVersion o'.location ∨ 0 < o'.version) :=
    fun ho => .inl ⟨o', ho, rfl, rfl⟩
  cases h with
  | nodes => exact hsame ho'
  | segment => exact hsame ho'
  | drop => exact hsame ho'
  | start _ hfree hallow hversion =>
    rcases Table.mem_insert.1 ho' with rfl | ⟨ho', -⟩
    · exact .inr ⟨hfree, hallow, hversion⟩
    · exact hsame ho'
  | @complete o ho _ r metadata =>
    rcases Table.mem_insert.1 ho' with rfl | ⟨ho', -⟩
    · exact .inl ⟨o, ho, rfl, rfl⟩
    · exact hsame ho'
  | @metadata o ho _ parts =>
    rcases Table.mem_insert.1 ho' with rfl | ⟨ho', -⟩
    · exact .inl ⟨o, ho, rfl, rfl⟩
    · exact hsame ho'

theorem Change.object_before (h : Change t s s') {o' : ObjectRow}
    (ho' : o' ∈ s'.objects.rows) :
    (∃ o ∈ s.objects.rows, o.id = o'.id ∧ o.stream = o'.stream) ∨
      s.objects.find? o'.id = none ∧ t.stream s o'.stream ∧
        (o'.version = s.nextVersion o'.location ∨ 0 < o'.version) := by
  cases h with
  | upload h => exact h.object_before ho'
  | copy hallow hcopy =>
    obtain ⟨_, _, _, _, hcopied⟩ := copied_of_ok hcopy
    rcases hcopied.mem_objects.1 ho' with rfl | ho'
    · have hfree := nextVersion_free (ObjectRow.version_of_view hcopied.object_view)
      exact .inr ⟨hfree, hallow, .inl rfl⟩
    · exact .inl ⟨o', ho', rfl, rfl⟩
  | delete h =>
    rw [(keeps_of_removeStreams h.removed).1, dropObjects, Table.rows_filter] at ho'
    exact .inl ⟨o', (List.mem_filter.1 ho').1, rfl, rfl⟩

/-- Changes that bring no new stream bring no new object. -/
theorem Changes.object_before (h : Changes t.closed s s') {o' : ObjectRow}
    (ho' : o' ∈ s'.objects.rows) : ∃ o ∈ s.objects.rows, o.id = o'.id ∧ o.stream = o'.stream := by
  induction h generalizing o' with
  | refl => exact ⟨o', ho', rfl, rfl⟩
  | tail _ hc ih =>
    rcases hc.object_before ho' with ⟨o₁, ho₁, hid, hstream⟩ | ⟨-, hno, -⟩
    · obtain ⟨o, ho, hid₁, hstream₁⟩ := ih ho₁
      exact ⟨o, ho, hid₁.trans hid, hstream₁.trans hstream⟩
    · exact False.elim hno

/-- An object that a call leaves has the stream that it had. -/
theorem Move.stream_eq (h : Move t s s') {o o' : ObjectRow} (ho : o ∈ s.objects.rows)
    (ho' : o' ∈ s'.objects.rows) (hid : o'.id = o.id) : o'.stream = o.stream := by
  have hbefore : ∀ o₁ ∈ s.objects.rows, o₁.id = o'.id → o₁.stream = o'.stream →
      o'.stream = o.stream := by
    intro o₁ ho₁ hid₁ hstream
    rw [← hstream, s.objects.eq_of_key_eq ho₁ ho (hid₁.trans hid)]
  cases h with
  | changes h =>
    obtain ⟨o₁, ho₁, hid₁, hstream⟩ := h.object_before ho'
    exact hbefore o₁ ho₁ hid₁ hstream
  | change h =>
    rcases h.object_before ho' with ⟨o₁, ho₁, hid₁, hstream⟩ | ⟨hfree, -⟩
    · exact hbefore o₁ ho₁ hid₁ hstream
    · exact absurd hid.symm (Table.find?_eq_none_iff.1 hfree o ho)

/-- A committed stream that stays in a change stays committed. -/
theorem Change.isCommitted_of_stays (h : Change Lacks s s') (hs : s.Coherent) (hx : s.IsCommitted x)
    (hstays : ∃ o ∈ s'.objects.rows, o.stream = x) : s'.IsCommitted x := by
  cases h with
  | upload h => exact (h.keepsCommitted hs).committed x hx
  | copy _ hcopy =>
    obtain ⟨_, _, _, _, hcopied⟩ := copied_of_ok hcopy
    exact hcopied.committed_mono hx
  | delete h =>
    obtain ⟨o, ho, rfl⟩ := hstays
    exact (h.committed_iff hs).2 ⟨hx, ((h.mem_objects hs).1 ho).2⟩

/-- **A change leaves what is read of a committed object that stays.** -/
theorem Change.read_eq (h : Change Lacks s s') (hs : s.Coherent) (hx : s.IsCommitted x)
    (hstays : ∃ o ∈ s'.objects.rows, o.stream = x) : s'.read true x p = s.read true x p := by
  cases h with
  | upload h => exact (h.keepsCommitted hs).read_eq hs hx
  | copy hfresh hcopy =>
    obtain ⟨_, _, _, _, hcopied⟩ := copied_of_ok hcopy
    exact hcopied.read_eq hs hfresh hx
  | delete h =>
    obtain ⟨o, ho, rfl⟩ := hstays
    exact h.read_eq hs ((h.mem_objects hs).1 ho).2

/-- **What each change leaves of a committed stream that stays, the changes of a call leave:** an
object that is there at the end was there all along. -/
theorem Changes.keeps {α : Type} (view : Store → α)
    (hview : ∀ {s s' : Store}, Change Lacks s s' → s.Coherent → s.IsCommitted x →
      (∃ o ∈ s'.objects.rows, o.stream = x) → view s' = view s)
    (h : Changes (Terms.closed Lacks) s s') (hs : s.Coherent) (hx : s.IsCommitted x)
    (hstays : ∃ o ∈ s'.objects.rows, o.stream = x) : view s' = view s ∧ s'.IsCommitted x := by
  induction h with
  | refl => exact ⟨rfl, hx⟩
  | @tail s₁ s₂ hchanges hc ih =>
    obtain ⟨o₂, ho₂, rfl⟩ := hstays
    have hstays₁ : ∃ o ∈ s₁.objects.rows, o.stream = o₂.stream := by
      rcases hc.object_before ho₂ with ⟨o₁, ho₁, -, hstream⟩ | ⟨-, hno, -⟩
      · exact ⟨o₁, ho₁, hstream⟩
      · exact False.elim hno
    obtain ⟨hsame, hx₁⟩ := ih hstays₁
    have hcoherent : s₁.Coherent := (Changes.mono hchanges (Terms.closed_within _)).coherent hs
    have hc' : Change Lacks s₁ s₂ := hc.mono (Terms.closed_within _)
    exact ⟨(hview hc' hcoherent hx₁ ⟨o₂, ho₂, rfl⟩).trans hsame,
      hc'.isCommitted_of_stays hcoherent hx₁ ⟨o₂, ho₂, rfl⟩⟩

theorem Move.keeps {α : Type} (view : Store → α)
    (hview : ∀ {s s' : Store}, Change Lacks s s' → s.Coherent → s.IsCommitted x →
      (∃ o ∈ s'.objects.rows, o.stream = x) → view s' = view s)
    (h : Move Lacks s s') (hs : s.Coherent) (hx : s.IsCommitted x)
    (hstays : ∃ o ∈ s'.objects.rows, o.stream = x) : view s' = view s ∧ s'.IsCommitted x := by
  cases h with
  | changes h => exact h.keeps view hview hs hx hstays
  | change h => exact ⟨hview h hs hx hstays, h.isCommitted_of_stays hs hx hstays⟩

/-- **No call alters what is read of a committed object that stays.** -/
theorem Move.read_eq (h : Move Lacks s s') (hs : s.Coherent) (hx : s.IsCommitted x)
    (hstays : ∃ o ∈ s'.objects.rows, o.stream = x) :
    s'.read true x p = s.read true x p :=
  (h.keeps (·.read true x p) Change.read_eq hs hx hstays).1

namespace Site

variable {σ : Site}

/-- What a handle of a site returns for the segment of a stream at a position. -/
def read (σ : Site) (h : Handle) (x : StreamId) (p : Position) : Except Error Segment :=
  ((σ.catalog h).run (Catalog.getSegment x p)).1

/-- A handle returns what the tables say. -/
theorem Stands.read_eq (hσ : σ.Stands s) {h : Handle} (hh : h ∈ σ.handles) :
    σ.read h x p = s.read h.settings.serverSideCopy x p := by
  have hopen := hσ.open hh
  obtain ⟨cache, -, hrun⟩ := Catalog.run_getSegment hopen.store hopen.cache x p
  rw [read, hrun]
  rfl

theorem Stands.mem_objects (hσ : σ.Stands s) {o : ObjectRow} :
    o ∈ σ.objects ↔ o ∈ s.objects.rows := by
  unfold objects
  rw [hσ.store]
  rfl

/-- **In runs with fresh stream ids what handles with server-side copies read of a committed object
stays the same in every event that leaves the object.** -/
theorem Reachable.read_stable (hσ : σ.Reachable Lacks) {e : Event} (he : σ.Admits Lacks e)
    {o o' : ObjectRow} (ho : o ∈ σ.objects) (hcommitted : o.hasStatus .committed = true)
    (ho' : o' ∈ (σ.step e).objects) (hid : o'.id = o.id) {h h' : Handle} (hh : h ∈ σ.handles)
    (hh' : h' ∈ (σ.step e).handles) (hcopies : h.settings.serverSideCopy = true)
    (hcopies' : h'.settings.serverSideCopy = true) (p : Position) :
    (σ.step e).read h' o.stream p = σ.read h o.stream p := by
  obtain ⟨s, hstands⟩ := hσ.stands
  obtain ⟨s', hstands', hmove⟩ := hstands.step he
  rw [hstands.mem_objects] at ho
  rw [hstands'.mem_objects] at ho'
  rw [hstands.read_eq hh, hstands'.read_eq hh', hcopies, hcopies']
  exact hmove.read_eq (hσ.coherent hstands.store) ⟨o, ho, rfl, hcommitted⟩
    ⟨o', ho', hmove.stream_eq ho ho' hid⟩

end Site

/-- The deletion of the object of which the others are copies. -/
def Sample.deletion : Event :=
  .call 0 moment (.delete (.exactVersion (identity 1 1).location 1))

/-- The first copy gets the pieces of the deleted object, and is read as before. -/
theorem Sample.read_stable_site :
    ∃ o ∈ site.objects, ∃ o' ∈ (site.step deletion).objects, o.stream = .ofNat 2 ∧
      ∃ h ∈ site.handles, ∃ h' ∈ (site.step deletion).handles, ∀ p,
        (site.step deletion).read h' o.stream p = site.read h o.stream p := by
  have hobjects : ∃ o ∈ site.objects, ∃ o' ∈ (site.step deletion).objects,
      o.stream = .ofNat 2 ∧ o.hasStatus .committed = true ∧ o'.id = o.id := by decide +kernel
  have hhandles : ∃ h ∈ site.handles, ∃ h' ∈ (site.step deletion).handles,
      h.settings.serverSideCopy = true ∧ h'.settings.serverSideCopy = true := by decide +kernel
  obtain ⟨o, ho, o', ho', hstream, hcommitted, hid⟩ := hobjects
  obtain ⟨h, hh, h', hh', hcopies, hcopies'⟩ := hhandles
  have hadmits : site.Admits Lacks deletion := fun x hx => by cases hx
  exact ⟨o, ho, o', ho', hstream, h, hh, h', hh',
    Site.Reachable.read_stable reachable_site hadmits ho hcommitted ho' hid hh hh' hcopies hcopies'⟩

end ObjectCatalog
