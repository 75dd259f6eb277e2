import ObjectCatalog.Proofs.Aliases
import ObjectCatalog.Proofs.Families
import ObjectCatalog.Reading

/-!
# Reading through a cache

What a handle reads does not depend on what its cache has learned: a read through a cache of the
table gives what the tables alone say.

* `Lookup.Learns`: a read after which the cache still holds rows of the table only.
* `Lookup.Gives`: a read with the outcome that the tables say.
* `Store.resolved`, `Store.released`, `Store.read`: what the tables say of a row, of rows that are
  removed, and of a position of a stream.
* `Catalog.run_getSegment`: **the segment that a handle returns is the one the tables say.**
-/

namespace ObjectCatalog

/-! ## Lookups step by step -/

namespace Lookup

variable {α β : Type} {t t' : NodeTable} {l : Lookup α} {f : α → Lookup β}

/-- A read after which the cache still holds rows of a table only. -/
def Learns (t : NodeTable) (l : Lookup α) : Prop := ∀ c : AliasCache, c.Within t → (l.run c).2.Within t

/-- A read with an outcome that does not depend on the cache, as long as that holds rows of a table
only. -/
def Gives (t : NodeTable) (l : Lookup α) (outcome : Except Error α) : Prop :=
  ∀ c : AliasCache, c.Within t → (l.run c).1 = outcome ∧ (l.run c).2.Within t

theorem Gives.learns {outcome : Except Error α} (h : Gives t l outcome) : Learns t l :=
  fun c hc => (h c hc).2

theorem run_bind (l : Lookup α) (f : α → Lookup β) (c : AliasCache) :
    Lookup.run (l >>= f) c =
      match l.run c with
      | (.ok v, c') => (f v).run c'
      | (.error e, c') => (.error e, c') := by
  simp only [run, ExceptT.run_bind, StateT.run_bind]
  show _ = match (ExceptT.run l).run c with
      | (.ok v, c') => (ExceptT.run (f v)).run c'
      | (.error e, c') => (.error e, c')
  rcases (ExceptT.run l).run c with ⟨_ | _, _⟩ <;> rfl

theorem Learns.bind (h : Learns t l) (hf : ∀ v, Learns t (f v)) : Learns t (l >>= f) :=
  fun c hc => by
    have hl := h c hc
    rw [run_bind]
    rcases hrun : l.run c with ⟨_ | v, c'⟩
    · rw [hrun] at hl
      exact hl
    · rw [hrun] at hl
      exact hf v c' hl

theorem learns_lift (outcome : Except Error α) : Learns t (liftM outcome : Lookup α) :=
  fun _ hc => hc

theorem learns_pure (v : α) : Learns t (pure v : Lookup α) := fun _ hc => hc

theorem learns_pieces (hext : t'.Extends t) (aliases : List AliasPiece) :
    Learns t (Lookup.pieces t' aliases) := by
  intro c hc
  show AliasCache.Within (if c.knows aliases then c else c.remember t'.rows.rows) t
  split
  · exact hc
  · exact hc.remember hext

theorem Learns.mapM {f : β → Lookup α} {xs : List β} (hf : ∀ x ∈ xs, Learns t (f x)) :
    Learns t (xs.mapM f) := by
  induction xs with
  | nil => rw [List.mapM_nil]; exact learns_pure _
  | cons x rest ih =>
    rw [List.mapM_cons]
    refine (hf x List.mem_cons_self).bind fun y => ?_
    exact (ih fun z hz => hf z (List.mem_cons_of_mem _ hz)).bind fun ys => learns_pure _

theorem Gives.bind_of_ok {o : Except Error α} {g : α → Except Error β} (h : Gives t l o)
    (hf : ∀ v, o = .ok v → Gives t (f v) (g v)) : Gives t (l >>= f) (o >>= g) := by
  intro c hc
  have hl := h c hc
  rw [run_bind]
  rcases hrun : l.run c with ⟨e | v, c'⟩
  · rw [hrun] at hl
    obtain ⟨rfl, hc'⟩ := hl
    exact ⟨rfl, hc'⟩
  · rw [hrun] at hl
    obtain ⟨rfl, hc'⟩ := hl
    exact hf v rfl c' hc'

theorem Gives.bind {o : Except Error α} {g : α → Except Error β} (h : Gives t l o)
    (hf : ∀ v, Gives t (f v) (g v)) : Gives t (l >>= f) (o >>= g) :=
  h.bind_of_ok fun v _ => hf v

theorem gives_lift (outcome : Except Error α) : Gives t (liftM outcome : Lookup α) outcome :=
  fun _ hc => ⟨rfl, hc⟩

theorem gives_pure (v : α) : Gives t (pure v : Lookup α) (pure v) := fun _ hc => ⟨rfl, hc⟩

theorem gives_pieces (t : NodeTable) (aliases : List AliasPiece) :
    Gives t (Lookup.pieces t aliases) (t.piecesOf aliases) := fun _ hc => run_pieces hc aliases

theorem Gives.mapM {f : β → Lookup α} {g : β → Except Error α} {xs : List β}
    (hf : ∀ x ∈ xs, Gives t (f x) (g x)) : Gives t (xs.mapM f) (xs.mapM g) := by
  induction xs with
  | nil => rw [List.mapM_nil, List.mapM_nil]; exact gives_pure _
  | cons x rest ih =>
    rw [List.mapM_cons, List.mapM_cons]
    refine (hf x List.mem_cons_self).bind fun y => ?_
    exact (ih fun z hz => hf z (List.mem_cons_of_mem _ hz)).bind fun ys => gives_pure _

end Lookup

/-! ## A batch of rows -/

/-- A memo that holds what the table of copies says. -/
def AncestorMemo.Of (s : Store) (memo : AncestorMemo) : Prop :=
  ∀ x ancestor, memo.lookup x = some ancestor → ancestor = s.ancestorOf? x

namespace Store

variable {s : Store} {memo : AncestorMemo}

theorem askAncestor_fst (hmemo : memo.Of s) (x : StreamId) : (s.askAncestor memo x).1 = s.ancestorOf? x := by
  unfold askAncestor
  cases hknown : memo.lookup x with
  | none => rfl
  | some ancestor => exact hmemo x ancestor hknown

theorem askAncestor_snd (hmemo : memo.Of s) (x : StreamId) : (s.askAncestor memo x).2.Of s := by
  unfold askAncestor
  cases hknown : memo.lookup x with
  | some _ => exact hmemo
  | none =>
    intro y ancestor hlookup
    rw [List.lookup_cons] at hlookup
    cases hyx : y == x with
    | true =>
      rw [hyx] at hlookup
      rw [eq_of_beq hyx]
      exact (Option.some.inj hlookup).symm
    | false =>
      rw [hyx] at hlookup
      exact hmemo y ancestor hlookup

theorem resolveFrom_eq (serverSideCopy : Bool) (hmemo : memo.Of s) (rows : List SegmentRow) :
    s.resolveFrom serverSideCopy memo rows = rows.mapM (s.resolve serverSideCopy) := by
  induction rows generalizing memo with
  | nil => rw [List.mapM_nil]; rfl
  | cons r rest ih =>
    rw [List.mapM_cons, resolveFrom]
    unfold resolve withAncestor
    cases hneeds : serverSideCopy && r.piecesInAncestor with
    | true =>
      simp only [if_true, bind_assoc, ih (askAncestor_snd hmemo r.stream), askAncestor_fst hmemo]
      rfl
    | false =>
      simp only [ih hmemo, Bool.false_eq_true, if_false]
      rfl

/-- **A batch remembers ancestors without its segments showing it:** its rows are resolved as each
would be alone. -/
theorem resolveBatch_eq (s : Store) (serverSideCopy : Bool) (rows : List SegmentRow) :
    s.resolveBatch serverSideCopy rows = rows.mapM (s.resolve serverSideCopy) :=
  resolveFrom_eq serverSideCopy (fun _ _ hlookup => absurd hlookup (by simp)) rows

end Store

/-! ## What the tables say -/

/-- The pieces that a row held of its own, as the tables say. -/
def SegmentRow.released (t : NodeTable) (r : SegmentRow) : Except Error ReleasedPieces := do
  let aliases ← Blob.stored r.blob
  let pieces ← t.piecesOf aliases
  return ⟨r.rootPiece?.getD .zero, pieces⟩

/-- Rows that are removed release what the tables say. -/
theorem SegmentRow.gives_release (t : NodeTable) (rows : List SegmentRow) :
    Lookup.Gives t (SegmentRow.release t rows)
      ((rows.filter (·.holdsPieces)).mapM (released t)) :=
  Lookup.Gives.mapM fun _ _ => (Lookup.gives_lift _).bind fun aliases =>
    (Lookup.gives_pieces t aliases).bind fun _ => Lookup.gives_pure _

namespace Store

variable {s : Store} {x : StreamId} {p : Position}

/-- A row takes the pieces of another one from its ancestor, with its root piece id and its repair
time, or nothing. -/
theorem of_withAncestor {serverSideCopy : Bool} {r r' : SegmentRow}
    (hw : s.withAncestor serverSideCopy r = .ok r') :
    r' = r ∨ ∃ k ∈ s.segments.rows, r' = r.withPiecesOf k := by
  unfold withAncestor at hw
  split at hw
  · cases hanc : s.ancestorOf? r.stream with
    | none =>
      rw [hanc] at hw
      cases hw
    | some a =>
      rw [hanc, fromAncestor] at hw
      cases hheld : s.segment? a r.place with
      | none =>
        rw [hheld] at hw
        cases hw
      | some k =>
        rw [hheld] at hw
        obtain ⟨-, -, hw⟩ := Except.bind_eq_ok.1 hw
        cases hw
        exact .inr ⟨k, (Table.find?_eq_some_iff.1 hheld).1, rfl⟩
  · cases hw
    exact .inl rfl

/-- Where the pieces of all rows are on known nodes, those are that a row has after it took from its
ancestor. -/
theorem stored_withAncestor {serverSideCopy : Bool} {r r' : SegmentRow}
    (hall : ∀ k ∈ s.segments.rows, ∃ l, Blob.stored k.blob = .ok l ∧ s.nodes.Covers l)
    (hr : r ∈ s.segments.rows) (hw : s.withAncestor serverSideCopy r = .ok r') :
    ∃ l, Blob.stored r'.blob = .ok l ∧ s.nodes.Covers l := by
  rcases of_withAncestor hw with rfl | ⟨k, hk, rfl⟩
  · exact hall r' hr
  · exact hall k hk

/-- The segment of a row, as the tables say. -/
def resolved (s : Store) (serverSideCopy : Bool) (r : SegmentRow) : Except Error Segment := do
  let r ← s.withAncestor serverSideCopy r
  let aliases ← Blob.stored r.blob
  let pieces ← s.nodes.piecesOf aliases
  return r.view pieces

theorem gives_resolve (s : Store) (serverSideCopy : Bool) (r : SegmentRow) :
    Lookup.Gives s.nodes (s.resolve serverSideCopy r) (s.resolved serverSideCopy r) :=
  (Lookup.gives_lift _).bind fun _ => (Lookup.gives_lift _).bind fun aliases =>
    (Lookup.gives_pieces _ aliases).bind fun _ => Lookup.gives_pure _

theorem learns_resolve {t : NodeTable} (hext : s.nodes.Extends t) (serverSideCopy : Bool)
    (r : SegmentRow) : Lookup.Learns t (s.resolve serverSideCopy r) :=
  (Lookup.learns_lift _).bind fun _ => (Lookup.learns_lift _).bind fun aliases =>
    (Lookup.learns_pieces hext aliases).bind fun _ => Lookup.learns_pure _

theorem gives_resolveBatch (s : Store) (serverSideCopy : Bool) (rows : List SegmentRow) :
    Lookup.Gives s.nodes (s.resolveBatch serverSideCopy rows)
      (rows.mapM (s.resolved serverSideCopy)) := by
  rw [resolveBatch_eq]
  exact Lookup.Gives.mapM fun row _ => s.gives_resolve serverSideCopy row

theorem learns_resolveBatch {t : NodeTable} (hext : s.nodes.Extends t) (serverSideCopy : Bool)
    (rows : List SegmentRow) : Lookup.Learns t (s.resolveBatch serverSideCopy rows) := by
  rw [resolveBatch_eq]
  exact Lookup.Learns.mapM fun row _ => s.learns_resolve hext serverSideCopy row

/-- The segment of a stream at a position, as the tables say. -/
def read (s : Store) (serverSideCopy : Bool) (x : StreamId) (p : Position) : Except Error Segment := do
  reject x.isZero .noStream
  match s.segment? x p with
  | none => throw (.segmentNotFound (.atPosition x p))
  | some row => do
    SegmentRow.require .getSegment (·.isReadable) [row]
    s.resolved serverSideCopy row

end Store

namespace Catalog

variable {α : Type} {c : Catalog} {s : Store}

/-- A read of a handle gives what the tables say, and leaves the tables. -/
theorem run_reading_gives {l : Lookup α} {outcome : Except Error α} {t : NodeTable}
    (hcache : c.cache.Within t) (hl : l.Gives t outcome) :
    ∃ cache, cache.Within t ∧ c.run (reading l) = (outcome, { c with cache }) := by
  obtain ⟨hout, hwithin⟩ := hl c.cache hcache
  refine ⟨_, hwithin, ?_⟩
  rw [run_reading, ← hout]
  rfl

/-- **The segment that a handle returns is the one the tables say,** whatever its cache has learned
of them. -/
theorem run_getSegment (hstore : c.store = some s) (hcache : c.cache.Within s.nodes) (x : StreamId)
    (p : Position) : ∃ cache, cache.Within s.nodes ∧
      c.run (getSegment x p) = (s.read c.settings.serverSideCopy x p, { c with cache }) := by
  unfold getSegment Store.read
  rw [run_reject_bind]
  cases hzero : x.isZero with
  | true => exact ⟨c.cache, hcache, rfl⟩
  | false =>
    rw [if_neg Bool.false_ne_true, run_tables_bind hstore]
    cases hrow : s.segment? x p with
    | none => exact ⟨c.cache, hcache, rfl⟩
    | some row =>
      simp only [resolve]
      rw [run_lift_bind]
      cases hread : SegmentRow.require .getSegment (·.isReadable) [row] with
      | error e => exact ⟨c.cache, hcache, rfl⟩
      | ok u =>
        obtain ⟨cache, hwithin, hrun⟩ :=
          run_reading_gives hcache (s.gives_resolve c.settings.serverSideCopy row)
        refine ⟨cache, hwithin, ?_⟩
        rw [run_get_bind]
        exact hrun

end Catalog

end ObjectCatalog
