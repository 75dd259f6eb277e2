import ObjectCatalog.Proofs.Copies
import ObjectCatalog.Proofs.Deletions
import ObjectCatalog.Proofs.Runs

/-!
# Copies and their ancestors

In runs in which new stream ids are fresh, the tables stay coherent whatever happens. So segments
belong to objects, and a copy relation always joins two committed objects that stand beside each
other segment by segment.

* `Change.coherent`, `Site.Reachable.coherent`: the invariant, kept by each change and so by runs.
* `Store.Aligned`, `Site.Reachable.copies_aligned`: **what relations and ownership promise.**
-/

namespace ObjectCatalog

variable {s s' : Store}

/-- **Every change with a fresh stream keeps the tables coherent.** -/
theorem Change.coherent (h : Change Store.Lacks s s') (hs : s.Coherent) : s'.Coherent := by
  cases h with
  | upload h => exact h.coherent hs
  | copy hfresh hcopy =>
    obtain ⟨_, _, _, _, hcopied⟩ := Store.copied_of_ok hcopy
    exact hcopied.coherent hs hfresh
  | delete h => exact h.coherent hs

theorem Changes.coherent (h : Changes Store.Lacks s s') (hs : s.Coherent) : s'.Coherent := by
  induction h with
  | refl => exact hs
  | tail _ hc ih => exact hc.coherent ih

theorem Move.coherent (h : Move Store.Lacks s s') (hs : s.Coherent) : s'.Coherent :=
  h.toChanges.coherent hs

/-- **The tables of a run with fresh stream ids are coherent.** -/
theorem Site.Reachable.coherent {σ : Site} (hσ : σ.Reachable Store.Lacks)
    (hs : σ.store = some s) : s.Coherent :=
  hσ.invariant Store.coherent_empty (fun _ _ hc => hc.coherent) hs

/-! ## What relations promise -/

namespace Store

/-- Ownership of segments, and copies beside their ancestors: a relation joins two committed objects,
no ancestor is a copy, and the two streams have segments at the same positions, of the same sizes,
offsets and redundancy. Where a copy needs its ancestor that has pieces, and where the ancestor has
pieces the copy has none. -/
structure Aligned (s : Store) : Prop where
  owned : ∀ r ∈ s.segments.rows, ∃ o ∈ s.objects.rows, o.stream = r.stream
  apart : ∀ c ∈ s.copies.rows, c.stream ≠ c.ancestor
  one_level : ∀ c ∈ s.copies.rows, ∀ c' ∈ s.copies.rows, c'.stream ≠ c.ancestor
  copy_committed : ∀ c ∈ s.copies.rows,
    ∃ o ∈ s.objects.rows, o.stream = c.stream ∧ o.hasStatus .committed = true
  ancestor_committed : ∀ c ∈ s.copies.rows,
    ∃ o ∈ s.objects.rows, o.stream = c.ancestor ∧ o.hasStatus .committed = true
  positions : ∀ c ∈ s.copies.rows,
    (s.segmentsOf c.stream).map (·.position) = (s.segmentsOf c.ancestor).map (·.position)
  sizes : ∀ c ∈ s.copies.rows, ∀ r ∈ s.segmentsOf c.stream, ∀ k ∈ s.segmentsOf c.ancestor,
    r.position = k.position → r.encryptedSize = k.encryptedSize ∧ r.plainSize = k.plainSize ∧
      r.plainOffset = k.plainOffset ∧ r.redundancy = k.redundancy
  held : ∀ c ∈ s.copies.rows, ∀ r ∈ s.segmentsOf c.stream, ∀ k ∈ s.segmentsOf c.ancestor,
    r.position = k.position → (r.piecesInAncestor = true → k.holdsPieces = true) ∧
      (k.holdsPieces = true → r.holdsPieces = false)

/-- The positions of a stream's segments are in ascending order. -/
theorem ascending_positions (s : Store) (x : StreamId) :
    Ascending id ((s.segmentsOf x).map (·.position)) := by
  refine List.pairwise_map.2 ?_
  have hrows : Ascending SegmentRow.id (s.segmentsOf x) :=
    s.segments.ascending.sublist List.filter_sublist
  refine List.Pairwise.imp_of_mem (fun {r k} hr hk hlt => ?_) hrows
  have hsame : r.stream = k.stream := (mem_segmentsOf.1 hr).2.trans (mem_segmentsOf.1 hk).2.symm
  have horder : (compare r.stream k.stream).then (compare r.position k.position) = .lt := hlt
  have hself : compare k.stream k.stream = .eq := Std.ReflCmp.compare_self
  rw [hsame, hself] at horder
  exact horder

theorem Related.positions_eq {c a : StreamId} (h : s.Related c a) :
    (s.segmentsOf c).map (·.position) = (s.segmentsOf a).map (·.position) := by
  refine (ascending_positions s c).eq_of_mem_iff (ascending_positions s a) fun p => ?_
  simp only [List.mem_map]
  constructor
  · rintro ⟨r, hr, rfl⟩
    obtain ⟨k, hk, -⟩ := (h.rows r.position).exists_right (mem_segmentsOf_iff_row?.1 hr)
    have hpos : k.position = r.position := (row?_eq_some_iff.1 hk).2.2
    exact ⟨k, mem_segmentsOf_iff_row?.2 (hpos.symm ▸ hk), hpos⟩
  · rintro ⟨k, hk, rfl⟩
    obtain ⟨r, hr, -⟩ := (h.rows k.position).exists_left (mem_segmentsOf_iff_row?.1 hk)
    have hpos : r.position = k.position := (row?_eq_some_iff.1 hr).2.2
    exact ⟨r, mem_segmentsOf_iff_row?.2 (hpos.symm ▸ hr), hpos⟩

theorem Related.mirrors {c a : StreamId} (h : s.Related c a) {r k : SegmentRow}
    (hr : r ∈ s.segmentsOf c) (hk : k ∈ s.segmentsOf a) (hpos : r.position = k.position) :
    r.Mirrors k := by
  obtain ⟨k', hk', hm⟩ := (h.rows r.position).exists_right (mem_segmentsOf_iff_row?.1 hr)
  rw [hpos, mem_segmentsOf_iff_row?.1 hk] at hk'
  cases hk'
  exact hm

theorem Coherent.related (hs : s.Coherent) {c : CopyRow} (hc : c ∈ s.copies.rows) :
    s.Related c.stream c.ancestor :=
  hs.families _ _ (ancestorOf?_self hc)

theorem Coherent.aligned (hs : s.Coherent) : s.Aligned where
  owned := hs.owned
  apart _ hc := (hs.related hc).ne
  one_level c hc c' hc' heq := by
    have hroot := (hs.related hc).root
    rw [← heq, ancestorOf?_self hc'] at hroot
    cases hroot
  copy_committed _ hc := (hs.related hc).copy_committed
  ancestor_committed _ hc := (hs.related hc).ancestor_committed
  positions _ hc := (hs.related hc).positions_eq
  sizes _ hc _ hr _ hk hpos := by
    have hm := (hs.related hc).mirrors hr hk hpos
    exact ⟨hm.encryptedSize, hm.plainSize, hm.plainOffset, hm.redundancy⟩
  held _ hc _ hr _ hk hpos := by
    have hm := (hs.related hc).mirrors hr hk hpos
    exact ⟨fun hneeds => hm.needs_eq.symm.trans hneeds, fun _ => hm.no_pieces⟩

end Store

/-- **At every site of a run with fresh stream ids segments belong to objects and copies stand beside
their ancestors.** -/
theorem Site.Reachable.copies_aligned {σ : Site} (hσ : σ.Reachable Store.Lacks)
    (hs : σ.store = some s) : s.Aligned :=
  (hσ.coherent hs).aligned

/-! ### An object with two copies -/

namespace Sample

/-- The identity of version 1 of a key of one byte. -/
def identity (key : UInt8) (stream : Nat) : ObjectStream where
  location := ⟨.ofNat 1, "bucket", [key]⟩
  version := 1
  stream := .ofNat stream

/-- A moment at which calls are made. -/
def moment : Instant where
  date := { year := 2001, month := 1, day := 1 }
  hour := 0
  minute := 0
  second := 0
  nano := 0

/-- The start of an upload. -/
def begin (o : ObjectStream) : Call := .beginExactVersion { stream := o, encryption := ⟨1, 256⟩ }

/-- A remote segment with one piece. -/
def segment (o : ObjectStream) (redundancy : Redundancy) : Call :=
  .commitSegment {
    stream := o, position := ⟨0, 0⟩, rootPiece := .ofNat 3, keyNonce := [1], key := [2]
    plainOffset := 0, plainSize := 5, encryptedSize := 7, redundancy, pieces := [⟨0, .ofNat 9⟩] }

/-- The completion of an upload. -/
def commit (o : ObjectStream) : Call := .commitObject { stream := o }

/-- The copy of an object with one segment. -/
def copyOf (source target : ObjectStream) : FinishCopy where
  source := source
  newBucket := target.location.bucket
  newKey := target.location.key
  newStream := target.stream
  newKeys := [⟨⟨0, 0⟩, [3], [4]⟩]

/-- An upload and a copy of it, on one handle. -/
def upload (redundancy : Redundancy) : List Event :=
  .opening {} :: [begin (identity 1 1), segment (identity 1 1) redundancy, commit (identity 1 1),
    .finishCopy (copyOf (identity 1 1) (identity 2 2))].map (.call 0 moment)

/-- The copy of the copy. -/
def second : FinishCopy := copyOf (identity 2 2) (identity 3 3)

/-- The site with the three objects. -/
def site : Site :=
  Site.fresh.run (upload { algorithm := 1 } ++ [.call 0 moment (.finishCopy second)])

theorem reachable_site : site.Reachable Store.Lacks :=
  Site.Reachable.fresh.run (by decide +kernel)

/-- The handle on which the calls of a site were made. -/
def handleOf (σ : Site) : Handle := σ.handles[0]?.getD { settings := {} }

theorem getElem?_handles {σ : Site} (hopen : σ.handles[0]?.isSome = true) :
    σ.handles[0]? = some (handleOf σ) := by
  obtain ⟨h, hh⟩ := Option.isSome_iff_exists.1 hopen
  rw [handleOf, hh, Option.getD_some]

end Sample

theorem Sample.copies_aligned_site :
    ∃ s, Sample.site.store = some s ∧ s.copies.rows.length = 2 ∧ s.Aligned := by
  obtain ⟨s, hs⟩ := Sample.reachable_site.stands
  have hcopies : (Sample.site.store.map (·.copies.rows.length)) = some 2 := by decide +kernel
  rw [hs.store, Option.map_some, Option.some.injEq] at hcopies
  exact ⟨s, hs.store, hcopies, Site.Reachable.copies_aligned Sample.reachable_site hs.store⟩

end ObjectCatalog
