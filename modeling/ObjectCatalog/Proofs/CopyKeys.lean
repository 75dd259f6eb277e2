import ObjectCatalog.Proofs.Lifecycle
import ObjectCatalog.Proofs.LongUploads
import ObjectCatalog.Proofs.ReadBack
import ObjectCatalog.Proofs.Trust
import ObjectCatalog.Proofs.Versions

/-!
# The keys of a copy

A client that copies an object asks for the positions of its segments, prepares a key for each of
them, and hands the keys in, in any order. They are sorted and laid beside the segments, so they are
taken just when there is one for each position. Segments of a committed object keep their positions,
so the keys may be handed in at any later time.

* `FinishCopy.unmatched?`, `FinishCopy.pair_eq`: **what becomes of keys that lie beside segments.**
* `FinishCopy.sortedKeys_perm`: keys for different positions are sorted in one way only.
* `Store.Copyable`, `Store.keyFault?`: requests in order but for their keys, and what is wrong with
  these.
* `Store.Coherent.keyFault?_eq_none_iff`: **nothing is wrong if there is one key for each position.**
* `Store.finishCopy_of_fault`, `Store.finishCopy_of_perm`: a copy says what is wrong, or succeeds.
* `Store.finishCopy_of_full`, `Store.finishCopy_of_many`: when right keys are refused, the latter with
  the number that `FinishCopy.miscount` tells.
* `Store.Coherent.finishCopy_perm`: the order of the keys does not matter.
* `Site.Reachable.slices_run`: **a committed object that stays keeps the slices of its segments.**
* `Site.Reachable.copy_keys_exact`: the two calls of a copy at a reachable site.
-/

namespace ObjectCatalog

open Store

variable {s s' : Store} {f : FinishCopy} {now : Instant} {x : StreamId}

/-! ## Sorting -/

namespace Position

theorem atMost_trans {p q r : Position} (hpq : p.atMost q = true) (hqr : q.atMost r = true) :
    p.atMost r = true :=
  Std.TransCmp.isLE_trans hpq hqr

theorem atMost_total (p q : Position) : (p.atMost q || q.atMost p) = true := isLE_total p q

theorem atMost_antisymm {p q : Position} (hpq : p.atMost q = true) (hqp : q.atMost p = true) :
    p = q :=
  Std.LawfulEqOrd.eq_of_compare (Std.OrientedCmp.isLE_antisymm hpq hqp)

/-- Positions are put in order in one way only. -/
theorem eq_of_perm {ps qs : List Position} (hps : ps.Pairwise fun p q => p.atMost q = true)
    (hqs : qs.Pairwise fun p q => p.atMost q = true) (hperm : ps.Perm qs) : ps = qs :=
  hperm.eq_of_pairwise (fun _ _ _ _ => atMost_antisymm) hps hqs

end Position

namespace FinishCopy

variable {rows : List SegmentRow} {keys : List SegmentKey} {ps qs : List Position} {p : Position}

theorem pairwise_sortedKeys (f : FinishCopy) :
    f.sortedKeys.Pairwise fun a b => a.position.atMost b.position = true :=
  List.pairwise_mergeSort
    (fun (a b c : SegmentKey) hab hbc =>
      Position.atMost_trans (p := a.position) (q := b.position) (r := c.position) hab hbc)
    (fun (a b : SegmentKey) => Position.atMost_total a.position b.position) f.newKeys

theorem perm_sortedKeys (f : FinishCopy) : f.sortedKeys.Perm f.newKeys := List.mergeSort_perm _ _

/-- The positions of keys in whatever order are the same when they are sorted. -/
theorem positions_sortedKeys_perm (hperm : keys.Perm f.newKeys) :
    ({ f with newKeys := keys } : FinishCopy).sortedKeys.map (·.position) =
      f.sortedKeys.map (·.position) := by
  refine Position.eq_of_perm ?_ ?_ ?_
  · exact List.pairwise_map.2 (pairwise_sortedKeys _)
  · exact List.pairwise_map.2 (pairwise_sortedKeys f)
  · exact ((perm_sortedKeys _).trans (hperm.trans (perm_sortedKeys f).symm)).map _

/-- **Keys for different positions are sorted in one way only.** -/
theorem sortedKeys_perm (hperm : keys.Perm f.newKeys)
    (hnodup : (f.sortedKeys.map (·.position)).Nodup) :
    ({ f with newKeys := keys } : FinishCopy).sortedKeys = f.sortedKeys := by
  have hsorted := (perm_sortedKeys { f with newKeys := keys }).trans
    (hperm.trans (perm_sortedKeys f).symm)
  refine hsorted.eq_of_pairwise (fun a b ha hb hab hba => ?_) (pairwise_sortedKeys _)
    (pairwise_sortedKeys f)
  exact List.inj_on_of_nodup_map hnodup (hsorted.mem_iff.1 ha) hb (Position.atMost_antisymm hab hba)

/-! ## Keys beside segments -/

/-- The first place that another position lies beside. -/
def unmatched? : List Position → List Position → Option Position
  | p :: ps, q :: qs => if p = q then unmatched? ps qs else some p
  | _, _ => none

theorem unmatched?_eq_none_iff (hlen : ps.length = qs.length) :
    unmatched? ps qs = none ↔ ps = qs := by
  induction ps generalizing qs with
  | nil =>
    obtain rfl := List.length_eq_zero_iff.1 hlen.symm
    exact iff_of_true rfl rfl
  | cons a ps ih =>
    cases qs with
    | nil => cases hlen
    | cons b qs =>
      rw [unmatched?, List.cons.injEq, ← ih (Nat.succ.inj hlen)]
      split
      · next heq => exact (and_iff_right heq).symm
      · next hne => exact iff_of_false (fun h => by cases h) fun h => hne h.1

/-- **Keys are taken in turn, up to the first place that has none.** -/
theorem pair_eq (rows : List SegmentRow) (keys : List SegmentKey) : pair rows keys =
    match unmatched? (rows.map (·.place)) (keys.map (·.position)) with
    | some p => .error (.rejected (.noKeysFor p))
    | none => .ok (rows.zip keys) := by
  induction rows generalizing keys with
  | nil => rfl
  | cons row rows ih =>
    cases keys with
    | nil => rfl
    | cons key keys =>
      rw [pair, List.map_cons, List.map_cons, unmatched?, ih]
      by_cases hplace : row.place = key.position
      · have hgood : decide (row.place ≠ key.position) = false := decide_eq_false (not_not.2 hplace)
        rw [hgood, if_pos hplace]
        cases unmatched? (rows.map (·.place)) (keys.map (·.position)) with
        | none => rfl
        | some p => rfl
      · have hbad : decide (row.place ≠ key.position) = true := decide_eq_true hplace
        rw [hbad, if_neg hplace]
        rfl

/-- What is said of keys for an object that has more segments than it says: it says their number in 32
bits. -/
def miscount (f : FinishCopy) (segments : Nat) : Error :=
  let said := (segments : Int).bmod 4294967296
  if (f.newKeys.length : Int) = said then .corrupted (.segmentCount f.source.stream said segments)
  else .rejected (.wrongKeyCount f.newKeys.length said)

end FinishCopy

/-! ## What is wrong with keys -/

namespace Store

/-- The positions of the segments of a stream, in order. -/
def placesOf (s : Store) (x : StreamId) : List Position := (s.segmentsOf x).map (·.place)

/-- A request for a copy that may be wrong in its keys only. -/
structure Copyable (s : Store) (f : FinishCopy) : Prop where
  checked : f.check = .ok ()
  source : ∃ o, s.objectOf? f.source .committed = some o ∧
    ∃ metadata, f.metadata o.metadata.stored? = .ok metadata
  fresh : s.Lacks f.newStream

theorem copyable_iff : s.Copyable f ↔ f.check.toOption.isSome = true ∧
    ((s.objectOf? f.source .committed).any fun o =>
      (f.metadata o.metadata.stored?).toOption.isSome) = true ∧
    s.Lacks f.newStream := by
  constructor
  · rintro ⟨hcheck, ⟨o, ho, metadata, hmetadata⟩, hfresh⟩
    have hgiven : (f.metadata o.metadata.stored?).toOption.isSome = true := by
      rw [hmetadata]
      rfl
    exact ⟨by rw [hcheck]; rfl, (Option.any_eq_true _ _).2 ⟨o, ho, hgiven⟩, hfresh⟩
  · rintro ⟨hcheck, hsource, hfresh⟩
    obtain ⟨u, hcheck⟩ := Except.exists_eq_ok hcheck
    obtain ⟨o, ho, hmetadata⟩ := (Option.any_eq_true _ _).1 hsource
    exact ⟨hcheck, ⟨o, ho, Except.exists_eq_ok hmetadata⟩, hfresh⟩

instance (s : Store) (f : FinishCopy) : Decidable (s.Copyable f) :=
  decidable_of_iff _ copyable_iff.symm

/-- What is wrong with the keys of a copy: there are not as many as segments, or a place has none. -/
def keyFault? (s : Store) (f : FinishCopy) : Option Rejection :=
  let places := s.placesOf f.source.stream
  if f.newKeys.length = places.length then
    (FinishCopy.unmatched? places (f.sortedKeys.map (·.position))).map .noKeysFor
  else some (.wrongKeyCount f.newKeys.length places.length)

theorem length_placesOf (s : Store) (x : StreamId) :
    (s.placesOf x).length = (s.segmentsOf x).length := List.length_map _

theorem Coherent.nodup_places (hs : s.Coherent) (x : StreamId) : (s.placesOf x).Nodup :=
  (hs.ascending_places x).nodup.map_on fun _ hr _ hk => (hs.ascending_places x).eq_of_key_eq hr hk

/-- Places and sorted keys agree just when the keys are for these places. -/
theorem Coherent.places_eq_iff (hs : s.Coherent) (f : FinishCopy) (x : StreamId) :
    s.placesOf x = f.sortedKeys.map (·.position) ↔
      (f.newKeys.map (·.position)).Perm (s.placesOf x) := by
  have hsorted := (f.perm_sortedKeys.map (·.position))
  constructor
  · intro heq
    rw [heq]
    exact hsorted.symm
  · intro hperm
    refine Position.eq_of_perm ?_ ?_ (hperm.symm.trans hsorted.symm)
    · refine List.pairwise_map.2 ((hs.ascending_places x).imp fun {r k} hlt => ?_)
      rw [Position.atMost, hlt]
      rfl
    · exact List.pairwise_map.2 f.pairwise_sortedKeys

/-- **Nothing is wrong with keys just when there is one for each position.** -/
theorem Coherent.keyFault?_eq_none_iff (hs : s.Coherent) (f : FinishCopy) :
    s.keyFault? f = none ↔ (f.newKeys.map (·.position)).Perm (s.placesOf f.source.stream) := by
  unfold keyFault?
  dsimp only
  split
  · next hlen =>
    have hsorted : f.sortedKeys.length = f.newKeys.length := f.perm_sortedKeys.length_eq
    rw [Option.map_eq_none_iff, FinishCopy.unmatched?_eq_none_iff (by simp [hsorted, hlen]),
      hs.places_eq_iff]
  · next hlen =>
    refine iff_of_false (fun h => by cases h) fun hperm => hlen ?_
    rw [← hperm.length_eq, List.length_map]

/-! ## What becomes of the request -/

variable {o : ObjectRow} {source object : Object} {metadata : Option Metadata}

/-- Rows whose keys are free are put in their places. -/
theorem addCopied_of_free {rows : List SegmentRow} (hnodup : (rows.map (·.id)).Nodup)
    (hfree : ∀ r ∈ rows, s.segments.find? r.id = none) : s.addCopied rows = .ok (s.putSegments rows) := by
  induction rows generalizing s with
  | nil => rfl
  | cons row rows ih =>
    obtain ⟨hnew, hnodup⟩ := List.nodup_cons.1 hnodup
    have hrow : s.segments.contains row.id = false := by
      rw [Table.contains, hfree row List.mem_cons_self]
      rfl
    rw [addCopied, hrow, if_neg Bool.false_ne_true]
    refine ih hnodup fun r hr => ?_
    have hne : row.id ≠ r.id := fun heq => hnew (List.mem_map.2 ⟨r, hr, heq.symm⟩)
    show (s.segments.insert row).find? r.id = none
    rw [Table.find?_insert, if_neg hne]
    exact hfree r (List.mem_cons_of_mem _ hr)

theorem exists_addRelation (row : CopyRow) (hnone : s.ancestorOf? row.stream = none) :
    ∃ s', s.addRelation row = .ok s' := by
  have hfree : s.copies.contains row.stream = false := by
    rw [Table.contains, Option.map_eq_none_iff.1 hnone]
    rfl
  rw [addRelation, hfree, if_neg Bool.false_ne_true]
  exact ⟨_, rfl⟩

theorem Coherent.require_readable (hs : s.Coherent) (x : StreamId) :
    SegmentRow.require .finishCopy SegmentRow.isReadable (s.segmentsOf x) = .ok () :=
  SegmentRow.require_of_forall (fun r hr => (hs.shaped r (mem_segmentsOf.1 hr).1).isReadable)
    .finishCopy

/-- The keys of a copy whose source has as many segments as it says. -/
theorem Coherent.copyKeys_eq (hs : s.Coherent) (f : FinishCopy) {count : Int}
    (hcount : ((s.segmentsOf f.source.stream).length : Int) = count) :
    s.copyKeys f count = FinishCopy.pair (s.segmentsOf f.source.stream) f.sortedKeys := by
  unfold copyKeys
  dsimp only
  rw [hs.require_readable, Except.ok_bind, if_neg (not_not.2 hcount)]

/-- The object that a request in order names can be read, and gives metadata to the copy. -/
theorem Copyable.exists_source (hf : s.Copyable f) (hl : s.Legible) : ∃ source metadata,
    s.copySource f.source = .ok source ∧ f.metadata source.metadata = .ok metadata := by
  obtain ⟨o, hfound, metadata, hmetadata⟩ := hf.source
  obtain ⟨ho, -, -, hcommitted⟩ := objectOf?_eq_some hfound
  have hread : o.view?.isSome = true := (hl.readable o ho).resolve_right fun hover =>
    ObjectRow.not_committed_of_pending hover.pending hcommitted
  obtain ⟨source, hview⟩ := Option.isSome_iff_exists.1 hread
  have hsource : o.view .fetchObject = .ok source := by
    rw [ObjectRow.view, hview]
    rfl
  have hsame : source.metadata = o.metadata.stored? := by
    obtain ⟨_, _, _, _, -, -, -, -, rfl⟩ := ObjectRow.view_eq_ok.1 hsource
    rfl
  refine ⟨source, metadata, ?_, hsame ▸ hmetadata⟩
  rw [copySource, hfound]
  exact hsource

/-- The object row of a copy can be read back if its key has room. -/
theorem Legible.exists_view_copy (hl : s.Legible) (hroom : s.HasRoom f.location) (now : Instant)
    (source : Object) (metadata : Option Metadata) : ∃ object,
      (f.objectRow now source metadata (s.nextVersion f.location)).view .finishCopy = .ok object := by
  obtain ⟨version, hversion⟩ := exists_int64_nextVersion hl.positive hroom
  exact ⟨_, ObjectRow.view_eq_ok.2 ⟨version, .committed, source.segmentCount,
    source.fixedSegmentSize, hversion, rfl, int32?_toInt _, int32?_toInt _, rfl⟩⟩

/-- Otherwise its version is too great. -/
theorem view_copy_of_full (hfull : ¬ s.HasRoom f.location) (now : Instant) (source : Object)
    (metadata : Option Metadata) :
    (f.objectRow now source metadata (s.nextVersion f.location)).view .finishCopy =
      .error (.storage .finishCopy) := by
  rw [nextVersion_of_full hfull]
  rfl

/-- Copies of the rows of a stream are added under a stream that has none. -/
theorem Lacks.exists_addCopied {y : StreamId} {pairs : List (SegmentRow × SegmentKey)}
    (hfresh : s.Lacks y) (hrows : pairs.map (·.1) = s.segmentsOf x) (now : Instant)
    (o : ObjectRow) : ∃ t : Store,
      (s.addObject o).addCopied (pairs.map fun q => q.1.copied now y q.2) = .ok t ∧
        t.copies = s.copies := by
  refine ⟨_, addCopied_of_free (nodup_ids_copied hrows now y) fun r hr => ?_, rfl⟩
  obtain ⟨q, -, rfl⟩ := List.mem_map.1 hr
  exact hfresh.row?_eq_none q.1.position

/-- **A copy whose segments have their keys is stored.** -/
theorem Copyable.exists_ok (hf : s.Copyable f) (hl : s.Legible) (hroom : s.HasRoom f.location)
    {pairs : List (SegmentRow × SegmentKey)} (hsource : s.copySource f.source = .ok source)
    (hmetadata : f.metadata source.metadata = .ok metadata)
    (hcount : (f.newKeys.length : Int) = source.segmentCount.toInt)
    (hpairs : s.copyKeys f source.segmentCount.toInt = .ok pairs)
    (hrows : pairs.map (·.1) = s.segmentsOf f.source.stream) (now : Instant) :
    ∃ object s', s.finishCopy now f = .ok (object, s') := by
  obtain ⟨object, hobject⟩ := hl.exists_view_copy hroom now source metadata
  obtain ⟨t, hadd, hcopies⟩ := hf.fresh.exists_addCopied hrows now
    (f.objectRow now source metadata (s.nextVersion f.location))
  have hgood : decide ((f.newKeys.length : Int) ≠ source.segmentCount.toInt) = false :=
    decide_eq_false (not_not.2 hcount)
  unfold finishCopy
  rw [hsource, Except.ok_bind]
  dsimp only
  rw [(reject_eq_ok (u := ())).2 hgood, Except.ok_bind, hmetadata, Except.ok_bind, hpairs,
    Except.ok_bind, hobject, Except.ok_bind, hadd, Except.ok_bind]
  split
  · exact ⟨object, t, rfl⟩
  · have hnone : t.ancestorOf? f.newStream = none := by
      rw [ancestorOf?, hcopies]
      exact hf.fresh.ancestorOf?_eq_none
    obtain ⟨s', hrelation⟩ := t.exists_addRelation ⟨f.newStream, _⟩ hnone
    exact ⟨object, s', Except.bind_eq_ok.2 ⟨s', hrelation, rfl⟩⟩

section

variable (hs : s.Coherent) (hl : s.Legible) (hb : s.Booked) (hf : s.Copyable f)
  (hfew : (s.placesOf f.source.stream).length < 2147483648)

include hs hl hb hf hfew

/-- **A request with wrong keys is rejected.** -/
theorem finishCopy_of_fault {why : Rejection} (hwhy : s.keyFault? f = some why) (now : Instant) :
    s.finishCopy now f = .error (.rejected why) := by
  obtain ⟨source, metadata, hsource, hmetadata⟩ := hf.exists_source hl
  rw [length_placesOf] at hfew
  have hcount := hb.count_eq hfew hsource
  unfold keyFault? at hwhy
  dsimp only at hwhy
  rw [length_placesOf] at hwhy
  unfold finishCopy
  rw [hsource, Except.ok_bind]
  dsimp only
  split at hwhy
  · next hkeys =>
    obtain ⟨p, hp, rfl⟩ := Option.map_eq_some_iff.1 hwhy
    have hgood : decide ((f.newKeys.length : Int) ≠ source.segmentCount.toInt) = false :=
      decide_eq_false (by omega)
    unfold placesOf at hp
    rw [(reject_eq_ok (u := ())).2 hgood, Except.ok_bind, hmetadata, Except.ok_bind,
      hs.copyKeys_eq f hcount, FinishCopy.pair_eq, hp]
    rfl
  · next hkeys =>
    cases hwhy
    have hbad : decide ((f.newKeys.length : Int) ≠ source.segmentCount.toInt) = true :=
      decide_eq_true (by omega)
    rw [reject_of_bad _ hbad, Except.error_bind, ← hcount]

/-- Keys for all positions pass every check, and go with the segments. -/
theorem exists_pairs (hperm : (f.newKeys.map (·.position)).Perm (s.placesOf f.source.stream)) :
    ∃ source metadata pairs, s.copySource f.source = .ok source ∧
      f.metadata source.metadata = .ok metadata ∧
      (f.newKeys.length : Int) = source.segmentCount.toInt ∧
      s.copyKeys f source.segmentCount.toInt = .ok pairs ∧
      pairs.map (·.1) = s.segmentsOf f.source.stream := by
  obtain ⟨source, metadata, hsource, hmetadata⟩ := hf.exists_source hl
  have hplaces := (hs.places_eq_iff f f.source.stream).2 hperm
  have hsorted : f.sortedKeys.length = f.newKeys.length := f.perm_sortedKeys.length_eq
  have hkeys : f.newKeys.length = (s.segmentsOf f.source.stream).length := by
    rw [← length_placesOf, ← hperm.length_eq, List.length_map]
  rw [length_placesOf] at hfew
  have hcount := hb.count_eq hfew hsource
  have hpairs : s.copyKeys f source.segmentCount.toInt =
      .ok ((s.segmentsOf f.source.stream).zip f.sortedKeys) := by
    unfold placesOf at hplaces
    rw [hs.copyKeys_eq f hcount, FinishCopy.pair_eq, hplaces,
      (FinishCopy.unmatched?_eq_none_iff rfl).2 rfl]
  exact ⟨source, metadata, _, hsource, hmetadata, by omega, hpairs, List.map_fst_zip (by omega)⟩

/-- **A request with nothing wrong succeeds,** if its key has room. -/
theorem finishCopy_of_perm (hperm : (f.newKeys.map (·.position)).Perm (s.placesOf f.source.stream))
    (hroom : s.HasRoom f.location) (now : Instant) :
    ∃ object s', s.finishCopy now f = .ok (object, s') := by
  obtain ⟨source, metadata, pairs, hsource, hmetadata, hcount, hpairs, hrows⟩ :=
    exists_pairs hs hl hb hf hfew hperm
  exact hf.exists_ok hl hroom hsource hmetadata hcount hpairs hrows now

/-- **Without room it fails,** once the keys were found to be right. -/
theorem finishCopy_of_full (hperm : (f.newKeys.map (·.position)).Perm (s.placesOf f.source.stream))
    (hfull : ¬ s.HasRoom f.location) (now : Instant) :
    s.finishCopy now f = .error (.storage .finishCopy) := by
  obtain ⟨source, metadata, pairs, hsource, hmetadata, hcount, hpairs, -⟩ :=
    exists_pairs hs hl hb hf hfew hperm
  have hgood : decide ((f.newKeys.length : Int) ≠ source.segmentCount.toInt) = false :=
    decide_eq_false (not_not.2 hcount)
  unfold finishCopy
  rw [hsource, Except.ok_bind]
  dsimp only
  rw [(reject_eq_ok (u := ())).2 hgood, Except.ok_bind, hmetadata, Except.ok_bind, hpairs,
    Except.ok_bind, view_copy_of_full hfull]
  rfl

end

/-- **No keys are right for more segments than 32 bits can count,** since the object says that it has
another number of them. -/
theorem finishCopy_of_many (hs : s.Coherent) (hl : s.Legible) (hb : s.Booked) (hf : s.Copyable f)
    (hmany : 2147483648 ≤ (s.placesOf f.source.stream).length) (now : Instant) :
    s.finishCopy now f = .error (f.miscount (s.placesOf f.source.stream).length) := by
  obtain ⟨source, metadata, hsource, hmetadata⟩ := hf.exists_source hl
  have hcount := hb.count_wraps hsource
  have hbound := source.segmentCount.toInt_lt
  rw [length_placesOf] at hmany ⊢
  unfold finishCopy FinishCopy.miscount
  rw [hsource, Except.ok_bind]
  dsimp only
  rw [← hcount]
  split
  · next hkeys =>
    -- then the segments are counted
    have hgood : decide ((f.newKeys.length : Int) ≠ source.segmentCount.toInt) = false :=
      decide_eq_false (not_not.2 hkeys)
    have hrows : ((s.segmentsOf f.source.stream).length : Int) ≠ source.segmentCount.toInt := by omega
    rw [(reject_eq_ok (u := ())).2 hgood, Except.ok_bind, hmetadata, Except.ok_bind]
    unfold copyKeys
    dsimp only
    rw [hs.require_readable, Except.ok_bind, if_pos hrows]
    rfl
  · next hkeys =>
    rw [reject_of_bad _ (decide_eq_true hkeys), Except.error_bind]

/-- Keys in another order go with the same segments, or fail at the same place. -/
theorem Coherent.copyKeys_perm (hs : s.Coherent) {keys : List SegmentKey}
    (hperm : keys.Perm f.newKeys) {count : Int} (hcount : (f.newKeys.length : Int) = count) :
    s.copyKeys { f with newKeys := keys } count = s.copyKeys f count := by
  by_cases hrows : ((s.segmentsOf f.source.stream).length : Int) = count
  · have hsorted : f.sortedKeys.length = f.newKeys.length := f.perm_sortedKeys.length_eq
    rw [hs.copyKeys_eq f hrows, hs.copyKeys_eq { f with newKeys := keys } hrows,
      FinishCopy.pair_eq, FinishCopy.pair_eq, FinishCopy.positions_sortedKeys_perm hperm]
    cases hfault : FinishCopy.unmatched? ((s.segmentsOf f.source.stream).map (·.place))
        (f.sortedKeys.map (·.position)) with
    | some p => rfl
    | none =>
      have hplaces := (FinishCopy.unmatched?_eq_none_iff (by
        rw [List.length_map, List.length_map]; omega)).1 hfault
      have hnodup := hs.nodup_places f.source.stream
      unfold placesOf at hnodup
      rw [FinishCopy.sortedKeys_perm hperm (hplaces ▸ hnodup)]
  · unfold copyKeys
    dsimp only
    rw [if_pos hrows, if_pos hrows]
    rfl

/-- **The order in which keys are handed in does not matter.** -/
theorem Coherent.finishCopy_perm (hs : s.Coherent) {keys : List SegmentKey}
    (hperm : keys.Perm f.newKeys) (now : Instant) :
    s.finishCopy now { f with newKeys := keys } = s.finishCopy now f := by
  unfold finishCopy
  dsimp only
  rw [hperm.length_eq]
  refine bind_congr fun source => ?_
  by_cases hcount : (f.newKeys.length : Int) = source.segmentCount.toInt
  · rw [hs.copyKeys_perm hperm hcount]
    rfl
  · have hbad : decide ((f.newKeys.length : Int) ≠ source.segmentCount.toInt) = true :=
      decide_eq_true hcount
    rw [reject_of_bad _ hbad]
    rfl

/-- The committed row that an object is read from. -/
theorem exists_row_of_view {l : Location} {statement : Statement} (ho : o ∈ s.objects.rows)
    (hcommitted : o.hasStatus .committed = true) (hl : o.location = l)
    (hview : o.view statement = .ok object) :
    ∃ o, s.objects.find? ⟨l, object.stream.version.toInt⟩ = some o ∧
      o.hasStatus .committed = true ∧ o.view? = some object := by
  obtain ⟨-, hversion, -, -⟩ := ObjectRow.of_view hview
  rw [hversion, ← hl]
  exact ⟨o, Table.find?_eq_some_iff.2 ⟨ho, rfl⟩, hcommitted, ObjectRow.view_eq_ok_iff.1 hview⟩

theorem exists_row_of_exact {l : Location} {version : Int64}
    (h : s.exactCommitted l version = .ok object) :
    ∃ o, s.objects.find? ⟨l, object.stream.version.toInt⟩ = some o ∧
      o.hasStatus .committed = true ∧ o.view? = some object := by
  unfold exactCommitted at h
  split at h
  · cases h
  · next o ho =>
    obtain ⟨hfind, hcommitted⟩ := Option.filter_eq_some_iff.1 ho
    obtain ⟨hmem, hid⟩ := Table.find?_eq_some_iff.1 hfind
    exact exists_row_of_view hmem hcommitted (congrArg ObjectId.location hid) h

theorem exists_row_of_latest {l : Location} (h : s.latestCommitted l = .ok object) :
    ∃ o, s.objects.find? ⟨l, object.stream.version.toInt⟩ = some o ∧
      o.hasStatus .committed = true ∧ o.view? = some object := by
  unfold latestCommitted at h
  split at h
  · cases h
  · next o ho =>
    obtain ⟨hversions, hcommitted⟩ := List.mem_filter.1 (List.mem_of_getLast? ho)
    obtain ⟨hmem, hl⟩ := mem_versionsOf.1 hversions
    exact exists_row_of_view hmem hcommitted hl h

/-- Streams with the same slices have segments at the same positions. -/
theorem placesOf_congr {y : StreamId}
    (h : (s'.segmentsOf y).map SegmentRow.slice = (s.segmentsOf x).map SegmentRow.slice) :
    s'.placesOf y = s.placesOf x := by
  have hplace := congrArg (List.map fun v : Slice => Position.ofColumn v.position) h
  rw [List.map_map, List.map_map] at hplace
  exact hplace

namespace Copied

variable {pairs : List (SegmentRow × SegmentKey)}
  (h : s.Copied now f o source metadata pairs object s')

include h

/-- **A copy that succeeds was given one key for each position,** and not too many for a 32-bit count. -/
theorem perm_keys : (f.newKeys.map (·.position)).Perm (s.placesOf f.source.stream) ∧
    (s.placesOf f.source.stream).length < 2147483648 := by
  have hplaces : s.placesOf f.source.stream = f.sortedKeys.map (·.position) := by
    rw [placesOf, ← h.rows, ← h.keys, List.map_map, List.map_map]
    exact List.map_congr_left h.places
  have hsorted : f.sortedKeys.length = f.newKeys.length := f.perm_sortedKeys.length_eq
  have hcount := h.count
  have hbound := source.segmentCount.toInt_lt
  rw [hplaces, List.length_map]
  exact ⟨(f.perm_sortedKeys.map _).symm, by omega⟩

/-- **Each position gets the key that was given for it.** -/
theorem segment_new (hs : s.Coherent) (hfresh : s.Lacks f.newStream) {key : SegmentKey}
    (hkey : key ∈ f.newKeys) : ∃ r, s.segment? f.source.stream key.position = some r ∧
      s'.segment? f.newStream key.position = some (r.copied now f.newStream key) := by
  have hmem : key ∈ pairs.map (·.2) := by
    rw [h.keys]
    exact f.perm_sortedKeys.mem_iff.2 hkey
  obtain ⟨q, hq, rfl⟩ := List.mem_map.1 hmem
  have hrow := mem_segmentsOf_iff_row?.1 (h.mem_source hq)
  have hshaped := hs.shaped _ (mem_segmentsOf.1 (h.mem_source hq)).1
  have hcolumn : q.2.position.column = q.1.position := by
    rw [← h.places q hq, hshaped.position_eq]
  obtain ⟨c, hc, q', hq', hsame, rfl⟩ := (h.row?_new hfresh q.1.position).exists_left hrow
  -- only one of the keys is for this position
  have hposition : q.2.position = q'.2.position := by
    rw [← h.places q hq, ← h.places q' hq', hsame]
  rw [← (h.key_unique hs hq').2 q.2 hkey hposition] at hc
  refine ⟨q.1, ?_, ?_⟩
  · rw [segment?_eq, hcolumn, hrow]
  · rw [segment?_eq, hcolumn, hc]

end Copied

end Store

/-! ## Calls -/

namespace Catalog

variable {c : Catalog}

/-- **The order in which keys are handed in does not matter.** -/
theorem run_finishCopy_perm (hstore : c.store = some s) (hs : s.Coherent) {keys : List SegmentKey}
    (hperm : keys.Perm f.newKeys) (now : Instant) :
    c.run (finishCopy now { f with newKeys := keys }) = c.run (finishCopy now f) := by
  have hcheck : FinishCopy.check { f with newKeys := keys } = f.check := rfl
  unfold finishCopy
  rw [run_lift_bind, run_lift_bind, hcheck]
  cases f.check with
  | error e => rfl
  | ok u =>
    dsimp only
    rw [run_tables_bind hstore, run_tables_bind hstore, hs.finishCopy_perm hperm]

/-- **A request in order but for its keys succeeds just when there is one key for each position,** and
there is room for the copy. -/
theorem finishCopy_ok_iff (hstore : c.store = some s) (hs : s.Coherent) (hl : s.Legible)
    (hb : s.Booked) (hf : s.Copyable f) (now : Instant) :
    (∃ object, (c.run (finishCopy now f)).1 = .ok object) ↔
      (f.newKeys.map (·.position)).Perm (s.placesOf f.source.stream) ∧
        (s.placesOf f.source.stream).length < 2147483648 ∧ s.HasRoom f.location := by
  constructor
  · rintro ⟨object, hok⟩
    obtain ⟨-, s', hcopy, -⟩ := finishCopy_of_ok hstore hok
    obtain ⟨_, _, _, _, hcopied⟩ := copied_of_ok hcopy
    obtain ⟨hperm, hfew⟩ := hcopied.perm_keys
    exact ⟨hperm, hfew, hasRoom_of_int64? (ObjectRow.version_of_view hcopied.object_view)⟩
  · rintro ⟨hperm, hfew, hroom⟩
    obtain ⟨object, s', hcopy⟩ := finishCopy_of_perm hs hl hb hf hfew hperm hroom now
    rw [run_finishCopy hstore hf.checked, hcopy]
    exact ⟨object, rfl⟩

/-- What a client is told that prepares a copy is what a committed row is read as. -/
theorem beginCopy_reads (hstore : c.store = some s) {b : BeginCopy} {source : CopySource}
    (hok : (c.run (beginCopy b)).1 = .ok source) :
    ∃ o object, s.objects.find? ⟨b.location, source.version.toInt⟩ = some o ∧
      o.hasStatus .committed = true ∧ o.view? = some object ∧
      source = ⟨object.stream.stream, object.stream.version, object.metadata, object.encryption,
        (s.segmentsOf object.stream.stream).map fun row => ⟨row.place, row.keyNonce, row.key⟩⟩ := by
  unfold beginCopy at hok
  obtain ⟨_, -, hok⟩ := run_lift_bind_eq_ok.1 hok
  obtain ⟨-, hok⟩ := run_reject_bind_eq_ok.1 hok
  cases hversion : b.version with
  | some version =>
    rw [hversion] at hok
    dsimp only at hok
    rw [run_tables_bind hstore] at hok
    obtain ⟨object, hobject, hok⟩ := run_lift_bind_eq_ok.1 hok
    cases hok
    obtain ⟨o, hfind, hcommitted, hview⟩ := exists_row_of_exact hobject
    exact ⟨o, object, hfind, hcommitted, hview, rfl⟩
  | none =>
    rw [hversion] at hok
    dsimp only at hok
    rw [run_tables_bind hstore] at hok
    obtain ⟨object, hobject, hok⟩ := run_lift_bind_eq_ok.1 hok
    cases hok
    obtain ⟨o, hfind, hcommitted, hview⟩ := exists_row_of_latest hobject
    exact ⟨o, object, hfind, hcommitted, hview, rfl⟩

/-- In particular the object is a committed one, and the positions are those of its segments. -/
theorem beginCopy_of_ok (hstore : c.store = some s) {b : BeginCopy} {source : CopySource}
    (hok : (c.run (beginCopy b)).1 = .ok source) :
    (∃ o, s.objects.find? ⟨b.location, source.version.toInt⟩ = some o ∧
      o.hasStatus .committed = true ∧ o.stream = source.stream) ∧
    source.keys.map (·.position) = s.placesOf source.stream := by
  obtain ⟨o, object, hfind, hcommitted, hview, hsource⟩ := beginCopy_reads hstore hok
  have hread : o.view .fetchObject = .ok object := ObjectRow.view_eq_ok_iff.2 hview
  obtain ⟨-, -, hstream, -⟩ := ObjectRow.of_view hread
  refine ⟨⟨o, hfind, hcommitted, ?_⟩, ?_⟩
  · rw [hsource, hstream]
  · rw [hsource]
    exact List.map_map

end Catalog

namespace Site

variable {σ : Site} {h : Handle} {o : ObjectRow} {k : ObjectId} {events : List Event}

/-- **A committed object that stays keeps the slices of its segments.** -/
theorem Reachable.slices_run (hσ : σ.Reachable Lacks) (hs : σ.store = some s)
    (hrow : σ.object? k = some o) (hcommitted : o.hasStatus .committed = true)
    (hadmits : AdmitsAll Lacks σ events)
    (hstays : ∀ before, before <+: events → ((σ.run before).object? k).isSome = true) :
    ∃ s', (σ.run events).store = some s' ∧
      (s'.segmentsOf o.stream).map SegmentRow.slice = (s.segmentsOf o.stream).map SegmentRow.slice := by
  induction events generalizing σ s o with
  | nil => exact ⟨s, hs, rfl⟩
  | cons e rest ih =>
    have hstands := hσ.stands_of_store hs
    obtain ⟨s₁, hstands₁, hmove⟩ := hstands.step hadmits.1
    have hturns := hstands.turns e k
    rw [hrow] at hturns
    have hnext : ((σ.step e).object? k).isSome = true :=
      hstays [e] (List.cons_prefix_cons.2 ⟨rfl, List.nil_prefix⟩)
    obtain ⟨parts, hparts⟩ := hturns.committed_after hcommitted hnext
    have hrow₁ := hparts
    rw [hstands.object?_eq] at hrow
    rw [hstands₁.object?_eq] at hrow₁
    have hslices := (hmove.keeps (fun s => (s.segmentsOf o.stream).map SegmentRow.slice)
      Change.slices_eq (hσ.coherent hs) ⟨o, (Table.find?_eq_some_iff.1 hrow).1, rfl, hcommitted⟩
      ⟨_, (Table.find?_eq_some_iff.1 hrow₁).1, rfl⟩).1
    -- from here on the row is the one with the metadata that this event has left
    obtain ⟨s', hs', hrest⟩ := ih (hσ.step hadmits.1) hstands₁.store hparts hcommitted hadmits.2
      fun before hprefix => hstays (e :: before) (List.cons_prefix_cons.2 ⟨rfl, hprefix⟩)
    exact ⟨s', hs', hrest.trans hslices⟩

/-- **The keys of a copy at a reachable site.** A request in order but for its keys succeeds just when
there is one key for each position of the source, these are not too many for a 32-bit count, and the
copy gets a version of 64 bits. Wrong keys are rejected for what is wrong with them, and right ones
without a version are refused by the storage. No keys are right for too many positions: the object says
that it has another number of segments, and that is what they are refused for. A request that fails changes nothing. The copy has segments at the positions
of the source, each under the key that was given for it, and the order of the keys makes no difference
to any request. The positions that a client is told when it prepares a copy are those of the source
after any run in which the object stays, so that keys for them are taken. -/
theorem Reachable.copy_keys_exact (hσ : σ.Reachable Lacks) (hs : σ.store = some s)
    (hh : h ∈ σ.handles) :
    (∀ now f, s.Copyable f →
      ((∃ object, ((σ.catalog h).run (Catalog.finishCopy now f)).1 = .ok object) ↔
        (f.newKeys.map (·.position)).Perm (s.placesOf f.source.stream) ∧
          (s.placesOf f.source.stream).length < 2147483648 ∧ s.HasRoom f.location) ∧
      ((s.placesOf f.source.stream).length < 2147483648 →
        ¬ (f.newKeys.map (·.position)).Perm (s.placesOf f.source.stream) →
          ∃ why, s.keyFault? f = some why ∧ (σ.catalog h).run (Catalog.finishCopy now f) =
            (.error (.rejected why), σ.catalog h)) ∧
      ((s.placesOf f.source.stream).length < 2147483648 →
        (f.newKeys.map (·.position)).Perm (s.placesOf f.source.stream) → ¬ s.HasRoom f.location →
          (σ.catalog h).run (Catalog.finishCopy now f) =
            (.error (.storage .finishCopy), σ.catalog h)) ∧
      (2147483648 ≤ (s.placesOf f.source.stream).length →
        (σ.catalog h).run (Catalog.finishCopy now f) =
          (.error (f.miscount (s.placesOf f.source.stream).length), σ.catalog h)) ∧
      ∀ object, ((σ.catalog h).run (Catalog.finishCopy now f)).1 = .ok object →
        ∃ s', ((σ.catalog h).run (Catalog.finishCopy now f)).2.store = some s' ∧
          s'.placesOf f.newStream = s.placesOf f.source.stream ∧
          ∀ key ∈ f.newKeys, ∃ r, s.segment? f.source.stream key.position = some r ∧
            s'.segment? f.newStream key.position = some (r.copied now f.newStream key)) ∧
    (∀ now (f : FinishCopy) keys, keys.Perm f.newKeys →
      (σ.catalog h).run (Catalog.finishCopy now { f with newKeys := keys }) =
        (σ.catalog h).run (Catalog.finishCopy now f)) ∧
    ∀ b source events, ((σ.catalog h).run (Catalog.beginCopy b)).1 = .ok source →
      AdmitsAll Lacks σ events →
      (∀ before, before <+: events →
        ((σ.run before).object? ⟨b.location, source.version.toInt⟩).isSome = true) →
      ∃ s', (σ.run events).store = some s' ∧
        s'.placesOf source.stream = source.keys.map (·.position) ∧
        ∀ now f, ∀ h' ∈ (σ.run events).handles, s'.Copyable f → f.source.stream = source.stream →
          (f.newKeys.map (·.position)).Perm (source.keys.map (·.position)) →
          f.newKeys.length < 2147483648 → s'.HasRoom f.location →
            ∃ object, (((σ.run events).catalog h').run (Catalog.finishCopy now f)).1 = .ok object := by
  have hstands := hσ.stands_of_store hs
  have hstore := (hstands.open hh).store
  have hcoherent := hσ.coherent hs
  have hlegible := hσ.legible hs
  have hbooked := hσ.booked hs
  refine ⟨fun now f hf => ⟨?_, fun hfew hwrong => ?_, fun hfew hperm hfull => ?_, fun hmany => ?_,
      fun object hok => ?_⟩,
    fun now f keys hperm => ?_, fun b source events hok hadmits hstays => ?_⟩
  · exact Catalog.finishCopy_ok_iff hstore hcoherent hlegible hbooked hf now
  · cases hwhy : s.keyFault? f with
    | none => exact absurd ((hcoherent.keyFault?_eq_none_iff f).1 hwhy) hwrong
    | some why =>
      refine ⟨why, rfl, ?_⟩
      rw [Catalog.run_finishCopy hstore hf.checked,
        finishCopy_of_fault hcoherent hlegible hbooked hf hfew hwhy now]
  · rw [Catalog.run_finishCopy hstore hf.checked,
      finishCopy_of_full hcoherent hlegible hbooked hf hfew hperm hfull now]
  · rw [Catalog.run_finishCopy hstore hf.checked,
      finishCopy_of_many hcoherent hlegible hbooked hf hmany now]
  · obtain ⟨-, s₁, hcopy, hleft⟩ := Catalog.finishCopy_of_ok hstore hok
    obtain ⟨_, _, _, _, hcopied⟩ := copied_of_ok hcopy
    exact ⟨s₁, hleft, placesOf_congr (hcopied.slices_new hf.fresh),
      fun key hkey => hcopied.segment_new hcoherent hf.fresh hkey⟩
  · exact Catalog.run_finishCopy_perm hstore hcoherent hperm now
  · obtain ⟨⟨o, hfind, hcommitted, hstream⟩, hkeys⟩ := Catalog.beginCopy_of_ok hstore hok
    have hrow : σ.object? ⟨b.location, source.version.toInt⟩ = some o := by
      rw [hstands.object?_eq, hfind]
    obtain ⟨s₁, hs₁, hslices⟩ := hσ.slices_run hs hrow hcommitted hadmits hstays
    have hplaces : s₁.placesOf source.stream = source.keys.map (·.position) := by
      rw [hkeys, ← hstream]
      exact placesOf_congr hslices
    refine ⟨s₁, hs₁, hplaces, fun now f h' hh' hf hsource hperm hfew hroom => ?_⟩
    have hσ₁ := hσ.run hadmits
    refine (Catalog.finishCopy_ok_iff hs₁ (hσ₁.coherent hs₁) (hσ₁.legible hs₁) (hσ₁.booked hs₁) hf
      now).2 ?_
    rw [hsource, hplaces]
    refine ⟨hperm, ?_, hroom⟩
    rw [← hperm.length_eq, List.length_map]
    exact hfew

end Site

/-! ### Keys in another order, and keys that come late -/

namespace Sample

/-- A copy of the upload of three segments, with keys for the given indexes. -/
def copyWith (indexes : List UInt32) : FinishCopy :=
  { copyOf (identity 4 4) (identity 5 5) with
    newKeys := indexes.map fun i => ⟨⟨0, i⟩, [1], [2]⟩ }

/-- The copy of an object whose ancestor is deleted after the keys were prepared. -/
def late : FinishCopy := copyOf (identity 2 2) (identity 5 5)

end Sample

/-- Keys in another order are taken and two keys for one position are not. Keys for the first copy of an
object are taken when the object was deleted in between. -/
theorem Sample.copy_keys_shelf :
    (∃ h ∈ shelf.handles,
      (∃ object, ((shelf.catalog h).run (Catalog.finishCopy moment (copyWith [2, 0, 1]))).1 =
        .ok object) ∧
      ∃ why, (shelf.catalog h).run (Catalog.finishCopy moment (copyWith [0, 1, 0])) =
        (.error (.rejected why), shelf.catalog h)) ∧
    ∃ h ∈ site.handles, ∃ source,
      ((site.catalog h).run (Catalog.beginCopy ⟨(identity 2 2).location, some 1⟩)).1 = .ok source ∧
      ∃ h' ∈ (site.run [deletion]).handles, ∃ object,
        (((site.run [deletion]).catalog h').run (Catalog.finishCopy moment late)).1 = .ok object := by
  constructor
  · obtain ⟨s, hstands⟩ := reachable_shelf.stands
    have hh := List.mem_of_getElem? (getElem?_handles (σ := shelf) (by decide +kernel))
    have hplaces : shelf.store.map (·.placesOf (.ofNat 4)) = some [⟨0, 0⟩, ⟨0, 1⟩, ⟨0, 2⟩] := by
      decide +kernel
    have hcopyable : shelf.store.all (fun s =>
        decide (s.Copyable (copyWith [2, 0, 1]) ∧ s.Copyable (copyWith [0, 1, 0]) ∧
          s.HasRoom (copyWith [2, 0, 1]).location)) = true := by
      decide +kernel
    rw [hstands.store, Option.map_some, Option.some.injEq] at hplaces
    rw [hstands.store, Option.all_some, decide_eq_true_eq] at hcopyable
    obtain ⟨hcopies, -, -⟩ := Site.Reachable.copy_keys_exact reachable_shelf hstands.store hh
    obtain ⟨htaken, -, -⟩ := hcopies moment (copyWith [2, 0, 1]) hcopyable.1
    obtain ⟨-, hrejected, -⟩ := hcopies moment (copyWith [0, 1, 0]) hcopyable.2.1
    have hsource : ∀ indexes, (copyWith indexes).source.stream = .ofNat 4 := fun _ => rfl
    rw [hsource, hplaces] at htaken hrejected
    obtain ⟨why, -, hrun⟩ := hrejected (by decide) (by decide)
    exact ⟨_, hh, htaken.2 ⟨by decide, by decide, hcopyable.2.2⟩, why, hrun⟩
  · obtain ⟨s, hstands⟩ := reachable_site.stands
    have hh := List.mem_of_getElem? (getElem?_handles (σ := site) (by decide +kernel))
    have hh' := List.mem_of_getElem? (getElem?_handles (σ := site.run [deletion]) (by decide +kernel))
    have htold : ((site.catalog (handleOf site)).run
        (Catalog.beginCopy ⟨(identity 2 2).location, some 1⟩)).1.toOption.map (fun source =>
          (source.stream, source.version, source.keys.map (·.position))) =
            some (.ofNat 2, 1, [⟨0, 0⟩]) := by decide +kernel
    have hcopyable : (site.run [deletion]).store.all (fun s =>
        decide (s.Copyable late ∧ s.HasRoom late.location)) = true := by
      decide +kernel
    have hstays : ∀ before ∈ [deletion].inits,
        ((site.run before).object? ⟨(identity 2 2).location, 1⟩).isSome = true := by decide +kernel
    obtain ⟨source, hok, htold⟩ := Except.exists_of_map_toOption htold
    obtain ⟨hstream, hversion, hkeys⟩ : source.stream = .ofNat 2 ∧ source.version = 1 ∧
        source.keys.map (·.position) = [⟨0, 0⟩] := by simpa using htold
    obtain ⟨-, -, hlate⟩ := Site.Reachable.copy_keys_exact reachable_site hstands.store hh
    obtain ⟨s', hs', -, htaken⟩ := hlate _ source [deletion] hok (by decide +kernel) fun before hb => by
      rw [hversion]
      exact hstays before ((List.mem_inits _ _).2 hb)
    rw [hs', Option.all_some, decide_eq_true_eq] at hcopyable
    refine ⟨_, hh, source, hok, _, hh', htaken moment late _ hh' hcopyable.1 hstream.symm ?_
      (by decide) hcopyable.2⟩
    rw [hkeys]
    decide

/-! ### Right keys that are refused -/

namespace Sample

/-- The copy of the upload that was started, with keys for a number of segments. -/
def copyOfMany (n : Nat) : FinishCopy :=
  { copyOf (identity 1 1) (identity 2 2) with
    newKeys := (List.range n).map fun i => ⟨.along i, [1], [2]⟩
    overrideMetadata := true }

theorem positions_copyOfMany (n : Nat) :
    (copyOfMany n).newKeys.map (·.position) = (List.range n).map Position.along := List.map_map

theorem miscount_copyOfMany {n : Nat} (hmany : 2147483648 ≤ n) :
    (copyOfMany n).miscount n = .rejected (.wrongKeyCount n ((n : Int).bmod 4294967296)) := by
  have hkeys : (copyOfMany n).newKeys.length = n := by
    rw [← List.length_map, positions_copyOfMany, List.length_map, List.length_range]
  have hnot : ¬ (n : Int) = (n : Int).bmod 4294967296 := by
    rw [Int.bmod_def]
    omega
  unfold FinishCopy.miscount
  rw [hkeys]
  exact if_neg hnot

/-- **No object with more segments than 32 bits can count is copied,** though there is a key for each of
them and room for the copy. -/
theorem refused_for_count {n : Nat} (hmany : 2147483648 ≤ n) (hn : n ≤ 4294967296) :
    ∃ σ : Site, σ.Reachable Lacks ∧ ∃ s, σ.store = some s ∧ ∃ h ∈ σ.handles,
      s.Copyable (copyOfMany n) ∧ s.HasRoom (copyOfMany n).location ∧
      ((copyOfMany n).newKeys.map (·.position)).Perm (s.placesOf (copyOfMany n).source.stream) ∧
      (σ.catalog h).run (Catalog.finishCopy moment (copyOfMany n)) =
        (.error (.rejected (.wrongKeyCount n ((n : Int).bmod 4294967296))), σ.catalog h) := by
  obtain ⟨s, hstands⟩ := reachable_started.stands
  have hget : started.handles[0]? = some (handleOf started) := getElem?_handles (by decide +kernel)
  have hfacts : started.store.all (fun s => decide ((s.segmentsOf (.ofNat 1)).length = 0 ∧
      s.Lacks (.ofNat 2) ∧ s.HasRoom (identity 2 2).location ∧
      ∃ o ∈ s.objects.rows, o.isOf (identity 1 1) = true ∧ o.hasStatus .pending = true)) = true := by
    decide +kernel
  rw [hstands.store, Option.all_some, decide_eq_true_eq] at hfacts
  obtain ⟨hnone, hlacks, hroom, o, ho, hof, hpending⟩ := hfacts
  obtain ⟨σ, hσ, hhandles, s', hs, hplaces, huploads⟩ :=
    reachable_started.long_upload hstands.store hget (by decide +kernel) (by decide +kernel) ho hof
      hpending (List.length_eq_zero_iff.1 hnone) hn moment
  obtain ⟨row, hsource⟩ := huploads.exists_committed
  have hstream : (identity 2 2).stream ≠ (identity 1 1).stream := by decide
  have hlocation : (identity 2 2).location ≠ (identity 1 1).location := by decide
  have hcopyable : s'.Copyable (copyOfMany n) :=
    ⟨rfl, ⟨row, hsource, none, rfl⟩, huploads.lacks hstream hlacks⟩
  have hperm : ((copyOfMany n).newKeys.map (·.position)).Perm
      (s'.placesOf (copyOfMany n).source.stream) := by
    rw [positions_copyOfMany, ← hplaces]
    exact .refl _
  have hlength : (s'.placesOf (copyOfMany n).source.stream).length = n := by
    rw [← hperm.length_eq, positions_copyOfMany, List.length_map, List.length_range]
  have hh : handleOf started ∈ σ.handles := hhandles ▸ List.mem_of_getElem? hget
  refine ⟨σ, hσ, s', hs, _, hh, hcopyable, huploads.hasRoom hlocation hroom, hperm, ?_⟩
  rw [Catalog.run_finishCopy ((hσ.stands_of_store hs).open hh).store hcopyable.checked,
    finishCopy_of_many (hσ.coherent hs) (hσ.legible hs) (hσ.booked hs) hcopyable (hlength ▸ hmany),
    hlength, miscount_copyOfMany hmany]

/-- The event that takes the greatest version of the key that a copy is for. -/
def topping : Event :=
  .call 0 moment (begin { identity 5 6 with version := Int64.maxValue })

end Sample

/-- Keys for the positions that a client was told are refused after the greatest version of the key was
given to an upload. Keys for all segments of an object are refused when they are more than 32 bits can
count. -/
theorem Sample.right_keys_refused :
    (site.Reachable Lacks ∧ ∃ h ∈ site.handles, ∃ source,
      ((site.catalog h).run (Catalog.beginCopy ⟨(identity 2 2).location, some 1⟩)).1 = .ok source ∧
      source.keys.map (·.position) = late.newKeys.map (·.position) ∧
      Site.AdmitsAll Lacks site [topping] ∧ (site.run [topping]).object? ⟨(identity 2 2).location, 1⟩ =
        site.object? ⟨(identity 2 2).location, 1⟩ ∧
      (site.run [topping]).store.all (fun s => decide (s.Copyable late)) = true ∧
      ∃ h' ∈ (site.run [topping]).handles,
        (((site.run [topping]).catalog h').run (Catalog.finishCopy moment late)).1 =
          .error (.storage .finishCopy)) ∧
    ∃ σ : Site, σ.Reachable Lacks ∧ ∃ s, σ.store = some s ∧ ∃ h ∈ σ.handles, ∃ f, s.Copyable f ∧
      s.HasRoom f.location ∧ (f.newKeys.map (·.position)).Perm (s.placesOf f.source.stream) ∧
      (σ.catalog h).run (Catalog.finishCopy moment f) =
        (.error (.rejected (.wrongKeyCount 2147483648 (-2147483648))), σ.catalog h) := by
  constructor
  · have htold : ∃ h ∈ site.handles,
        ((site.catalog h).run (Catalog.beginCopy ⟨(identity 2 2).location, some 1⟩)).1.toOption.map
          (fun source => source.keys.map (·.position)) =
            some (late.newKeys.map (·.position)) := by decide +kernel
    obtain ⟨h, hh, htold⟩ := htold
    obtain ⟨source, hok, hkeys⟩ := Except.exists_of_map_toOption htold
    have hrefused : ∃ h' ∈ (site.run [topping]).handles,
        ((site.run [topping]).catalog h').failure? (Catalog.finishCopy moment late) =
          some (.storage .finishCopy) := by decide +kernel
    obtain ⟨h', hh', hfail⟩ := hrefused
    exact ⟨reachable_site, h, hh, source, hok, hkeys, by decide +kernel, by decide +kernel,
      by decide +kernel, h', hh', Catalog.failure?_eq_some.1 hfail⟩
  · obtain ⟨σ, hσ, s, hs, h, hh, hcopyable, hroom, hperm, hrun⟩ :=
      refused_for_count (Nat.le_refl 2147483648) (by decide)
    exact ⟨σ, hσ, s, hs, h, hh, _, hcopyable, hroom, hperm, hrun⟩

end ObjectCatalog
