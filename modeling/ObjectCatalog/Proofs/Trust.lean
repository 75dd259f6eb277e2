import ObjectCatalog.Proofs.Sizes

/-!
# Checks that trust the tables

A failure says that the tables are corrupt when a segment in need has no ancestor, when an alias has
no node, when a blob is no piece list, or when an object has more or fewer segments than it says.
All but the last are about reads through the cache of aliases. What is checked before and beside such
reads never takes the tables for corrupt, if the numbers of objects are right.

* `Error.isCorruption`, `Trusts`: checks that never take the tables for corrupt.
* `Store.Booked.count_eq`, `trusts_finishCopy`: **a copy finds as many segments as its source says.**
* `trusts_drainListing`, `trusts_drainPending`, `trusts_drainObjects`: listings and scans of objects.
-/

namespace ObjectCatalog

/-- Whether a failure says that the tables are corrupt. -/
def Error.isCorruption : Error → Bool
  | .corrupted _ => true
  | _ => false

/-! ## Checks -/

section Checks

variable {α β : Type}

/-- A check that never takes the tables for corrupt. -/
def Trusts (x : Except Error α) : Prop := ∀ e, x = .error e → e.isCorruption = false

theorem trusts_pure (v : α) : Trusts (pure v : Except Error α) := fun _ h => by cases h

theorem trusts_throw {e : Error} (he : e.isCorruption = false) : Trusts (throw e : Except Error α) := by
  intro e' h
  cases h
  exact he

theorem Trusts.bind {x : Except Error α} {f : α → Except Error β} (hx : Trusts x)
    (hf : ∀ v, x = .ok v → Trusts (f v)) : Trusts (x >>= f) := by
  cases x with
  | error e => exact trusts_throw (hx e rfl)
  | ok v => exact hf v rfl

theorem trusts_reject (bad : Bool) (why : Rejection) :
    Trusts (reject bad why : Except Error Unit) := by
  cases bad with
  | true => exact trusts_throw rfl
  | false => exact trusts_pure ()

theorem trusts_reject_bind {bad : Bool} {why : Rejection} {f : Unit → Except Error β}
    (hf : Trusts (f ())) : Trusts (reject bad why >>= f) :=
  (trusts_reject bad why).bind fun _ _ => hf

theorem trusts_mapM {f : α → Except Error β} {l : List α} (h : ∀ x ∈ l, Trusts (f x)) :
    Trusts (l.mapM f) := by
  induction l with
  | nil => exact trusts_pure []
  | cons x rest ih =>
    rw [List.mapM_cons]
    refine (h x List.mem_cons_self).bind fun y _ => ?_
    exact (ih fun z hz => h z (List.mem_cons_of_mem _ hz)).bind fun ys _ => trusts_pure _

/-! ### What requests are checked for -/

theorem trusts_location (l : Location) : Trusts l.check :=
  trusts_reject_bind (trusts_reject_bind (trusts_reject _ _))

theorem trusts_stream (o : ObjectStream) : Trusts o.check :=
  (trusts_location _).bind fun _ _ => trusts_reject_bind (trusts_reject _ _)

theorem trusts_metadata (m : MetadataParts) : Trusts m.check := by
  unfold MetadataParts.check
  split
  · exact trusts_pure _
  · exact trusts_pure _
  · exact trusts_throw rfl
  · exact trusts_throw rfl

theorem trusts_pieces (pieces : List Piece) : Trusts (Piece.checkAll pieces) := by
  -- each piece is checked against the one before it, whatever that is
  have hafter : ∀ (previous : Option UInt16), Trusts (Piece.checkAfter previous pieces) := by
    induction pieces with
    | nil => exact fun _ => trusts_pure ()
    | cons p rest ih =>
      intro previous
      rw [Piece.checkAfter]
      exact trusts_reject_bind (trusts_reject_bind (trusts_reject_bind (ih (some p.number))))
  exact trusts_reject_bind (hafter none)

theorem trusts_begin (r : BeginObject) : Trusts r.check :=
  (trusts_stream _).bind fun _ _ => trusts_reject_bind (trusts_metadata _)

theorem trusts_beginSegment (r : BeginSegment) : Trusts r.check :=
  (trusts_stream _).bind fun _ _ => trusts_reject_bind (trusts_reject_bind (trusts_pieces _))

theorem trusts_keyMaterial (key nonce : Bytes) : Trusts (checkKeyMaterial key nonce) :=
  trusts_reject_bind (trusts_reject _ _)

theorem trusts_commitSegment (r : CommitSegment) (validatePlainSize : Bool) :
    Trusts (r.check validatePlainSize) := by
  refine (trusts_stream _).bind fun _ _ => trusts_reject_bind (trusts_reject_bind ?_)
  refine (trusts_pieces _).bind fun _ _ => (trusts_keyMaterial _ _).bind fun _ _ => ?_
  exact trusts_reject_bind (trusts_reject_bind (trusts_reject_bind (trusts_reject_bind
    (trusts_reject_bind (trusts_reject _ _)))))

theorem trusts_commitInlineSegment (r : CommitInlineSegment) : Trusts r.check := by
  refine (trusts_stream _).bind fun _ _ => trusts_reject_bind ?_
  exact (trusts_keyMaterial _ _).bind fun _ _ => trusts_reject_bind (trusts_reject _ _)

theorem trusts_commitObject (r : CommitObject) : Trusts r.check := by
  refine (trusts_stream _).bind fun _ _ => ?_
  split
  · exact trusts_metadata _
  · exact trusts_pure _

theorem trusts_ascending (positions : List Position) : Trusts (checkAscending positions) := by
  induction positions with
  | nil => exact trusts_pure ()
  | cons p rest ih =>
    cases rest with
    | nil => exact trusts_pure ()
    | cons q rest => exact trusts_reject_bind (trusts_reject_bind ih)

theorem trusts_parts (rows : List SegmentRow) (least : Int) (limit : Nat) :
    Trusts (Parts.check rows least limit) := by
  refine trusts_reject_bind ?_
  split
  · exact trusts_throw rfl
  · exact trusts_pure ()

theorem trusts_oneBucket (first : Location) (locations : List Location) :
    Trusts (Catalog.checkOneBucket first locations) := by
  induction locations with
  | nil => exact trusts_pure ()
  | cons l rest ih => exact (trusts_location l).bind fun _ _ => trusts_reject_bind ih

theorem trusts_copy (r : FinishCopy) : Trusts r.check :=
  (trusts_stream _).bind fun _ _ => trusts_reject_bind (trusts_reject_bind (trusts_reject_bind
    (trusts_reject _ _)))

theorem trusts_copyMetadata (r : FinishCopy) (source : Option Metadata) :
    Trusts (r.metadata source) := by
  unfold FinishCopy.metadata
  split
  · exact trusts_metadata _
  · split
    · exact trusts_pure _
    · split
      · exact trusts_reject_bind (trusts_pure _)
      · exact trusts_throw rfl

theorem trusts_pair (rows : List SegmentRow) (keys : List SegmentKey) :
    Trusts (FinishCopy.pair rows keys) := by
  induction rows generalizing keys with
  | nil => exact trusts_pure _
  | cons row rows ih =>
    cases keys with
    | nil => exact trusts_pure _
    | cons key keys => exact trusts_reject_bind ((ih keys).bind fun _ _ => trusts_pure _)

/-! ### What rows are read for -/

theorem trusts_require (statement : Statement) (quality : SegmentRow → Bool)
    (rows : List SegmentRow) : Trusts (SegmentRow.require statement quality rows) := by
  unfold SegmentRow.require
  split
  · exact trusts_pure ()
  · exact trusts_throw rfl

theorem trusts_view (statement : Statement) (o : ObjectRow) : Trusts (o.view statement) := by
  unfold ObjectRow.view
  split
  · exact trusts_pure _
  · exact trusts_throw rfl

variable {s : Store}

theorem trusts_pending (stream : ObjectStream) : Trusts (s.pending stream) := by
  unfold Store.pending
  split
  · exact trusts_throw rfl
  · exact (trusts_view _ _).bind fun _ _ => trusts_pure _

theorem trusts_pendingForCommit (stream : ObjectStream) : Trusts (s.pendingForCommit stream) := by
  unfold Store.pendingForCommit
  split
  · exact trusts_throw rfl
  · exact (trusts_view _ _).bind fun _ _ => trusts_pure _

theorem trusts_exactCommitted (l : Location) (version : Int64) :
    Trusts (s.exactCommitted l version) := by
  unfold Store.exactCommitted
  split
  · exact trusts_throw rfl
  · exact trusts_view _ _

theorem trusts_latestCommitted (l : Location) : Trusts (s.latestCommitted l) := by
  unfold Store.latestCommitted
  split
  · exact trusts_throw rfl
  · exact trusts_view _ _

theorem trusts_complete (settings : Settings) (r : CommitObject) (metadata : Option Metadata)
    (pending : ObjectRow) (rows : List SegmentRow) :
    Trusts (s.complete settings r metadata pending rows) :=
  (trusts_parts _ _ _).bind fun _ _ => (trusts_view _ _).bind fun _ _ => trusts_pure _

theorem trusts_addCopied (rows : List SegmentRow) : Trusts (s.addCopied rows) := by
  induction rows generalizing s with
  | nil => exact trusts_pure s
  | cons row rows ih =>
    rw [Store.addCopied]
    split
    · exact trusts_throw rfl
    · exact ih

theorem trusts_addRelation (row : CopyRow) : Trusts (s.addRelation row) := by
  unfold Store.addRelation
  split
  · exact trusts_throw rfl
  · exact trusts_pure _

/-- A committed object says how many segments it has, in 32 bits. -/
theorem Store.Booked.count_wraps (hb : s.Booked) {stream : ObjectStream} {source : Object}
    (hsource : s.copySource stream = .ok source) :
    source.segmentCount.toInt =
      ((s.segmentsOf stream.stream).length : Int).bmod 4294967296 := by
  unfold Store.copySource at hsource
  cases hfound : s.objectOf? stream .committed with
  | none => rw [hfound] at hsource; cases hsource
  | some o =>
    rw [hfound] at hsource
    obtain ⟨ho, -, hstream, hstatus⟩ := Store.objectOf?_eq_some hfound
    obtain ⟨_, _, count, _, -, -, hcount, -, rfl⟩ := ObjectRow.view_eq_ok.1 hsource
    have hbooks := (hb o ho hstatus).count
    rw [hstream] at hbooks
    exact (int32?_eq_some hcount).trans hbooks

/-- **A committed object has as many segments as it says,** unless they are too many for a 32-bit
count. -/
theorem Store.Booked.count_eq (hb : s.Booked) {stream : ObjectStream} {source : Object}
    (hfew : (s.segmentsOf stream.stream).length < 2147483648)
    (hsource : s.copySource stream = .ok source) :
    ((s.segmentsOf stream.stream).length : Int) = source.segmentCount.toInt := by
  rw [hb.count_wraps hsource, Int.bmod_def]
  omega

theorem trusts_finishCopy (hb : s.Booked) (now : Instant) (r : FinishCopy)
    (hfew : (s.segmentsOf r.source.stream).length < 2147483648) :
    Trusts (s.finishCopy now r) := by
  have hcopySource : Trusts (s.copySource r.source) := by
    unfold Store.copySource
    split
    · exact trusts_throw rfl
    · exact trusts_view _ _
  refine hcopySource.bind fun source hsource => trusts_reject_bind ?_
  refine (trusts_copyMetadata r _).bind fun metadata _ => ?_
  have hkeys : Trusts (s.copyKeys r source.segmentCount.toInt) := by
    -- the only count that is compared is that of the source, and it is right
    have hcount := hb.count_eq hfew hsource
    refine (trusts_require _ _ _).bind fun _ _ => ?_
    dsimp only
    rw [if_neg (not_not.2 hcount)]
    exact trusts_pair _ _
  refine hkeys.bind fun pairs _ => (trusts_view _ _).bind fun object _ => ?_
  refine (trusts_addCopied _).bind fun s₁ _ => ?_
  dsimp only
  split
  · exact trusts_pure _
  · exact (trusts_addRelation _).bind fun _ _ => trusts_pure _

/-! ### Listings and scans of objects -/

theorem trusts_startListing (r : ListObjects) : Trusts (Listing.start r) := by
  refine trusts_reject_bind (trusts_reject_bind ?_)
  dsimp only
  split
  · exact trusts_pure _
  · split <;> exact trusts_pure _

theorem trusts_startPending (r : ListPending) : Trusts (PendingListing.start r) :=
  (trusts_location _).bind fun _ _ => trusts_pure _

theorem trusts_nextEntry (l : Listing) (tables : Option Store) : Trusts (l.next tables).1 := by
  have hfetch : ∀ s : Store, Trusts (l.fetch s) := by
    intro s
    unfold Listing.fetch
    dsimp only
    split
    · exact trusts_throw rfl
    · exact trusts_pure _
  unfold Listing.next
  split
  · cases tables with
    | none => exact trusts_throw rfl
    | some s =>
      dsimp only
      cases hout : l.fetch s with
      | error e => exact trusts_throw (hfetch s e hout)
      | ok l' => exact trusts_pure _
  · exact trusts_pure _

theorem trusts_nextPending (l : PendingListing) (tables : Option Store) :
    Trusts (l.next tables).1 := by
  have hfetch : ∀ s : Store, Trusts (l.fetch s) := by
    intro s
    unfold PendingListing.fetch
    split
    · exact trusts_throw rfl
    · exact trusts_pure _
  unfold PendingListing.next
  split
  · cases tables with
    | none => exact trusts_throw rfl
    | some s =>
      dsimp only
      cases hout : l.fetch s with
      | error e => exact trusts_throw (hfetch s e hout)
      | ok l' => exact trusts_pure _
  · exact trusts_pure _

theorem trusts_nextObjects (scan : ObjectScan) (tables : Option Store) :
    Trusts (scan.next tables).1 := by
  unfold ObjectScan.next
  split
  · exact trusts_pure _
  · cases scan.snapshot.or tables with
    | none => exact trusts_throw rfl
    | some s =>
      dsimp only
      split
      · next e hviews =>
        refine trusts_throw (trusts_mapM (fun o _ => ?_) e hviews)
        intro e' h
        cases hview : o.view .scanObjects with
        | error e'' =>
          rw [hview] at h
          cases h
          exact trusts_view _ _ e' hview
        | ok object => rw [hview] at h; cases h
      · exact trusts_pure _

theorem trusts_drainListing (tables : Option Store) (limit : Nat) (l : Listing) :
    Trusts (l.drain tables limit) := by
  induction limit generalizing l with
  | zero => exact trusts_pure _
  | succ limit ih =>
    have hnext := trusts_nextEntry l tables
    unfold Listing.drain
    rcases hout : l.next tables with ⟨e | entry?, l'⟩
    · rw [hout] at hnext
      exact trusts_throw (hnext e rfl)
    · cases entry? with
      | none => exact trusts_pure _
      | some entry => exact (ih l').bind fun _ _ => trusts_pure _

theorem trusts_drainPending (tables : Option Store) (limit : Nat) (l : PendingListing) :
    Trusts (l.drain tables limit) := by
  induction limit generalizing l with
  | zero => exact trusts_pure _
  | succ limit ih =>
    have hnext := trusts_nextPending l tables
    unfold PendingListing.drain
    rcases hout : l.next tables with ⟨e | entry?, l'⟩
    · rw [hout] at hnext
      exact trusts_throw (hnext e rfl)
    · cases entry? with
      | none => exact trusts_pure _
      | some entry => exact (ih l').bind fun _ _ => trusts_pure _

theorem trusts_drainObjects (tables : Option Store) (limit : Nat) (scan : ObjectScan) :
    Trusts (scan.drain tables limit) := by
  induction limit generalizing scan with
  | zero => exact trusts_pure _
  | succ limit ih =>
    have hnext := trusts_nextObjects scan tables
    unfold ObjectScan.drain
    rcases hout : scan.next tables with ⟨e | batch, scan'⟩
    · rw [hout] at hnext
      exact trusts_throw (hnext e rfl)
    · cases batch with
      | nil => exact trusts_pure _
      | cons entry rest => exact (ih scan').bind fun _ _ => trusts_pure _

end Checks

end ObjectCatalog
