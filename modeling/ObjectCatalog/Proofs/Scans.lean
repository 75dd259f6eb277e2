import ObjectCatalog.Proofs.Instants
import ObjectCatalog.Proofs.Legible
import ObjectCatalog.Proofs.Prefixes
import ObjectCatalog.Proofs.Qualities
import ObjectCatalog.Scan

/-!
# Scans batch by batch

A scan keeps the key of the row that it saw last. Keys are distinct and in order, so the rows after
that key are those not yet seen, wherever a batch ended and whatever rows the time it looks back to
leaves out. The key it starts with is below the keys of all rows.

* `Store.objectsBy`, `Store.segmentsBy`: the rows that a scan is to show.
* `Ascending.filter_batch`: the rows after a batch are those above the key of its last row.
* `Batched`, `Drained`: rows given out in batches, with an empty one at the end.
* `ObjectScan.outcome_eq`: **what each call for a batch of objects gives.**
* `ObjectScan.At.drain`: all batches of objects.
-/

namespace ObjectCatalog

/-! ## Keys that scans start with -/

theorem then_eq_lt {a b : Ordering} (ha : a ≠ .gt) (hb : b = .lt) : a.then b = .lt := by
  subst hb
  cases a with
  | lt => rfl
  | eq => rfl
  | gt => exact absurd rfl ha

theorem Bytes.compare_zeros_ne_gt (b : Bytes) :
    compare (List.replicate b.length (0 : UInt8)) b ≠ .gt := by
  induction b with
  | nil => decide
  | cons x rest ih =>
    rw [List.length_cons, List.replicate_succ]
    by_cases hx : x = 0
    · rw [hx, Bytes.compare_cons_self]
      exact ih
    · have hlt : (0 : UInt8) < x := UInt8.pos_iff_ne_zero.2 hx
      rw [Bytes.compare_cons_of_lt hlt]
      decide

/-- No id is below the one of zeros. -/
theorem Id.compare_zero_ne_gt {kind : IdKind} (a : Id kind) : compare Id.zero a ≠ .gt := by
  have hbytes := Bytes.compare_zeros_ne_gt a.bytes
  rw [a.length_eq] at hbytes
  exact hbytes

theorem compare_empty_ne_gt (b : String) : compare "" b ≠ .gt := by
  have hcompare : compare "" b = compareOfLessAndEq "" b := rfl
  rw [hcompare, compareOfLessAndEq]
  by_cases hlt : "" < b
  · rw [if_pos hlt]
    decide
  · have hempty : "" = b := by
      rw [String.lt_iff] at hlt
      cases hchars : b.toList with
      | nil => exact (String.toList_eq_nil_iff.1 hchars).symm
      | cons c rest =>
        rw [hchars] at hlt
        exact absurd (List.nil_lt_cons c rest) hlt
    rw [if_neg hlt, if_pos hempty]
    decide

/-- The key that a scan of objects starts with is below the keys of all rows. -/
theorem ObjectId.start_lt {i : ObjectId} (hi : 0 < i.version) :
    compare (⟨⟨.zero, "", []⟩, 0⟩ : ObjectId) i = .lt := by
  have hkey : compare ([] : Bytes) i.location.key ≠ .gt := fun hgt =>
    Bytes.compare_nil_ne_lt _ (Std.OrientedCmp.lt_of_gt hgt)
  have hversion : compare (0 : Int) i.version = .lt := compare_lt_iff_lt.2 hi
  have hproject := Id.compare_zero_ne_gt i.location.project
  exact then_eq_lt hproject (then_eq_lt (compare_empty_ne_gt _) (then_eq_lt hkey hversion))

/-- The key that a scan of segments starts with is below the keys of all positions. -/
theorem SegmentId.start_lt {i : SegmentId} (hi : 0 ≤ i.position) :
    compare (⟨.zero, -9223372036854775808⟩ : SegmentId) i = .lt := by
  have hposition : compare (-9223372036854775808 : Int) i.position = .lt :=
    compare_lt_iff_lt.2 (by omega)
  exact then_eq_lt (Id.compare_zero_ne_gt i.stream) hposition

/-! ## The rows after a batch -/

section Rows

variable {ρ κ : Type} [Ord κ] [Std.TransOrd κ] {key : ρ → κ} {rows : List ρ}

/-- The rows whose keys are above that of a row are those behind it. -/
theorem Ascending.filter_behind {before behind : List ρ} {r : ρ}
    (h : Ascending key (before ++ r :: behind)) :
    (before ++ r :: behind).filter (fun x => decide (compare (key r) (key x) = .lt)) = behind := by
  obtain ⟨-, hbehind, hbefore⟩ := List.pairwise_append.1 h
  have hlater := (List.pairwise_cons.1 hbehind).1
  have hnone : before.filter (fun x => decide (compare (key r) (key x) = .lt)) = [] := by
    rw [List.filter_eq_nil_iff]
    intro x hx hlt
    have hback := hbefore x hx r List.mem_cons_self
    have hloop := Std.TransCmp.lt_trans (of_decide_eq_true hlt) hback
    exact ne_of_compare_lt hloop rfl
  have hself : ¬ decide (compare (key r) (key r) = .lt) = true := by simp
  rw [List.filter_append, hnone, List.nil_append, List.filter_cons, if_neg hself,
    List.filter_eq_self.2 fun x hx => decide_eq_true (hlater x hx)]

/-- After a batch, the rows above the key of its last row are those that follow the batch. -/
theorem Ascending.filter_batch (h : Ascending key rows) {c : κ} {i size : Nat} (hsize : 0 < size)
    (hrest : rows.filter (fun x => decide (compare c (key x) = .lt)) = rows.drop i) :
    rows.filter (fun x => decide
      (compare (((rows.drop i).take size).getLast?.elim c key) (key x) = .lt)) =
      rows.drop (i + size) := by
  cases hlast : ((rows.drop i).take size).getLast? with
  | none =>
    -- the cursor stays where it was, and nothing is behind it
    have hnil : rows.drop i = [] := by
      rw [List.getLast?_eq_none_iff, List.take_eq_nil_iff] at hlast
      exact hlast.resolve_left (by omega)
    rw [Option.elim_none, hrest, hnil, ← List.drop_drop, hnil, List.drop_nil]
  | some r =>
    obtain ⟨before, hbatch⟩ := List.getLast?_eq_some_iff.1 hlast
    have hrows : rows = (rows.take i ++ before) ++ r :: rows.drop (i + size) := by
      calc rows = rows.take i ++ rows.drop i := (List.take_append_drop i rows).symm
        _ = rows.take i ++ ((rows.drop i).take size ++ (rows.drop i).drop size) := by
            rw [List.take_append_drop size (rows.drop i)]
        _ = (rows.take i ++ before) ++ r :: rows.drop (i + size) := by
            rw [hbatch, List.drop_drop]
            simp
    have hbehind := h
    rw [hrows] at hbehind
    rw [Option.elim_some]
    conv_lhs => rw [hrows]
    exact hbehind.filter_behind

end Rows

/-! ## Rows in batches -/

section Batches

variable {α β : Type} {size : Nat}

/-- Entries given out in batches: one after the other, of a size each but the last, and then an empty
batch. -/
structure Batched (size : Nat) (entries : List α) (batches : List (List α)) : Prop where
  flatten : batches.flatten = entries
  ended : ∃ shown, batches = shown ++ [[]] ∧ (∀ b ∈ shown, b ≠ [] ∧ b.length ≤ size) ∧
    ∀ b ∈ shown.dropLast, b.length = size

theorem batched_nil (size : Nat) : Batched size ([] : List α) [[]] :=
  ⟨rfl, [], rfl, fun _ hb => absurd hb List.not_mem_nil, fun _ hb => absurd hb List.not_mem_nil⟩

/-- A batch in front, which is full if others that are not empty follow. -/
theorem Batched.cons {b entries : List α} {batches : List (List α)} (h : Batched size entries batches)
    (hne : b ≠ []) (hle : b.length ≤ size) (hfull : entries ≠ [] → b.length = size) :
    Batched size (b ++ entries) (b :: batches) := by
  obtain ⟨shown, hbatches, hshown, hsizes⟩ := h.ended
  refine ⟨by rw [List.flatten_cons, h.flatten], b :: shown, by rw [hbatches, List.cons_append], ?_, ?_⟩
  · intro b' hb'
    rcases List.mem_cons.1 hb' with rfl | hb'
    · exact ⟨hne, hle⟩
    · exact hshown b' hb'
  · intro b' hb'
    cases shown with
    | nil => exact absurd hb' List.not_mem_nil
    | cons b₁ rest =>
      have hentries : entries ≠ [] := by
        intro hnil
        have hflat := h.flatten
        rw [hnil, hbatches, List.cons_append, List.flatten_cons, List.append_eq_nil_iff] at hflat
        exact (hshown b₁ List.mem_cons_self).1 hflat.1
      rw [List.dropLast_cons_of_ne_nil (List.cons_ne_nil _ _)] at hb'
      rcases List.mem_cons.1 hb' with rfl | hb'
      · exact hfull hentries
      · exact hsizes b' hb'

/-- What is given out for rows, batch after batch: their entries in batches, or the failure of the
first row that has no entry. -/
inductive Drained (size : Nat) (entries : Except Error (List α)) :
    Except Error (List (List α)) → Prop
  | batches {es : List α} {bs : List (List α)} (hentries : entries = .ok es)
      (hbatched : Batched size es bs) : Drained size entries (.ok bs)
  | failure {e : Error} (hentries : entries = .error e) : Drained size entries (.error e)

theorem Drained.exists_batches {es : List α} {out : Except Error (List (List α))}
    (h : Drained size (.ok es) out) : ∃ bs, out = .ok bs ∧ Batched size es bs := by
  cases h with
  | batches hentries hbatched =>
    cases hentries
    exact ⟨_, rfl, hbatched⟩
  | failure hentries => cases hentries

theorem Drained.eq_error {e : Error} {out : Except Error (List (List α))}
    (h : Drained size (.error e) out) : out = .error e := by
  cases h with
  | batches hentries _ => cases hentries
  | failure hentries =>
    cases hentries
    rfl

variable {f : α → Except Error β} {rows : List α}

theorem Except.mapM_take_drop (f : α → Except Error β) (rows : List α) (n : Nat) :
    rows.mapM f = (do
      let first ← (rows.take n).mapM f
      let rest ← (rows.drop n).mapM f
      return first ++ rest) := by
  rw [← List.mapM_append, List.take_append_drop]

/-- A batch is empty just when no row is left. -/
theorem batch_eq_nil_iff {b : List β} (hsize : 0 < size)
    (hfirst : (rows.take size).mapM f = .ok b) : b = [] ↔ rows = [] := by
  have hlength : (rows.take size).length = b.length := (Except.mapM_eq_ok_iff.1 hfirst).length_eq
  rw [List.length_take] at hlength
  rw [← List.length_eq_zero_iff, ← List.length_eq_zero_iff]
  omega

/-- An empty batch ends it all. -/
theorem Drained.of_empty (hsize : 0 < size) (hfirst : (rows.take size).mapM f = .ok []) :
    Drained size (rows.mapM f) (.ok [[]]) := by
  rw [(batch_eq_nil_iff hsize hfirst).1 rfl]
  exact .batches List.mapM_nil (batched_nil size)

/-- A batch that fails ends it all. -/
theorem Drained.of_error {e : Error} (hfirst : (rows.take size).mapM f = .error e) :
    Drained size (rows.mapM f) (.error e) := by
  refine .failure ?_
  rw [Except.mapM_take_drop f rows size, hfirst]
  rfl

/-- A batch that is not empty stands in front of what follows it. -/
theorem Drained.cons {b : List β} {rest : Except Error (List (List β))} (hb : b ≠ [])
    (hfirst : (rows.take size).mapM f = .ok b)
    (h : Drained size ((rows.drop size).mapM f) rest) :
    Drained size (rows.mapM f) (rest.map (b :: ·)) := by
  have hlength : (rows.take size).length = b.length := (Except.mapM_eq_ok_iff.1 hfirst).length_eq
  rw [List.length_take] at hlength
  cases h with
  | failure hentries =>
    refine .failure ?_
    rw [Except.mapM_take_drop f rows size, hfirst, hentries]
    rfl
  | @batches es bs hentries hbatched =>
    have hmore : es.length = (rows.drop size).length :=
      (Except.mapM_eq_ok_iff.1 hentries).length_eq.symm
    rw [List.length_drop] at hmore
    have hall : rows.mapM f = .ok (b ++ es) := by
      rw [Except.mapM_take_drop f rows size, hfirst, hentries]
      rfl
    refine .batches hall (hbatched.cons hb (by omega) fun hes => ?_)
    have := List.length_pos_iff.2 hes
    omega

theorem Except.exists_of_mapM_eq_error {e : Error} (h : rows.mapM f = .error e) :
    ∃ a ∈ rows, f a = .error e := by
  induction rows with
  | nil =>
    rw [List.mapM_nil] at h
    cases h
  | cons a rest ih =>
    rw [List.mapM_cons] at h
    cases ha : f a with
    | error e' =>
      rw [ha] at h
      cases h
      exact ⟨a, List.mem_cons_self, ha⟩
    | ok b =>
      rw [ha] at h
      cases hrest : rest.mapM f with
      | error e' =>
        rw [hrest] at h
        cases h
        obtain ⟨a', ha', hfails⟩ := ih hrest
        exact ⟨a', List.mem_cons_of_mem _ ha', hfails⟩
      | ok bs =>
        rw [hrest] at h
        cases h

end Batches

/-! ## Scans of objects -/

/-- The object rows that a scan looking back to a time is to show. -/
def Store.objectsBy (s : Store) (asOf : Instant) : List ObjectRow :=
  s.objects.rows.filter fun r => r.createdAt.notAfter asOf

/-- The segment rows that a scan looking back to a time is to show. -/
def Store.segmentsBy (s : Store) (asOf : Instant) : List SegmentRow :=
  s.segments.rows.filter fun r => r.createdAt.notAfter asOf

/-- What a scan shows of an object row. -/
def ObjectRow.shown (r : ObjectRow) : Except Error LoopObject :=
  (r.view .scanObjects).map r.forLoop

variable {s : Store} {time : Instant} {size i : Nat}

theorem Store.ascending_objectsBy (s : Store) (time : Instant) :
    Ascending ObjectRow.id (s.objectsBy time) := (s.objects.filter _).ascending

theorem Store.ascending_segmentsBy (s : Store) (time : Instant) :
    Ascending SegmentRow.id (s.segmentsBy time) := (s.segments.filter _).ascending

namespace ObjectScan

variable {scan : ObjectScan} {found : Option Store}

/-- A scan that has shown a number of rows. -/
structure At (s : Store) (time : Instant) (size i : Nat) (scan : ObjectScan) : Prop where
  batchSize : scan.batchSize = size
  asOf : scan.asOf = time
  unseen : scan.rest s = (s.objectsBy time).drop i
  done : scan.done = true → (s.objectsBy time).length ≤ i ∧ scan.snapshot = some s

theorem rest_eq (scan : ObjectScan) (s : Store) : scan.rest s =
    (s.objectsBy scan.asOf).filter fun r => decide (compare scan.cursor r.id = .lt) := by
  unfold rest Store.objectsBy
  rw [List.filter_filter]
  congr 1
  funext r
  exact Bool.and_comm _ _

theorem at_start (hpos : ∀ o ∈ s.objects.rows, 0 < o.version) (now : Instant) (n : Nat)
    (asOf : Option Instant) :
    (start now n asOf).At s (asOf.getD now) (loopBatch n) 0 where
  batchSize := rfl
  asOf := rfl
  unseen := by
    rw [rest_eq, List.drop_zero]
    refine List.filter_eq_self.2 fun r hr => ?_
    exact decide_eq_true (ObjectId.start_lt (hpos r (List.mem_filter.1 hr).1))
  done hdone := by cases hdone

theorem next_of_done (hdone : scan.done = true) (found : Option Store) :
    scan.next found = (.ok [], scan) := by
  rw [next, if_pos hdone]

theorem next_of_not_done (hdone : scan.done = false) (hfound : scan.snapshot.or found = some s) :
    scan.next found =
      match ((scan.rest s).take scan.batchSize).mapM ObjectRow.shown with
      | .error e => (.error e, { scan with snapshot := some s })
      | .ok b => (.ok b, { scan with
          snapshot := some s
          cursor := ((scan.rest s).take scan.batchSize).getLast?.elim scan.cursor (·.id)
          done := ((scan.rest s).take scan.batchSize).length < scan.batchSize }) := by
  rw [next, if_neg (by rw [hdone]; decide), hfound]
  rfl

/-- **One call for a batch** gives the entries of the next rows and goes on behind them, or fails and
stays. -/
theorem At.next (h : scan.At s time size i) (hsize : 0 < size)
    (hfound : scan.snapshot.or found = some s) :
    (scan.next found).2.snapshot = some s ∧
      ((∃ b, (((s.objectsBy time).drop i).take size).mapM ObjectRow.shown = .ok b ∧
          (scan.next found).1 = .ok b ∧ (scan.next found).2.At s time size (i + size)) ∨
        ∃ e, (((s.objectsBy time).drop i).take size).mapM ObjectRow.shown = .error e ∧
          (scan.next found).1 = .error e ∧ (scan.next found).2.At s time size i) := by
  cases hdone : scan.done with
  | true =>
    -- a batch was short before, so nothing is left
    obtain ⟨hend, hsnapshot⟩ := h.done hdone
    have hnil : ∀ j, i ≤ j → (s.objectsBy time).drop j = [] := fun j hj =>
      List.drop_eq_nil_of_le (hend.trans hj)
    rw [next_of_done hdone, hnil i le_rfl, List.take_nil]
    refine ⟨hsnapshot, .inl ⟨[], rfl, rfl, h.batchSize, h.asOf, ?_, fun _ => ⟨by omega, hsnapshot⟩⟩⟩
    rw [h.unseen, hnil i le_rfl, hnil (i + size) (by omega)]
  | false =>
    rw [next_of_not_done hdone hfound, h.batchSize, h.unseen]
    cases hbatch : (((s.objectsBy time).drop i).take size).mapM ObjectRow.shown with
    | error e =>
      refine ⟨rfl, .inr ⟨e, rfl, rfl, rfl, h.asOf, h.unseen, fun hnow => ?_⟩⟩
      rw [hdone] at hnow
      cases hnow
    | ok b =>
      refine ⟨rfl, .inl ⟨b, rfl, rfl, rfl, h.asOf, ?_, fun hshort => ⟨?_, rfl⟩⟩⟩
      · have hbefore := h.unseen
        rw [rest_eq, h.asOf] at hbefore
        rw [rest_eq, h.asOf]
        exact (s.ascending_objectsBy time).filter_batch hsize hbefore
      · have hfew := of_decide_eq_true hshort
        rw [List.length_take, List.length_drop] at hfew
        omega

/-! ### Calls one after the other -/

/-- The scan after a number of calls for a batch, each of which finds some tables. -/
def after (scan : ObjectScan) (found : Nat → Option Store) : Nat → ObjectScan
  | 0 => scan
  | k + 1 => ((scan.after found k).next (found k)).2

/-- What a scan gives at the call after a number of others. -/
def outcome (scan : ObjectScan) (found : Nat → Option Store) (k : Nat) :
    Except Error (List LoopObject) := ((scan.after found k).next (found k)).1

section Calls

variable {found : Nat → Option Store} (h : scan.At s time size 0) (hsize : 0 < size)
  (hfound : scan.snapshot.or (found 0) = some s)

include h hsize hfound

/-- Where a scan stands after a number of calls: behind as many batches, or before the first one that
cannot be shown. -/
theorem at_after (k : Nat) : (scan.after found k).snapshot.or (found k) = some s ∧
    ∃ j ≤ k, (scan.after found k).At s time size (j * size) ∧
      (∀ r ∈ (s.objectsBy time).take (j * size), ∃ entry, r.shown = .ok entry) ∧
      (j = k ∨ ∃ e, (((s.objectsBy time).drop (j * size)).take size).mapM ObjectRow.shown =
        .error e) := by
  induction k with
  | zero =>
    refine ⟨hfound, 0, le_rfl, by rw [Nat.zero_mul]; exact h, fun r hr => ?_, .inl rfl⟩
    rw [Nat.zero_mul, List.take_zero] at hr
    exact absurd hr List.not_mem_nil
  | succ k ih =>
    obtain ⟨hsnapshot, j, hj, hat, hshown, hlast⟩ := ih
    obtain ⟨hkept, hnext⟩ := hat.next hsize hsnapshot
    have hfirst : (scan.after found (k + 1)).snapshot.or (found (k + 1)) = some s := by
      rw [after, hkept]
      rfl
    refine ⟨hfirst, ?_⟩
    rcases hnext with ⟨b, hbatch, -, hat'⟩ | ⟨e, hbatch, -, hat'⟩
    · -- a batch that can be shown is the one that the call asks for
      have hjk : j = k := hlast.resolve_right fun ⟨e, he⟩ => by
        rw [hbatch] at he
        cases he
      refine ⟨j + 1, by omega, by rw [Nat.succ_mul]; exact hat', fun r hr => ?_, .inl (by omega)⟩
      rw [Nat.succ_mul, List.take_add, List.mem_append] at hr
      rcases hr with hr | hr
      · exact hshown r hr
      · obtain ⟨entry, -, hentry⟩ := exists_of_forall₂_left (Except.mapM_eq_ok_iff.1 hbatch) hr
        exact ⟨entry, hentry⟩
    · exact ⟨j, by omega, hat', hshown, .inr ⟨e, hbatch⟩⟩

/-- **What each call for a batch gives:** the entries of the rows whose turn it is, or a failure once
a row cannot be shown. -/
theorem outcome_eq (k : Nat) :
    (∃ b, List.Forall₂ (fun r entry => r.shown = .ok entry)
        (((s.objectsBy time).drop (k * size)).take size) b ∧ scan.outcome found k = .ok b ∧
        ∀ r ∈ (s.objectsBy time).take ((k + 1) * size), ∃ entry, r.shown = .ok entry) ∨
      ∃ e, scan.outcome found k = .error e ∧
        ∃ r ∈ (s.objectsBy time).take ((k + 1) * size), r.shown = .error e := by
  obtain ⟨hsnapshot, j, hj, hat, hshown, hlast⟩ := at_after h hsize hfound k
  obtain ⟨-, hnext⟩ := hat.next hsize hsnapshot
  rcases hnext with ⟨b, hbatch, hout, -⟩ | ⟨e, hbatch, hout, -⟩
  · -- no batch before this one failed, so the scan stands where it was asked to
    have hjk : j = k := hlast.resolve_right fun ⟨e, he⟩ => by
      rw [hbatch] at he
      cases he
    subst hjk
    have hentries := Except.mapM_eq_ok_iff.1 hbatch
    refine .inl ⟨b, hentries, hout, fun r hr => ?_⟩
    rw [Nat.succ_mul, List.take_add, List.mem_append] at hr
    rcases hr with hr | hr
    · exact hshown r hr
    · obtain ⟨entry, -, hentry⟩ := exists_of_forall₂_left hentries hr
      exact ⟨entry, hentry⟩
  · obtain ⟨r, hr, hfails⟩ := Except.exists_of_mapM_eq_error hbatch
    have hle : j * size + size ≤ (k + 1) * size := by
      rw [← Nat.succ_mul]
      exact Nat.mul_le_mul_right size (by omega)
    have hmem : r ∈ (s.objectsBy time).take (j * size + size) := by
      rw [List.take_add]
      exact List.mem_append_right _ hr
    exact .inr ⟨e, hout, r, (List.take_sublist_take_left hle).subset hmem, hfails⟩

end Calls

/-- **All batches of a scan,** up to the first empty one: the entries of the rows not yet seen. -/
theorem At.drain (h : scan.At s time size i) (hsize : 0 < size)
    (hsnapshot : scan.snapshot.or (some s) = some s) {limit : Nat}
    (hlimit : (s.objectsBy time).length - i < limit) :
    Drained size (((s.objectsBy time).drop i).mapM ObjectRow.shown)
      (scan.drain (some s) limit) := by
  -- each batch but the last takes a row, so the limit is not reached before the rows end
  induction limit generalizing scan i with
  | zero => omega
  | succ limit ih =>
    obtain ⟨hkept, hnext⟩ := h.next hsize hsnapshot
    rw [ObjectScan.drain]
    cases hcall : scan.next (some s) with
    | mk outcome scan' =>
      rw [hcall] at hkept hnext
      rcases hnext with ⟨b, hbatch, hout, hat⟩ | ⟨e, hbatch, hout, -⟩
      · have hout : outcome = .ok b := hout
        subst hout
        cases b with
        | nil => exact .of_empty hsize hbatch
        | cons entry more =>
          have hb : entry :: more ≠ [] := List.cons_ne_nil entry more
          have hleft : ¬ (s.objectsBy time).length ≤ i := fun hend =>
            hb ((batch_eq_nil_iff hsize hbatch).2 (List.drop_eq_nil_iff.2 hend))
          have hsnapshot' : scan'.snapshot.or (some s) = some s := by
            have hkept : scan'.snapshot = some s := hkept
            rw [hkept]
            rfl
          have hrest := ih hat hsnapshot' (by omega)
          rw [← List.drop_drop] at hrest
          have hall := hrest.cons hb hbatch
          show Drained size _ (scan'.drain (some s) limit >>= fun bs => pure ((entry :: more) :: bs))
          cases hdrained : scan'.drain (some s) limit with
          | error e =>
            rw [hdrained] at hall
            exact hall
          | ok bs =>
            rw [hdrained] at hall
            exact hall
      · have hout : outcome = .error e := hout
        subst hout
        exact .of_error hbatch

end ObjectScan

end ObjectCatalog
