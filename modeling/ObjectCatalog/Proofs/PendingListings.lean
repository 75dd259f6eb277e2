import ObjectCatalog.Proofs.Listings
import ObjectCatalog.Proofs.ObjectRows
import ObjectCatalog.Proofs.Scans

/-!
# Listings of the uploads of a key

The uploads of a key take turns by stream id. A listing fetches a batch of them at a time and goes on
after the stream id that it showed last. So where several uploads of the key have one stream id and a
batch ends among them, the others of them are passed over.

* `Store.pendingOf`, `Store.ascending_pendingOf`: the uploads of a key, in turn.
* `PendingListing.shown`: the uploads that batches of a size show.
* `PendingListing.shown_eq_self_iff`: **nothing is passed over just when no batch ends between two
  uploads of one stream id.**
* `PendingListing.Ahead`, `PendingListing.steps_next`: a step of a listing shows the next upload.
* `Site.Reachable.pending_listing_exact`: **what the listing of a key gives out at a reachable site.**
-/

namespace ObjectCatalog

open Store

/-! ## Turns -/

/-- The place of an upload among those of its key. -/
structure Turn where
  stream : StreamId
  version : Int
  deriving DecidableEq

/-- Turns go by stream id, and by version for one stream id. -/
def Turn.order : Turn → Turn → Ordering := compareLex (compareOn (·.stream)) (compareOn (·.version))

instance : Ord Turn := ⟨Turn.order⟩

instance : Std.TransOrd Turn :=
  inferInstanceAs <| Std.TransCmp <|
    compareLex (compareOn fun t : Turn => t.stream) (compareOn (·.version))

/-- The turn of a row. -/
def ObjectRow.turn (o : ObjectRow) : Turn := ⟨o.stream, o.version⟩

theorem ObjectRow.turn_lt_iff {a b : ObjectRow} : compare a.turn b.turn = .lt ↔
    compare a.stream b.stream = .lt ∨ a.stream = b.stream ∧ a.version < b.version := by
  have hversion : compare a.version b.version = .lt ↔ a.version < b.version := Std.compare_eq_lt
  have hstream : compare a.stream b.stream = .eq ↔ a.stream = b.stream :=
    Std.LawfulEqOrd.compare_eq_iff_eq
  show (compare a.stream b.stream).then (compare a.version b.version) = .lt ↔ _
  rw [Ordering.then_eq_lt, hstream, hversion]

/-- Later rows have no lower stream id. -/
theorem ObjectRow.stream_isLE {a b : ObjectRow} (h : compare a.turn b.turn = .lt) :
    (compare a.stream b.stream).isLE = true := by
  rcases ObjectRow.turn_lt_iff.1 h with hlt | ⟨heq, -⟩
  · rw [hlt]
    rfl
  · rw [heq]
    exact Std.ReflCmp.isLE_rfl

namespace Store

variable {s : Store} {l : Location} {rows : List ObjectRow} {o : ObjectRow}

/-- The versions of a key are in ascending order. -/
theorem pairwise_versionsOf (s : Store) (l : Location) :
    (s.versionsOf l).Pairwise fun a b => a.version < b.version := by
  have hids : (s.versionsOf l).Pairwise fun a b => compare a.id b.id = .lt :=
    s.objects.ascending.filter _
  refine hids.imp_of_mem fun {a b} ha hb hlt => ?_
  have hlocation : a.location = b.location :=
    (mem_versionsOf.1 ha).2.trans (mem_versionsOf.1 hb).2.symm
  have horder : (compare a.location.project b.location.project).then
      ((compare a.location.bucket b.location.bucket).then
        ((compare a.location.key b.location.key).then (compare a.version b.version))) = .lt := hlt
  have hself : ∀ {κ : Type} [Ord κ] [Std.TransOrd κ] (k : κ), compare k k = .eq :=
    fun _ => Std.ReflCmp.compare_self
  rw [hlocation, hself, hself, hself] at horder
  exact Std.compare_eq_lt.1 horder

/-- Versions of a key that are sorted by stream id are in turn: those of one stream id stay in the
order they had. -/
theorem ascending_mergeSort (hrows : rows.Sublist (s.versionsOf l)) :
    Ascending ObjectRow.turn (rows.mergeSort fun a b => (compare a.stream b.stream).isLE) := by
  have htrans : ∀ a b c : ObjectRow, (compare a.stream b.stream).isLE = true →
      (compare b.stream c.stream).isLE = true → (compare a.stream c.stream).isLE = true :=
    fun _ _ _ => Std.TransCmp.isLE_trans
  have htotal : ∀ a b : ObjectRow,
      ((compare a.stream b.stream).isLE || (compare b.stream a.stream).isLE) = true :=
    fun a b => isLE_total a.stream b.stream
  have hversions : rows.Pairwise fun a b => a.version < b.version :=
    (pairwise_versionsOf s l).sublist hrows
  -- sorting does not touch the rows of one stream id
  have hsame : ∀ x, (rows.mergeSort fun a b => (compare a.stream b.stream).isLE).filter
      (fun o => decide (o.stream = x)) = rows.filter fun o => decide (o.stream = x) := by
    intro x
    have hequal : (rows.filter fun o => decide (o.stream = x)).Pairwise
        fun a b => (compare a.stream b.stream).isLE = true := by
      refine List.pairwise_of_forall_mem_list fun a ha b hb => ?_
      simp only [List.mem_filter, decide_eq_true_eq] at ha hb
      rw [ha.2, hb.2]
      exact Std.ReflCmp.isLE_rfl
    have hsub := (List.sublist_mergeSort htrans htotal hequal List.filter_sublist).filter
      fun o => decide (o.stream = x)
    rw [List.filter_filter, List.filter_congr (fun o _ => Bool.and_self _)] at hsub
    refine (hsub.eq_of_length ?_).symm
    exact ((List.mergeSort_perm rows _).filter _).length_eq.symm
  refine List.pairwise_iff_forall_sublist.2 fun {a b} hab => ?_
  rw [ObjectRow.turn_lt_iff]
  have hle := List.pairwise_iff_forall_sublist.1 (List.pairwise_mergeSort htrans htotal rows) hab
  by_cases heq : a.stream = b.stream
  · right
    have hpair := hab.filter fun o => decide (o.stream = b.stream)
    have hboth : [a, b].filter (fun o => decide (o.stream = b.stream)) = [a, b] := by simp [heq]
    rw [hsame, hboth] at hpair
    exact ⟨heq, List.pairwise_iff_forall_sublist.1 (hversions.filter _) hpair⟩
  · left
    cases hcompare : compare a.stream b.stream with
    | lt => rfl
    | eq => exact absurd (Std.LawfulEqOrd.eq_of_compare hcompare) heq
    | gt =>
      rw [hcompare] at hle
      cases hle

/-- The pending rows of a key, in turn. -/
def pendingOf (s : Store) (l : Location) : List ObjectRow :=
  ((s.versionsOf l).filter (·.hasStatus .pending)).mergeSort
    fun a b => (compare a.stream b.stream).isLE

/-- Uploads whose stream ids ascend with their versions are in turn as they stand. -/
theorem pendingOf_of_pairwise
    (h : ((s.versionsOf l).filter (·.hasStatus .pending)).Pairwise fun a b =>
      (compare a.stream b.stream).isLE = true) :
    s.pendingOf l = (s.versionsOf l).filter (·.hasStatus .pending) :=
  List.mergeSort_of_pairwise h

theorem mem_pendingOf :
    o ∈ s.pendingOf l ↔ o ∈ s.objects.rows ∧ o.location = l ∧ o.hasStatus .pending = true := by
  rw [pendingOf, List.mem_mergeSort, List.mem_filter, mem_versionsOf, and_assoc]

theorem ascending_pendingOf (s : Store) (l : Location) : Ascending ObjectRow.turn (s.pendingOf l) :=
  ascending_mergeSort List.filter_sublist

end Store

/-! ## Batches -/

namespace PendingListing

variable {size room : Nat} {last : StreamId} {rows : List ObjectRow} {o : ObjectRow}

/-- The rows that batches of a size show of rows in turn. A batch begins after the stream id `last`
that was shown before it; `room` is the number of rows that the batch has still to show. -/
def shown (size : Nat) : (room : Nat) → (last : StreamId) → List ObjectRow → List ObjectRow
  | _, _, [] => []
  | 0, last, o :: rest =>
    if compare last o.stream = .lt then o :: shown size (size - 1) o.stream rest
    else shown size 0 last rest
  | room + 1, _, o :: rest => o :: shown size room o.stream rest

theorem shown_of_lt {rest : List ObjectRow} (h : compare last o.stream = .lt) :
    shown size 0 last (o :: rest) = o :: shown size (size - 1) o.stream rest := by
  rw [shown, if_pos h]

theorem shown_of_not_lt {rest : List ObjectRow} (h : compare last o.stream ≠ .lt) :
    shown size 0 last (o :: rest) = shown size 0 last rest := by
  rw [shown, if_neg h]

/-- What is shown is part of the rows, in their order. -/
theorem shown_sublist (size room : Nat) (last : StreamId) (rows : List ObjectRow) :
    (shown size room last rows).Sublist rows := by
  induction rows generalizing room last with
  | nil =>
    cases room <;> exact List.Sublist.slnil
  | cons o rest ih =>
    cases room with
    | zero =>
      by_cases hlt : compare last o.stream = .lt
      · rw [shown_of_lt hlt]
        exact (ih _ _).cons_cons o
      · rw [shown_of_not_lt hlt]
        exact (ih _ _).cons o
    | succ room => exact (ih room o.stream).cons_cons o

/-- A batch passes over the rows that are not after the stream id that was shown last. -/
theorem shown_append_of_not_lt {passed : List ObjectRow}
    (hpassed : ∀ o ∈ passed, compare last o.stream ≠ .lt) :
    shown size 0 last (passed ++ rows) = shown size 0 last rows := by
  induction passed with
  | nil => rfl
  | cons o rest ih =>
    rw [List.cons_append, shown_of_not_lt (hpassed o List.mem_cons_self)]
    exact ih fun o' ho' => hpassed o' (List.mem_cons_of_mem _ ho')

/-- The rows after a stream id are behind the others. -/
theorem exists_passed (hrows : Ascending ObjectRow.turn rows) (x : StreamId) :
    ∃ passed, rows = passed ++ rows.filter (fun o => decide (compare x o.stream = .lt)) ∧
      ∀ o ∈ passed, compare x o.stream ≠ .lt := by
  induction rows with
  | nil => exact ⟨[], rfl, fun _ ho => absurd ho List.not_mem_nil⟩
  | cons a rest ih =>
    obtain ⟨ha, hrest⟩ := List.pairwise_cons.1 hrows
    by_cases hlt : compare x a.stream = .lt
    · have hall : ∀ o ∈ a :: rest, decide (compare x o.stream = .lt) = true := by
        intro o ho
        rw [decide_eq_true_eq]
        rcases List.mem_cons.1 ho with rfl | ho
        · exact hlt
        · exact Std.TransCmp.lt_of_lt_of_isLE hlt (ObjectRow.stream_isLE (ha o ho))
      refine ⟨[], ?_, fun _ ho => absurd ho List.not_mem_nil⟩
      rw [List.filter_eq_self.2 hall]
      rfl
    · obtain ⟨passed, hsplit, hpassed⟩ := ih hrest
      refine ⟨a :: passed, ?_, ?_⟩
      · rw [List.filter_cons_of_neg (by simpa using hlt), List.cons_append, ← hsplit]
      · intro o ho
        rcases List.mem_cons.1 ho with rfl | ho
        · exact hlt
        · exact hpassed o ho

/-- **Every stream id is shown,** though not every row of it. -/
theorem exists_shown (room : Nat) (hrows : Ascending ObjectRow.turn rows)
    (hlast : ∀ o ∈ rows, (compare last o.stream).isLE = true) :
    ∀ o ∈ rows, o.stream = last ∨ ∃ o' ∈ shown size room last rows, o'.stream = o.stream := by
  induction rows generalizing room last with
  | nil => exact fun _ ho => absurd ho List.not_mem_nil
  | cons a rest ih =>
    obtain ⟨ha, hrest⟩ := List.pairwise_cons.1 hrows
    have hnext : ∀ o ∈ rest, (compare a.stream o.stream).isLE = true :=
      fun o ho => ObjectRow.stream_isLE (ha o ho)
    -- when the first row is shown, the others are those after it
    have hshown : ∀ room', ∀ o ∈ a :: rest,
        ∃ o' ∈ a :: shown size room' a.stream rest, o'.stream = o.stream := by
      intro room' o ho
      rcases List.mem_cons.1 ho with rfl | ho
      · exact ⟨o, List.mem_cons_self, rfl⟩
      · rcases ih room' hrest hnext o ho with hsame | ⟨o', ho', hsame⟩
        · exact ⟨a, List.mem_cons_self, hsame.symm⟩
        · exact ⟨o', List.mem_cons_of_mem _ ho', hsame⟩
    intro o ho
    cases room with
    | succ room => exact .inr (hshown room o ho)
    | zero =>
      by_cases hlt : compare last a.stream = .lt
      · rw [shown_of_lt hlt]
        exact .inr (hshown _ o ho)
      · rw [shown_of_not_lt hlt]
        rcases List.mem_cons.1 ho with rfl | ho
        · have hle := hlast o List.mem_cons_self
          left
          cases hcompare : compare last o.stream with
          | lt => exact absurd hcompare hlt
          | eq => exact (Std.LawfulEqOrd.eq_of_compare hcompare).symm
          | gt =>
            rw [hcompare] at hle
            cases hle
        · exact ih 0 hrest (fun o' ho' => hlast o' (List.mem_cons_of_mem _ ho')) o ho

theorem succ_mod_eq_zero_iff {i : Nat} (hsize : 0 < size) :
    (i + 1) % size = 0 ↔ i % size = size - 1 := by
  have hlt := Nat.mod_lt i hsize
  rw [← Nat.mod_add_mod]
  by_cases hfull : i % size + 1 = size
  · rw [hfull, Nat.mod_self]
    omega
  · rw [Nat.mod_eq_of_lt (by omega)]
    omega

theorem succ_mod_eq_succ_iff {i : Nat} (hroom : room + 1 < size) :
    (i + 1) % size = room + 1 ↔ i % size = room := by
  have hlt := Nat.mod_lt i (Nat.zero_lt_of_lt hroom)
  rw [← Nat.mod_add_mod]
  by_cases hfull : i % size + 1 = size
  · rw [hfull, Nat.mod_self]
    omega
  · rw [Nat.mod_eq_of_lt (by omega)]
    omega

/-- **Nothing is passed over just when each batch begins after the row before it.** -/
theorem shown_eq_self_iff (hroom : room < size) : shown size room last rows = rows ↔
    ∀ i x o, i % size = room → (last :: rows.map (·.stream))[i]? = some x → rows[i]? = some o →
      compare x o.stream = .lt := by
  induction rows generalizing room last with
  | nil =>
    refine iff_of_true ?_ fun i x o _ _ ho => ?_
    · cases room <;> rfl
    · cases ho
  | cons a rest ih =>
    have hfirst : ∀ {room' : Nat} {rows' : List ObjectRow},
        a :: shown size room' a.stream rows' = a :: rows' ↔ shown size room' a.stream rows' = rows' :=
      fun {_ _} => by rw [List.cons.injEq, and_iff_right rfl]
    cases room with
    | succ room =>
      show a :: shown size room a.stream rest = a :: rest ↔ _
      rw [hfirst, ih (by omega)]
      constructor
      · intro h i x o hi hx ho
        cases i with
        | zero =>
          rw [Nat.zero_mod] at hi
          omega
        | succ i => exact h i x o ((succ_mod_eq_succ_iff hroom).1 hi) hx ho
      · intro h i x o hi hx ho
        exact h (i + 1) x o ((succ_mod_eq_succ_iff hroom).2 hi) hx ho
    | zero =>
      by_cases hlt : compare last a.stream = .lt
      · rw [shown_of_lt hlt, hfirst, ih (by omega)]
        constructor
        · intro h i x o hi hx ho
          cases i with
          | zero =>
            cases hx
            cases ho
            exact hlt
          | succ i => exact h i x o ((succ_mod_eq_zero_iff hroom).1 hi) hx ho
        · intro h i x o hi hx ho
          exact h (i + 1) x o ((succ_mod_eq_zero_iff hroom).2 hi) hx ho
      · rw [shown_of_not_lt hlt]
        refine iff_of_false (fun heq => ?_) fun h => hlt (h 0 last a (Nat.zero_mod _) rfl rfl)
        have hlength := (shown_sublist size 0 last rest).length_le
        rw [heq, List.length_cons] at hlength
        omega

/-! ## Steps -/

/-- The rows of a key that a listing has before it: those that it has fetched, which are the next ones
of a batch, and those behind them. -/
structure Ahead (l : PendingListing) (s : Store) (room : Nat) (rows : List ObjectRow) : Prop where
  batch : 0 < l.request.batchSize
  fetched : ∃ pre post, rows = pre ++ post ∧
    List.Forall₂ (fun o e => o.listed? true true = some e) pre l.buffer ∧ pre.length ≤ room ∧
    (l.exhausted = true → post = []) ∧ (l.exhausted = false → pre.length = room)
  after : ∃ before, s.pendingOf l.request.location = before ++ rows ∧
    ∀ o ∈ before, compare l.request.cursor o.stream ≠ .lt

/-- The rows that a listing shows of the rows before it. -/
def upcoming (l : PendingListing) (room : Nat) (rows : List ObjectRow) : List ObjectRow :=
  shown l.request.batchSize room l.request.cursor rows

variable {l l' : PendingListing} {s : Store} {r : ListPending}

/-- What a listing fetches are the pending rows of its key after its cursor. -/
theorem rows_eq (l : PendingListing) (s : Store) : l.rows s =
    (s.pendingOf l.request.location).filter
      fun o => decide (compare l.request.cursor o.stream = .lt) := by
  have hrows : Ascending ObjectRow.turn (l.rows s) := ascending_mergeSort List.filter_sublist
  refine hrows.eq_of_mem_iff ((ascending_pendingOf s _).filter _) fun o => ?_
  rw [rows, List.mem_mergeSort, List.mem_filter, List.mem_filter, mem_pendingOf, mem_versionsOf,
    Bool.and_eq_true, decide_eq_true_eq]
  simp only [and_assoc]

/-- What a step of a listing can be when some rows are before it: it ends, shows the next of them, or
fails at one that cannot be read. -/
inductive Steps (l : PendingListing) (s : Store) (room : Nat) (rows : List ObjectRow) :
    Except Error (Option Entry) × PendingListing → Prop
  | ended {l' : PendingListing} (hnone : l.upcoming room rows = []) :
      l.Steps s room rows (.ok none, l')
  | shown {o : ObjectRow} {rest : List ObjectRow} {room' : Nat} {e : Entry} {l' : PendingListing}
      (hline : o.listed? true true = some e) (hfewer : rest.length < rows.length)
      (hrows : l.upcoming room rows = o :: l'.upcoming room' rest) (hahead : l'.Ahead s room' rest) :
      l.Steps s room rows (.ok (some e), l')
  | failed {o : ObjectRow} (ho : o ∈ l.upcoming room rows) (hline : o.listed? true true = none) :
      l.Steps s room rows (.error (.storage .listPending), l)

/-- What is taken out of a buffer that is empty only when nothing is to be shown. -/
theorem steps_take {l₀ : PendingListing} {room₀ : Nat} {rows₀ : List ObjectRow}
    (h : l.Ahead s room rows) (hrows : l₀.upcoming room₀ rows₀ = l.upcoming room rows)
    (hfewer : rows.length ≤ rows₀.length) (hend : l.buffer = [] → l.upcoming room rows = []) :
    l₀.Steps s room₀ rows₀ (.ok l.take.1, l.take.2) := by
  obtain ⟨pre, post, hsplit, hlines, hle, hexhausted, hfull⟩ := h.fetched
  obtain ⟨before, hturns, -⟩ := h.after
  unfold take
  cases hbuffer : l.buffer with
  | nil => exact .ended (hrows.trans (hend hbuffer))
  | cons e buffer =>
    rw [hbuffer] at hlines
    cases hlines with
    | @cons o _ pre _ hline hlines =>
      obtain ⟨-, -, -, hstream⟩ := ObjectRow.of_listed? hline
      rw [List.length_cons] at hle hfull
      obtain ⟨room, rfl⟩ := Nat.exists_eq_succ_of_ne_zero (Nat.ne_zero_of_lt hle)
      have hsplit : rows = o :: (pre ++ post) := hsplit
      refine .shown hline (?_ : (pre ++ post).length < rows₀.length)
        (?_ : _ = o :: PendingListing.upcoming _ room (pre ++ post)) ⟨h.batch, ?_, ?_⟩
      · rw [hsplit, List.length_cons] at hfewer
        omega
      · show l₀.upcoming room₀ rows₀ =
          o :: PendingListing.shown l.request.batchSize room e.stream (pre ++ post)
        rw [hrows, hsplit, hstream]
        rfl
      · exact ⟨pre, post, rfl, hlines, Nat.le_of_succ_le_succ hle, hexhausted,
          fun hmore => Nat.succ.inj (hfull hmore)⟩
      · rw [hsplit] at hturns
        refine ⟨before ++ [o], ?_, fun o' ho' => ?_⟩
        · rw [List.append_assoc]
          exact hturns
        · show compare e.stream o'.stream ≠ .lt
          rw [hstream]
          rcases List.mem_append.1 ho' with ho' | ho'
          · have hascending := ascending_pendingOf s l.request.location
            rw [hturns] at hascending
            have hlt := (List.pairwise_append.1 hascending).2.2 o' ho' o List.mem_cons_self
            exact not_lt_iff_isLE.2 (ObjectRow.stream_isLE hlt)
          · rw [List.mem_singleton.1 ho']
            exact not_lt_iff_isLE.2 Std.ReflCmp.isLE_rfl

/-- A new batch shows the rows after the cursor, from the first of them on. -/
theorem shown_batch (hsize : 0 < size)
    (hafter : ∀ o ∈ rows, compare last o.stream = .lt) :
    shown size size last rows = shown size 0 last rows := by
  obtain ⟨size, rfl⟩ := Nat.exists_eq_succ_of_ne_zero (Nat.ne_zero_of_lt hsize)
  cases rows with
  | nil => rfl
  | cons o rest =>
    rw [shown_of_lt (hafter o List.mem_cons_self)]
    rfl

/-- The rows that a batch has room for are shown. -/
theorem mem_shown_of_mem_take (h : o ∈ rows.take room) : o ∈ shown size room last rows := by
  induction rows generalizing room last with
  | nil =>
    rw [List.take_nil] at h
    exact absurd h List.not_mem_nil
  | cons a rest ih =>
    cases room with
    | zero => exact absurd h List.not_mem_nil
    | succ room =>
      rw [List.take_succ_cons, List.mem_cons] at h
      rcases h with rfl | h
      · exact List.mem_cons_self
      · exact List.mem_cons_of_mem _ (ih h)

/-- A batch is fetched of the rows ahead, or one of them cannot be read. -/
theorem fetch_of_ahead (h : l.Ahead s room rows) (hempty : l.buffer = [])
    (hmore : l.exhausted = false) :
    (∃ l' room' rows', l.fetch s = .ok l' ∧ l'.Ahead s room' rows' ∧
      l.upcoming room rows = l'.upcoming room' rows' ∧ rows'.length ≤ rows.length ∧
      (l'.buffer = [] → l'.upcoming room' rows' = [])) ∨
    (l.fetch s = .error (.storage .listPending) ∧
      ∃ o ∈ l.upcoming room rows, o.listed? true true = none) := by
  obtain ⟨pre, post, hsplit, hlines, -, -, hfull⟩ := h.fetched
  obtain ⟨before, hturns, hbefore⟩ := h.after
  -- nothing is fetched, and the batch has shown all it had room for
  rw [hempty] at hlines
  cases hlines
  obtain rfl : room = 0 := (hfull hmore).symm
  have hascending := ascending_pendingOf s l.request.location
  rw [hturns] at hascending
  obtain ⟨passed, hpassed, hnot⟩ :=
    exists_passed (List.pairwise_append.1 hascending).2.1 l.request.cursor
  have hnext : l.rows s = rows.filter fun o => decide (compare l.request.cursor o.stream = .lt) := by
    have hnone : before.filter (fun o => decide (compare l.request.cursor o.stream = .lt)) = [] :=
      List.filter_eq_nil_iff.2 fun o ho => by simpa using hbefore o ho
    rw [rows_eq, hturns, List.filter_append, hnone, List.nil_append]
  rw [← hnext] at hpassed
  have hafter : ∀ o ∈ l.rows s, compare l.request.cursor o.stream = .lt := by
    intro o ho
    rw [hnext, List.mem_filter, decide_eq_true_eq] at ho
    exact ho.2
  have hupcoming : l.upcoming 0 rows = l.upcoming l.request.batchSize (l.rows s) := by
    unfold upcoming
    rw [shown_batch h.batch hafter]
    conv_lhs => rw [hpassed]
    exact shown_append_of_not_lt hnot
  have hbatch := h.batch
  unfold fetch
  cases hlisted : ((l.rows s).take l.request.batchSize).mapM (·.listed? true true) with
  | none =>
    obtain ⟨o, ho, hline⟩ := Option.exists_of_mapM_eq_none hlisted
    refine .inr ⟨rfl, o, ?_, hline⟩
    rw [hupcoming]
    exact mem_shown_of_mem_take ho
  | some buffer =>
    have hfetched := Option.mapM_eq_some_iff.1 hlisted
    have hlength := hfetched.length_eq
    rw [List.length_take] at hlength
    refine .inl ⟨_, l.request.batchSize, l.rows s, rfl, ⟨h.batch, ?_, ?_⟩, hupcoming, ?_, ?_⟩
    · refine ⟨_, _, (List.take_append_drop l.request.batchSize _).symm, hfetched,
        List.length_take_le _ _, fun hex => ?_, fun hmore => ?_⟩
      · -- a batch that is not full is the last one
        have hshort : buffer.length < l.request.batchSize := of_decide_eq_true hex
        exact List.drop_eq_nil_of_le (by omega)
      · have hlong : ¬ buffer.length < l.request.batchSize := of_decide_eq_false hmore
        rw [List.length_take]
        omega
    · refine ⟨before ++ passed, ?_, fun o ho => ?_⟩
      · rw [List.append_assoc, ← hpassed]
        exact hturns
      · rcases List.mem_append.1 ho with ho | ho
        · exact hbefore o ho
        · exact hnot o ho
    · rw [hnext]
      exact List.length_filter_le _ _
    · rintro (rfl : buffer = [])
      rw [List.length_nil] at hlength
      have hnil : l.rows s = [] := List.length_eq_zero_iff.1 (by omega)
      rw [hnil]
      unfold upcoming
      cases l.request.batchSize <;> rfl

/-- **Each step of a listing shows the next upload,** unless one of those ahead cannot be read. -/
theorem steps_next (h : l.Ahead s room rows) : l.Steps s room rows (l.next (some s)) := by
  unfold next
  cases hneeds : l.buffer.isEmpty && !l.exhausted with
  | true =>
    rw [if_pos rfl]
    rw [Bool.and_eq_true, List.isEmpty_iff, Bool.not_eq_true'] at hneeds
    dsimp only
    rcases fetch_of_ahead h hneeds.1 hneeds.2 with ⟨l', room', rows', hfetch, hahead, hrows, hle,
      hend⟩ | ⟨hfetch, o, ho, hline⟩
    · rw [hfetch]
      exact steps_take hahead hrows hle hend
    · rw [hfetch]
      exact .failed ho hline
  | false =>
    rw [if_neg Bool.false_ne_true]
    refine steps_take h rfl le_rfl fun hempty => ?_
    -- with nothing fetched the listing is exhausted, so nothing lies behind
    rw [hempty] at hneeds
    obtain ⟨pre, post, hsplit, hlines, -, hexhausted, -⟩ := h.fetched
    rw [hempty] at hlines
    cases hlines
    rw [hsplit, hexhausted (by simpa using hneeds)]
    unfold upcoming
    cases room <;> rfl

/-! ## Runs -/

/-- The lines of rows, or a failure if one of them cannot be read. -/
def lines (rows : List ObjectRow) : Except Error (List Entry) :=
  match rows.mapM (·.listed? true true) with
  | some es => .ok es
  | none => .error (.storage .listPending)

theorem lines_cons {e : Entry} {rest : List ObjectRow} (hline : o.listed? true true = some e) :
    lines (o :: rest) = lines rest >>= fun es => pure (e :: es) := by
  unfold lines
  rw [List.mapM_cons, hline]
  cases rest.mapM (·.listed? true true) <;> rfl

theorem lines_of_none (ho : o ∈ rows) (hline : o.listed? true true = none) :
    lines rows = .error (.storage .listPending) := by
  unfold lines
  cases hlisted : rows.mapM (·.listed? true true) with
  | none => rfl
  | some es =>
    obtain ⟨e, -, he⟩ := exists_of_forall₂_left (Option.mapM_eq_some_iff.1 hlisted) ho
    rw [hline] at he
    cases he

/-- **A listing gives out the lines of the uploads that it shows,** and ends. -/
theorem drain_of_ahead (h : l.Ahead s room rows) {limit : Nat} (hlimit : rows.length < limit) :
    l.drain (some s) limit = lines (l.upcoming room rows) := by
  induction limit generalizing l room rows with
  | zero => exact absurd hlimit (Nat.not_lt_zero _)
  | succ limit ih =>
    unfold drain
    cases hnext : l.next (some s) with
    | mk outcome l' =>
      have hsteps := steps_next h
      rw [hnext] at hsteps
      cases hsteps with
      | ended hnone =>
        rw [hnone]
        rfl
      | failed ho hline =>
        rw [lines_of_none ho hline]
        rfl
      | shown hline hfewer hrows hahead =>
        rw [hrows, lines_cons hline]
        dsimp only
        rw [ih hahead (by omega)]

end PendingListing

/-! ## Requests -/

namespace ListPending

variable {r : ListPending} {s : Store} {o : ObjectRow}

/-- The pending rows of the key after the cursor of a request, in turn. -/
def rows (r : ListPending) (s : Store) : List ObjectRow :=
  (s.pendingOf r.location).filter fun o => decide (compare r.cursor o.stream = .lt)

/-- The rows that are shown of them. -/
def shown (r : ListPending) (s : Store) : List ObjectRow :=
  PendingListing.shown (listBatch r.batchSize) 0 r.cursor (r.rows s)

theorem mem_rows : o ∈ r.rows s ↔ o ∈ s.objects.rows ∧ o.location = r.location ∧
    o.hasStatus .pending = true ∧ compare r.cursor o.stream = .lt := by
  rw [rows, List.mem_filter, mem_pendingOf, decide_eq_true_eq]
  simp only [and_assoc]

theorem ascending_rows (r : ListPending) (s : Store) : Ascending ObjectRow.turn (r.rows s) :=
  (ascending_pendingOf s r.location).filter _

/-- **Every stream id is shown.** -/
theorem exists_shown (ho : o ∈ r.rows s) : ∃ o' ∈ r.shown s, o'.stream = o.stream := by
  have hlast : ∀ o ∈ r.rows s, (compare r.cursor o.stream).isLE = true := by
    intro o ho
    rw [(mem_rows.1 ho).2.2.2]
    rfl
  refine (PendingListing.exists_shown 0 (r.ascending_rows s) hlast o ho).resolve_left fun hsame => ?_
  have hlt := (mem_rows.1 ho).2.2.2
  rw [hsame] at hlt
  exact not_lt_iff_isLE.2 Std.ReflCmp.isLE_rfl hlt

/-- Rows that follow one another are in order of stream id, unless they have the same. -/
theorem lt_of_ne {i : Nat} {o o' : ObjectRow} (ho : (r.rows s)[i]? = some o)
    (ho' : (r.rows s)[i + 1]? = some o') (hne : o.stream ≠ o'.stream) :
    compare o.stream o'.stream = .lt := by
  obtain ⟨hi, rfl⟩ := List.getElem?_eq_some_iff.1 ho
  obtain ⟨hi', rfl⟩ := List.getElem?_eq_some_iff.1 ho'
  have hturn := List.pairwise_iff_getElem.1 (r.ascending_rows s) i (i + 1) hi hi' (Nat.lt_succ_self i)
  exact (ObjectRow.turn_lt_iff.1 hturn).resolve_right fun hsame => hne hsame.1

/-- **Nothing is passed over just when no full batch ends between two rows of one stream id.** -/
theorem shown_eq_rows_iff : r.shown s = r.rows s ↔
    ∀ i o o', listBatch r.batchSize ∣ i + 1 → (r.rows s)[i]? = some o →
      (r.rows s)[i + 1]? = some o' → o.stream ≠ o'.stream := by
  have hsize := Listing.listBatch_pos r.batchSize
  rw [shown, PendingListing.shown_eq_self_iff hsize]
  constructor
  · intro h i o o' hi ho ho' heq
    have hlt := h (i + 1) o.stream o' (Nat.mod_eq_zero_of_dvd hi) (by simp [ho]) ho'
    rw [heq] at hlt
    exact not_lt_iff_isLE.2 Std.ReflCmp.isLE_rfl hlt
  · intro h i x o hi hx ho
    cases i with
    | zero =>
      cases hx
      exact (mem_rows.1 (List.mem_of_getElem? ho)).2.2.2
    | succ i =>
      rw [List.getElem?_cons_succ, List.getElem?_map, Option.map_eq_some_iff] at hx
      obtain ⟨o₀, ho₀, rfl⟩ := hx
      exact lt_of_ne ho₀ ho (h i o₀ o (Nat.dvd_of_mod_eq_zero hi) ho₀ ho)

/-- **Nothing is passed over for any size of a batch just when the rows have different stream ids.** -/
theorem shown_eq_rows_for_all_iff :
    (∀ n, ({ r with batchSize := n } : ListPending).shown s = r.rows s) ↔
      ((r.rows s).map (·.stream)).Nodup := by
  constructor
  · intro h
    -- batches of one row end after each of them
    have hone := shown_eq_rows_iff.1 (h 1)
    have hchain : List.IsChain (fun a b : ObjectRow => compare a.stream b.stream = .lt) (r.rows s) := by
      refine List.isChain_iff_getElem.2 fun i hi => ?_
      have ho : (r.rows s)[i]? = some (r.rows s)[i] := List.getElem?_eq_getElem _
      have ho' : (r.rows s)[i + 1]? = some (r.rows s)[i + 1] := List.getElem?_eq_getElem hi
      exact lt_of_ne ho ho' (hone i _ _ (Nat.one_dvd _) ho ho')
    have : Trans (fun a b : ObjectRow => compare a.stream b.stream = .lt)
        (fun a b : ObjectRow => compare a.stream b.stream = .lt)
        (fun a b : ObjectRow => compare a.stream b.stream = .lt) := ⟨Std.TransCmp.lt_trans⟩
    exact List.pairwise_map.2 (hchain.pairwise.imp fun hlt => ne_of_compare_lt hlt)
  · intro hnodup n
    refine shown_eq_rows_iff.2 fun i o o' _ ho ho' heq => ?_
    have hi' : i + 1 < ((r.rows s).map (·.stream)).length := by
      rw [List.length_map]
      exact (List.getElem?_eq_some_iff.1 ho').1
    refine List.nodup_iff_getElem?_ne_getElem?.1 hnodup i (i + 1) (Nat.lt_succ_self i) hi' ?_
    have hrow : (r.rows s)[i]? = some o := ho
    have hrow' : (r.rows s)[i + 1]? = some o' := ho'
    rw [List.getElem?_map, List.getElem?_map, hrow, hrow', Option.map_some, Option.map_some, heq]

end ListPending

/-! ## Calls -/

/-- The id of zeros is below all others. -/
theorem Id.zero_lt {kind : IdKind} {x : Id kind} (h : x.isZero = false) :
    compare Id.zero x = .lt := by
  cases hcompare : compare Id.zero x with
  | lt => rfl
  | eq => exact absurd (Std.LawfulEqOrd.eq_of_compare hcompare).symm (of_decide_eq_false h)
  | gt => exact absurd hcompare (Id.compare_zero_ne_gt x)

/-- What a handle gets when it lists the uploads of a key. -/
def Site.pendingListing (σ : Site) (h : Handle) (r : ListPending) : Except Error (List Entry) :=
  ((σ.catalog h).run (Catalog.listPending r)).1

variable {σ : Site} {s : Store} {h : Handle} {r : ListPending} {allow : Store → StreamId → Prop}

/-- A listing that has just started. -/
def PendingListing.started (r : ListPending) : PendingListing :=
  { request := { r with batchSize := listBatch r.batchSize } }

/-- A request is valid when its location is, and then its listing starts. -/
theorem PendingListing.start_eq (r : ListPending) :
    start r = r.location.check >>= fun _ => pure (started r) := rfl

/-- A listing starts with all the uploads of its key before it, and shows those of its request. -/
theorem PendingListing.ahead_started (r : ListPending) (s : Store) :
    (started r).Ahead s 0 (s.pendingOf r.location) ∧
      (started r).upcoming 0 (s.pendingOf r.location) = r.shown s := by
  constructor
  · have hbatch := Listing.listBatch_pos r.batchSize
    exact ⟨hbatch, ⟨[], _, rfl, .nil, le_rfl, fun h => (by cases h), fun _ => rfl⟩,
      ⟨[], rfl, fun _ ho => absurd ho List.not_mem_nil⟩⟩
  · obtain ⟨passed, hpassed, hnot⟩ := exists_passed (ascending_pendingOf s r.location) r.cursor
    show shown (listBatch r.batchSize) 0 r.cursor (s.pendingOf r.location) = r.shown s
    rw [hpassed]
    exact shown_append_of_not_lt hnot

theorem PendingListing.drain_started (r : ListPending) (s : Store) {limit : Nat}
    (hlimit : s.objects.rows.length < limit) :
    (started r).drain (some s) limit = lines (r.shown s) := by
  obtain ⟨hahead, hupcoming⟩ := ahead_started r s
  have hle : (s.pendingOf r.location).length ≤ s.objects.rows.length := by
    rw [pendingOf, List.length_mergeSort]
    exact (List.filter_sublist.trans List.filter_sublist).length_le
  rw [drain_of_ahead hahead (by omega), hupcoming]

/-- A call is the listing of its request, which ends by the number of rows. -/
theorem Site.pendingListing_eq (hs : σ.store = some s) (h : Handle) (r : ListPending) :
    σ.pendingListing h r = r.location.check >>= fun _ => PendingListing.lines (r.shown s) := by
  have hcount : (σ.catalog h).rowCount = s.objects.rows.length := by
    show σ.store.elim 0 _ = _
    rw [hs]
    rfl
  have hstore : (σ.catalog h).store = some s := hs
  unfold pendingListing Catalog.listPending
  rw [Catalog.run_lift_bind, PendingListing.start_eq]
  cases r.location.check with
  | error e => rfl
  | ok _ =>
    rw [Except.ok_bind, Except.ok_bind]
    dsimp only [pure, Except.pure]
    rw [Catalog.run_get_bind, hstore, hcount]
    exact PendingListing.drain_started r s (Nat.lt_succ_self _)

/-- **What the listing of the uploads of a key gives out at a reachable site.** Its rows are the pending
ones of the key after the cursor, in order of stream id and version; those of a listing without cursor
are all pending rows of the key. It shows some of them, at least one for each stream id, and fails just
when one that it shows is the row of a start at the version after the greatest one, which cannot be
read. It shows all of them just when no full batch ends between two rows of one stream id. So it shows
all of them whatever the size of a batch just when their stream ids differ. -/
theorem Site.Reachable.pending_listing_exact (hσ : σ.Reachable allow) (hs : σ.store = some s)
    (h : Handle) (r : ListPending) :
    (Ascending ObjectRow.turn (r.rows s) ∧
      ∀ o, o ∈ r.rows s ↔ o ∈ s.objects.rows ∧ o.location = r.location ∧
        o.hasStatus .pending = true ∧ (r.cursor = .zero ∨ compare r.cursor o.stream = .lt)) ∧
    (∀ e, r.location.check = .error e → σ.pendingListing h r = .error e) ∧
    (r.location.check = .ok () →
      (∃ es, (r.shown s).mapM (·.listed? true true) = some es ∧ σ.pendingListing h r = .ok es) ∨
        σ.pendingListing h r = .error (.storage .listPending) ∧ ∃ o ∈ r.shown s, o.Overrun) ∧
    (∀ l limit, PendingListing.start r = .ok l → s.objects.rows.length < limit →
      l.drain σ.store limit = σ.pendingListing h r) ∧
    (r.shown s).Sublist (r.rows s) ∧ (∀ o ∈ r.rows s, ∃ o' ∈ r.shown s, o'.stream = o.stream) ∧
    (r.shown s = r.rows s ↔
      ∀ i o o', listBatch r.batchSize ∣ i + 1 → (r.rows s)[i]? = some o →
        (r.rows s)[i + 1]? = some o' → o.stream ≠ o'.stream) ∧
    ((∀ n, ({ r with batchSize := n } : ListPending).shown s = r.rows s) ↔
      ((r.rows s).map (·.stream)).Nodup) := by
  have hlisting := Site.pendingListing_eq hs h r
  refine ⟨⟨r.ascending_rows s, fun o => ?_⟩, fun e he => ?_, fun hcheck => ?_,
    fun l limit hstart hlimit => ?_, PendingListing.shown_sublist _ _ _ _,
    fun o ho => ListPending.exists_shown ho, ListPending.shown_eq_rows_iff,
    ListPending.shown_eq_rows_for_all_iff⟩
  case refine_1 =>
    rw [ListPending.mem_rows]
    refine and_congr_right fun ho => and_congr_right fun _ => and_congr_right fun _ => ?_
    refine ⟨.inr, fun hafter => hafter.elim (fun hzero => ?_) id⟩
    rw [hzero]
    exact Id.zero_lt (hσ.wellFormed hs o ho).stream
  case refine_2 =>
    rw [hlisting, he]
    rfl
  case refine_3 =>
    rw [hlisting, hcheck, Except.ok_bind]
    unfold PendingListing.lines
    cases hlines : (r.shown s).mapM (·.listed? true true) with
    | some es => exact .inl ⟨es, rfl, rfl⟩
    | none =>
      obtain ⟨o, ho, hline⟩ := Option.exists_of_mapM_eq_none hlines
      have hrow := (PendingListing.shown_sublist _ _ _ _).subset ho
      have hover := (hσ.legible hs).overrun_of_listed? (ListPending.mem_rows.1 hrow).1 hline
      exact .inr ⟨rfl, o, ho, hover⟩
  case refine_4 =>
    rw [PendingListing.start_eq] at hstart
    obtain ⟨_, hcheck, hstarted⟩ := Except.bind_eq_ok.1 hstart
    cases hstarted
    rw [hlisting, hcheck, hs]
    exact PendingListing.drain_started r s hlimit

/-! ### Two versions of a key under one stream id, and under two -/

namespace Sample

/-- A site with uploads of two versions of a key. -/
def twoVersions (stream : Nat) : Site := Site.fresh.run
  [.opening {}, .call 0 moment (begin (identity 1 1)),
    .call 0 moment (begin { identity 1 stream with version := 2 })]

/-- The uploads of the key. -/
def uploadsOf (batchSize : Nat) : ListPending :=
  { location := (identity 1 1).location, batchSize }

theorem reachable_twoVersions (stream : Nat) : (twoVersions stream).Reachable fun _ _ => True :=
  Site.Reachable.fresh.run_any _

/-- The uploads of the key as they stand. -/
def standing (s : Store) : List ObjectRow :=
  (s.versionsOf (identity 1 1).location).filter (·.hasStatus .pending)

theorem rows_uploadsOf {s : Store} (n : Nat)
    (h : (standing s).Pairwise fun a b => (compare a.stream b.stream).isLE = true) :
    (uploadsOf n).rows s = (standing s).filter fun o => decide (compare .zero o.stream = .lt) := by
  have hpending : s.pendingOf (uploadsOf n).location = standing s := pendingOf_of_pairwise h
  unfold ListPending.rows
  rw [hpending]
  rfl

/-- The versions that are listed of them, a number at a time. -/
def listedOf (n : Nat) (s : Store) : Except Error (List Int64) :=
  (PendingListing.lines (PendingListing.shown (listBatch n) 0 .zero
    ((standing s).filter fun o => decide (compare .zero o.stream = .lt)))).map (List.map (·.version))

end Sample

/-- Under one stream id both are listed when they are fetched together. When they are fetched one by
one the second is passed over. -/
theorem Sample.pending_passed_over : ∃ h ∈ (twoVersions 1).handles,
    ((twoVersions 1).pendingListing h (uploadsOf 2)).map (List.map (·.version)) = .ok [1, 2] ∧
      ((twoVersions 1).pendingListing h (uploadsOf 1)).map (List.map (·.version)) = .ok [1] := by
  obtain ⟨s, hstands⟩ := (reachable_twoVersions 1).stands
  have hget := getElem?_handles (σ := twoVersions 1) (by decide +kernel)
  have hstanding : (twoVersions 1).store.all (fun s => decide
      (((standing s).Pairwise fun a b => (compare a.stream b.stream).isLE = true) ∧
        (listedOf 2 s).toOption = some [1, 2] ∧ (listedOf 1 s).toOption = some [1])) = true := by
    decide +kernel
  rw [hstands.store, Option.all_some, decide_eq_true_eq] at hstanding
  obtain ⟨hsorted, htwo, hone⟩ := hstanding
  have hlisted : ∀ n, ((twoVersions 1).pendingListing (handleOf (twoVersions 1))
      (uploadsOf n)).map (List.map (·.version)) = listedOf n s := by
    intro n
    rw [Site.pendingListing_eq hstands.store, ListPending.shown, rows_uploadsOf n hsorted]
    rfl
  exact ⟨_, List.mem_of_getElem? hget, (hlisted 2).trans (Except.eq_ok_of_toOption htwo),
    (hlisted 1).trans (Except.eq_ok_of_toOption hone)⟩

/-- Under two stream ids both are shown, whatever the size of a batch. -/
theorem Sample.pending_listing_exact_two : ∃ s, (twoVersions 2).store = some s ∧
    ∀ n, ((uploadsOf n).shown s).map (·.stream) = [.ofNat 1, .ofNat 2] := by
  obtain ⟨s, hstands⟩ := (reachable_twoVersions 2).stands
  have hget := getElem?_handles (σ := twoVersions 2) (by decide +kernel)
  have hstanding : (twoVersions 2).store.all (fun s => decide
      (((standing s).Pairwise fun a b => (compare a.stream b.stream).isLE = true) ∧
        ((standing s).filter fun o => decide (compare .zero o.stream = .lt)).map (·.stream) =
          [.ofNat 1, .ofNat 2])) = true := by decide +kernel
  rw [hstands.store, Option.all_some, decide_eq_true_eq] at hstanding
  obtain ⟨hsorted, hstreams⟩ := hstanding
  rw [← rows_uploadsOf 0 hsorted] at hstreams
  obtain ⟨-, -, -, -, -, -, -, hall⟩ := Site.Reachable.pending_listing_exact
    (reachable_twoVersions 2) hstands.store (handleOf (twoVersions 2)) (uploadsOf 0)
  have hnodup : (((uploadsOf 0).rows s).map (·.stream)).Nodup := by
    rw [hstreams]
    decide
  refine ⟨s, hstands.store, fun n => ?_⟩
  rw [← hstreams]
  exact congrArg (List.map (·.stream)) (hall.2 hnodup n)

end ObjectCatalog
