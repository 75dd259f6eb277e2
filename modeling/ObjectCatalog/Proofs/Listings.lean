import ObjectCatalog.Proofs.Listed

/-!
# Listings

A listing under way has fetched some of the rows before it. It gives out the first of them, under the
name of its group if it has one, and passes over the others of the group, fetched or not. So what is
before it shrinks as the rows of its request do when heads are taken off, whatever the size of a
batch.

* `Listing.Ahead`: what a listing has fetched and what lies behind that are the rows after a place.
* `Listing.ahead_started`, `Listing.steps_next`: **a listing starts with the rows of its request, and
  each step takes a head off.**
* `Listing.drain_of_ahead`: **a listing gives out the heads of the rows before it.**
* `Listing.drain_congr`: a listing ends.
-/

namespace ObjectCatalog

/-! ## Lists of values that may be missing -/

section Missing

variable {α β : Type} {f : α → Option β} {l : List α} {r : List β}

theorem Option.mapM_eq_some_iff :
    l.mapM f = some r ↔ List.Forall₂ (fun a b => f a = some b) l r := by
  induction l generalizing r with
  | nil =>
    rw [List.mapM_nil, List.forall₂_nil_left_iff]
    exact ⟨fun h => (Option.some.inj h).symm, fun h => by rw [h]; rfl⟩
  | cons a l ih =>
    rw [List.mapM_cons, List.forall₂_cons_left_iff, Option.bind_eq_bind, Option.bind_eq_some_iff]
    constructor
    · rintro ⟨b, hb, h⟩
      obtain ⟨bs, hbs, h⟩ := Option.bind_eq_some_iff.1 h
      exact ⟨b, bs, hb, ih.1 hbs, (Option.some.inj h).symm⟩
    · rintro ⟨b, bs, hb, hbs, rfl⟩
      exact ⟨b, hb, Option.bind_eq_some_iff.2 ⟨bs, ih.2 hbs, rfl⟩⟩

theorem Option.exists_of_mapM_eq_none (h : l.mapM f = none) : ∃ a ∈ l, f a = none := by
  induction l with
  | nil => cases h
  | cons a l ih =>
    rw [List.mapM_cons] at h
    cases ha : f a with
    | none => exact ⟨a, List.mem_cons_self, ha⟩
    | some b =>
      cases hl : l.mapM f with
      | none =>
        obtain ⟨a', ha', hnone⟩ := ih hl
        exact ⟨a', List.mem_cons_of_mem _ ha', hnone⟩
      | some bs =>
        rw [ha, hl] at h
        cases h

theorem Option.mapM_map {γ : Type} {g : β → γ} {f' : α → Option γ}
    (h : ∀ a ∈ l, f' a = (f a).map g) : l.mapM f' = (l.mapM f).map (List.map g) := by
  induction l with
  | nil => rfl
  | cons a l ih =>
    rw [List.mapM_cons, List.mapM_cons, h a List.mem_cons_self,
      ih fun x hx => h x (List.mem_cons_of_mem _ hx)]
    cases f a with
    | none => rfl
    | some b => cases l.mapM f <;> rfl

/-- Related lists that are tested alike drop related beginnings. -/
theorem forall₂_dropWhile {R : α → β → Prop} {p : α → Bool} {q : β → Bool}
    (hpq : ∀ a b, R a b → p a = q b) (h : List.Forall₂ R l r) :
    List.Forall₂ R (l.dropWhile p) (r.dropWhile q) := by
  induction h with
  | nil => exact .nil
  | @cons a b l r hab h ih =>
    rw [List.dropWhile_cons, List.dropWhile_cons, hpq a b hab]
    split
    · exact ih
    · exact .cons hab h

theorem exists_of_forall₂_getElem? {R : α → β → Prop} (h : List.Forall₂ R l r) {k : Nat} {b : β}
    (hk : r[k]? = some b) : ∃ a, l[k]? = some a ∧ R a b := by
  induction h generalizing k with
  | nil => cases hk
  | @cons a b' l r hab h ih =>
    cases k with
    | zero =>
      cases hk
      exact ⟨a, rfl, hab⟩
    | succ k => exact ih hk

theorem pairwise_of_forall₂ {R : α → β → Prop} {P : α → α → Prop} {Q : β → β → Prop}
    (hPQ : ∀ a a' b b', R a b → R a' b' → P a a' → Q b b') (h : List.Forall₂ R l r)
    (hl : l.Pairwise P) : r.Pairwise Q := by
  induction h with
  | nil => exact .nil
  | @cons a b l r hab h ih =>
    obtain ⟨hfirst, hrest⟩ := List.pairwise_cons.1 hl
    refine List.pairwise_cons.2 ⟨fun b' hb' => ?_, ih hrest⟩
    obtain ⟨a', ha', hab'⟩ := Except.exists_of_forall₂ h hb'
    exact hPQ a a' b b' hab hab' (hfirst a' ha')

end Missing

/-! ## Lines -/

variable {s : Store} {o : ObjectRow} {e : Entry}

theorem int64?_eq_some {v : Int} {w : Int64} (h : int64? v = some w) : w.toInt = v := by
  unfold int64? at h
  split at h
  · next hfits =>
    cases h
    exact Int64.toInt_ofInt_of_le (by omega) (by omega)
  · cases h

/-- The line of a row has its key, its version and its stream id. -/
theorem ObjectRow.of_listed? {custom system : Bool} (h : o.listed? custom system = some e) :
    e.key = o.location.key ∧ e.version.toInt = o.version ∧ e.isGroup = false ∧
      e.stream = o.stream := by
  unfold listed? at h
  simp only [Option.bind_eq_bind, Option.bind_eq_some_iff] at h
  obtain ⟨version, hversion, status, -, h⟩ := h
  have htoInt := int64?_eq_some hversion
  cases system with
  | false =>
    cases h
    exact ⟨rfl, htoInt, rfl, rfl⟩
  | true =>
    rw [if_pos rfl] at h
    obtain ⟨_, -, h⟩ := Option.bind_eq_some_iff.1 h
    obtain ⟨_, -, h⟩ := Option.bind_eq_some_iff.1 h
    cases h
    exact ⟨rfl, htoInt, rfl, rfl⟩

/-- The line of a row is that of its object. A row of no object has no line, whichever columns are
asked for. -/
theorem Store.Legible.listed?_eq (hs : s.Legible) (ho : o ∈ s.objects.rows) (custom system : Bool) :
    o.listed? custom system = o.view?.map fun object => object.entry.narrow custom system := by
  rcases hs.readable o ho with hread | hover
  · obtain ⟨object, hobject⟩ := Option.isSome_iff_exists.1 hread
    rw [ObjectRow.listed?_of_view? hobject, hobject]
    rfl
  · rw [hover.listed?_eq, hover.view?_eq]
    rfl

theorem Store.Legible.overrun_of_listed? (hs : s.Legible) (ho : o ∈ s.objects.rows)
    {custom system : Bool} (h : o.listed? custom system = none) : o.Overrun := by
  refine (hs.readable o ho).resolve_left fun hread => ?_
  obtain ⟨object, hobject⟩ := Option.isSome_iff_exists.1 hread
  rw [ObjectRow.listed?_of_view? hobject] at h
  cases h

namespace Listing

variable {l l' : Listing} {r : ListObjects} {rows rest : List ObjectRow} {c : ListCursor} {g : Bytes}

/-- The line of a row, with the columns that a listing asks for. -/
def line? (l : Listing) (o : ObjectRow) : Option Entry :=
  o.listed? l.request.includeCustomMetadata l.request.includeSystemMetadata

/-- The rows that a listing has before it when the tables stay as they are: those it has fetched, and
those behind them. They are the rows after a place, which is the cursor when none are fetched. -/
structure Ahead (l : Listing) (s : Store) (rows : List ObjectRow) : Prop where
  batch : 0 < l.request.batchSize
  fetched : ∃ pre post, rows = pre ++ post ∧
    List.Forall₂ (fun o e => l.line? o = some e) pre l.buffer ∧ (l.exhausted = true → post = [])
  after : ∃ c, rows = l.request.rowsAfter s c ∧
    (l.buffer = [] → l.exhausted = false → c = l.cursor)

/-- What a listing selects are the rows its request covers after its cursor. -/
theorem selects_iff :
    l.selects o = true ↔ l.request.Covers o ∧ compare l.cursor o.place = .lt := by
  have hlead : l.request.lead <+: o.location.key ↔
      (compare l.request.lead o.location.key).isLE = true ∧
        (l.request.lead.above?.all fun u => decide (compare o.location.key u = .lt)) = true := by
    simp only [Bytes.prefix_iff, Option.all_eq_true, decide_eq_true_eq]
  unfold selects
  simp only [Bool.and_eq_true, decide_eq_true_eq]
  constructor
  · rintro ⟨⟨⟨⟨⟨hproject, hbucket⟩, hstatus⟩, hle⟩, hlt⟩, hafter⟩
    exact ⟨⟨hproject, hbucket, hstatus, hlead.2 ⟨hle, hlt⟩⟩, hafter⟩
  · rintro ⟨hcovers, hafter⟩
    obtain ⟨hle, hlt⟩ := hlead.1 hcovers.lead
    exact ⟨⟨⟨⟨⟨hcovers.project, hcovers.bucket⟩, hcovers.status⟩, hle⟩, hlt⟩, hafter⟩

theorem filter_selects (l : Listing) (s : Store) :
    s.objects.rows.filter l.selects = l.request.rowsAfter s l.cursor := by
  refine List.filter_congr fun o _ => ?_
  rw [Bool.eq_iff_iff, selects_iff, decide_eq_true_eq]

/-! ## Steps -/

theorem request_skipGroup (l : Listing) (g : Bytes) : (l.skipGroup g).request = l.request := by
  unfold skipGroup
  dsimp only
  split
  · split <;> rfl
  · rfl

/-- The fetched lines of a group are those of its rows. -/
theorem forall₂_dropGroup {pre : List ObjectRow} {buffer : List Entry}
    (hgroup : l.request.group? c.key = some g)
    (h : List.Forall₂ (fun o e => l.line? o = some e) pre buffer) :
    List.Forall₂ (fun o e => l.line? o = some e)
      (pre.dropWhile fun o => decide (l.request.group? o.location.key = some g))
      (buffer.dropWhile fun e => (l.request.lead ++ g).isPrefixOf e.key) := by
  refine forall₂_dropWhile (fun o e he => ?_) h
  have hkey := (ObjectRow.of_listed? he).1
  rw [hkey, Bool.eq_iff_iff, decide_eq_true_eq, List.isPrefixOf_iff_prefix]
  exact ListObjects.group?_iff_begins hgroup

/-- **To pass over a group is to leave out its rows,** when the listing stands at a place in it. -/
theorem ahead_skipGroup (hpos : ∀ o ∈ s.objects.rows, 0 < o.version) (h : l.Ahead s rows)
    (hrows : rows = l.request.rowsAfter s c) (hgroup : l.request.group? c.key = some g) :
    (l.skipGroup g).Ahead s
      (rows.filter fun o => decide (l.request.group? o.location.key ≠ some g)) := by
  obtain ⟨limit, hlimit⟩ := ListObjects.exists_limit hgroup
  obtain ⟨pre, post, hsplit, hlines, hexhausted⟩ := h.fetched
  have hbehind : rows.filter (fun o => decide (l.request.group? o.location.key ≠ some g)) =
      l.request.rowsAfter s ⟨limit, 0⟩ := by
    rw [hrows, ListObjects.rowsAfter_limit hpos hgroup hlimit]
  have hdropped : rows.filter (fun o => decide (l.request.group? o.location.key ≠ some g)) =
      rows.dropWhile fun o => decide (l.request.group? o.location.key = some g) := by
    rw [hrows]
    exact ListObjects.filter_group hgroup (fun o ho => (ListObjects.mem_rowsAfter.1 ho).2.2)
      (ListObjects.ascending_rowsAfter _ _ _)
  have hlines' := forall₂_dropGroup hgroup hlines
  have hempty :
      (l.buffer.dropWhile fun e => (l.request.lead ++ g).isPrefixOf e.key).isEmpty = true ↔
        (pre.dropWhile fun o => decide (l.request.group? o.location.key = some g)).isEmpty = true := by
    rw [List.isEmpty_iff_length_eq_zero, List.isEmpty_iff_length_eq_zero, hlines'.length_eq]
  rw [hsplit, List.dropWhile_append] at hdropped
  unfold skipGroup
  dsimp only
  split
  · next hnone =>
    -- nothing fetched is left, and fetching goes on at the limit of the group
    rw [hempty] at hnone
    rw [if_pos hnone] at hdropped
    rw [hlimit]
    refine ⟨h.batch, ⟨[], _, rfl, ?_, fun hex => ?_⟩, ⟨_, hbehind, fun _ _ => rfl⟩⟩
    · rw [List.isEmpty_iff] at hnone
      rw [hnone] at hlines'
      exact hlines'
    · rw [hsplit, hdropped, hexhausted hex]
      rfl
  · next hsome =>
    -- the group ends within what is fetched, and the cursor does not count yet
    have hsome' := hsome
    rw [hempty] at hsome'
    rw [if_neg hsome'] at hdropped
    rw [hsplit] at hbehind ⊢
    refine ⟨h.batch, ⟨_, post, hdropped, hlines', hexhausted⟩, ⟨_, hbehind, fun hnil => ?_⟩⟩
    exact absurd (List.isEmpty_iff.2 hnil) hsome

/-- A batch has rows. -/
theorem listBatch_pos (n : Nat) : 0 < listBatch n := by
  unfold listBatch listBatchLimit
  split <;> omega

/-- A listing that stands at the cursor of its request. -/
def opened (r : ListObjects) : Listing :=
  { request := { r with batchSize := listBatch r.batchSize }, cursor := r.cursor }

/-- The listing of a request at its start: past the group of the cursor. -/
def started (r : ListObjects) : Listing :=
  match r.group? r.cursor.key with
  | some g => (opened r).skipGroup g
  | none => opened r

/-- A request is valid when it names a project and a bucket, and then its listing starts. -/
theorem start_eq_ok_iff :
    start r = .ok l ↔
      r.project.isZero = false ∧ r.bucket.isEmpty = false ∧ l = started r := by
  have hstart : start r = reject r.project.isZero .noProject >>= fun _ =>
      reject r.bucket.isEmpty .noBucket >>= fun _ => pure (started r) := by
    unfold start started ListObjects.group?
    split
    · rfl
    · cases (r.lead.after? r.cursor.key).bind groupOf? <;> rfl
  rw [hstart]
  simp only [Except.bind_eq_ok, reject_eq_ok]
  constructor
  · rintro ⟨_, hproject, _, hbucket, h⟩
    cases h
    exact ⟨hproject, hbucket, rfl⟩
  · rintro ⟨hproject, hbucket, rfl⟩
    exact ⟨(), hproject, (), hbucket, rfl⟩

theorem request_started (r : ListObjects) :
    (started r).request = { r with batchSize := listBatch r.batchSize } := by
  unfold started
  split
  · exact request_skipGroup _ _
  · rfl

/-- **A listing starts with the rows of its request before it.** -/
theorem ahead_started (hpos : ∀ o ∈ s.objects.rows, 0 < o.version) (r : ListObjects) :
    (started r).Ahead s ((started r).request.rows s) := by
  have hbatch := listBatch_pos r.batchSize
  have hahead : (opened r).Ahead s ((opened r).request.rowsAfter s (opened r).cursor) :=
    ⟨hbatch, ⟨[], _, rfl, .nil, fun h => by cases h⟩, ⟨_, rfl, fun _ _ => rfl⟩⟩
  unfold started
  cases hgroup : r.group? r.cursor.key with
  | none =>
    have hrows : (opened r).request.rows s = (opened r).request.rowsAfter s (opened r).cursor :=
      ListObjects.rows_of_no_group hgroup
    rw [← hrows] at hahead
    exact hahead
  | some g =>
    have hgroup' : (opened r).request.group? (opened r).cursor.key = some g := hgroup
    have hskipped := ahead_skipGroup hpos hahead rfl hgroup'
    have hrows : (opened r).request.rows s = _ := ListObjects.rows_of_group hgroup
    dsimp only
    rw [request_skipGroup, hrows]
    exact hskipped

theorem fetch_eq (l : Listing) (s : Store) :
    l.fetch s =
      match ((l.request.rowsAfter s l.cursor).take l.request.batchSize).mapM l.line? with
      | none => .error (.storage .listObjects)
      | some buffer =>
        .ok { l with buffer, exhausted := buffer.length < l.request.batchSize } := by
  rw [← filter_selects]
  rfl

/-- A batch is fetched of the rows ahead, or one of them cannot be read. -/
theorem fetch_of_ahead (h : l.Ahead s rows) (hempty : l.buffer = []) (hmore : l.exhausted = false) :
    (∃ l', l.fetch s = .ok l' ∧ l'.request = l.request ∧ l'.Ahead s rows ∧
      (l'.buffer = [] → rows = [])) ∨
    (l.fetch s = .error (.storage .listObjects) ∧ ∃ o ∈ rows, l.line? o = none) := by
  obtain ⟨c, hrows, hc⟩ := h.after
  have hc := hc hempty hmore
  rw [fetch_eq, ← hc, ← hrows]
  cases hlines : (rows.take l.request.batchSize).mapM l.line? with
  | none =>
    obtain ⟨o, ho, hline⟩ := Option.exists_of_mapM_eq_none hlines
    exact .inr ⟨rfl, o, List.mem_of_mem_take ho, hline⟩
  | some buffer =>
    have hfetched := Option.mapM_eq_some_iff.1 hlines
    have hlength := hfetched.length_eq
    rw [List.length_take] at hlength
    have hbatch := h.batch
    refine .inl ⟨_, rfl, rfl, ⟨h.batch, ⟨_, rows.drop l.request.batchSize,
      (List.take_append_drop _ _).symm, hfetched, fun hex => ?_⟩, ⟨c, hrows, fun _ _ => rfl⟩⟩, ?_⟩
    · -- a batch that is not full is the last one
      have hshort : buffer.length < l.request.batchSize := of_decide_eq_true hex
      exact List.drop_eq_nil_of_le (by omega)
    · rintro (rfl : buffer = [])
      rw [List.length_nil] at hlength
      exact List.length_eq_zero_iff.1 (by omega)

/-- What is taken out of a buffer that is empty only at the end: the first of the rows ahead, and
then the others of its group are passed over. -/
theorem take_of_ahead (hpos : ∀ o ∈ s.objects.rows, 0 < o.version) (h : l.Ahead s rows)
    (hend : l.buffer = [] → rows = []) :
    (rows = [] ∧ l.take = (none, l)) ∨
    ∃ o rest e l', rows = o :: rest ∧ l.line? o = some e ∧ l'.request = l.request ∧
      l.take = (some (l.request.shown o.location.key e), l') ∧
      l'.Ahead s (l.request.others o rest) := by
  obtain ⟨pre, post, hsplit, hlines, hexhausted⟩ := h.fetched
  obtain ⟨c, hrows, -⟩ := h.after
  unfold take
  cases hbuffer : l.buffer with
  | nil => exact .inl ⟨hend hbuffer, rfl⟩
  | cons e buffer =>
    right
    rw [hbuffer] at hlines
    cases hlines with
    | @cons o _ pre _ hline hlines =>
      obtain ⟨hkey, hversion, -⟩ := ObjectRow.of_listed? hline
      have hrest : pre ++ post = l.request.rowsAfter s o.place := by
        have hsplit' : l.request.rowsAfter s c = [] ++ o :: (pre ++ post) := by
          rw [← hrows, hsplit]
          rfl
        exact (ListObjects.rowsAfter_of_append hsplit').symm
      have ho : o ∈ l.request.rowsAfter s c := by
        rw [← hrows, hsplit]
        exact List.mem_cons_self
      obtain ⟨-, hcovers, -⟩ := ListObjects.mem_rowsAfter.1 ho
      -- the listing stands at the row that is taken
      let l₁ : Listing := { l with buffer, cursor := ⟨e.key, e.version.toInt⟩ }
      have hcursor : l₁.cursor = o.place := by
        show (⟨e.key, e.version.toInt⟩ : ListCursor) = o.place
        rw [hkey, hversion]
        rfl
      have hahead : l₁.Ahead s (pre ++ post) :=
        ⟨h.batch, ⟨pre, post, rfl, hlines, hexhausted⟩, ⟨_, hrest, fun _ _ => hcursor.symm⟩⟩
      have hgroup : (if l.request.recursive = true then none
          else groupOf? (e.key.drop l.request.lead.length)) = l.request.group? o.location.key := by
        rw [hkey, ListObjects.group?_of_lead hcovers.lead]
      refine ⟨o, pre ++ post, e, ?_⟩
      unfold ListObjects.shown ListObjects.others
      dsimp only
      rw [hgroup]
      cases hcase : l.request.group? o.location.key with
      | none =>
        have hplain : ({ e with key := e.key.drop l.request.lead.length } : Entry) =
            { e with key := o.location.key.drop l.request.lead.length } := by rw [hkey]
        exact ⟨l₁, hsplit, hline, rfl, congrArg (fun e => (some e, l₁)) hplain, hahead⟩
      | some g =>
        exact ⟨l₁.skipGroup g, hsplit, hline, request_skipGroup l₁ g, rfl,
          ahead_skipGroup hpos hahead hrest hcase⟩

/-- What a step of a listing can be when some rows are before it: it ends, shows the first of them, or
fails at one that cannot be read and stays where it is. -/
inductive Steps (l : Listing) (s : Store) :
    List ObjectRow → Except Error (Option Entry) × Listing → Prop
  | ended {l' : Listing} : l.Steps s [] (.ok none, l')
  | shown {o : ObjectRow} {rest : List ObjectRow} {e : Entry} {l' : Listing}
      (hline : l.line? o = some e) (hrequest : l'.request = l.request)
      (hahead : l'.Ahead s (l.request.others o rest)) :
      l.Steps s (o :: rest) (.ok (some (l.request.shown o.location.key e)), l')
  | failed {rows : List ObjectRow} {o : ObjectRow} (ho : o ∈ rows) (hline : l.line? o = none) :
      l.Steps s rows (.error (.storage .listObjects), l)

/-- **Each step of a listing takes a head off the rows before it,** unless a row cannot be read. -/
theorem steps_next (hpos : ∀ o ∈ s.objects.rows, 0 < o.version) (h : l.Ahead s rows) :
    l.Steps s rows (l.next (some s)) := by
  have htake : ∀ {l' : Listing}, l'.request = l.request → l'.Ahead s rows →
      (l'.buffer = [] → rows = []) → l.Steps s rows (.ok l'.take.1, l'.take.2) := by
    intro l' hrequest hahead hend
    rcases take_of_ahead hpos hahead hend with ⟨rfl, htake⟩ | ⟨o, rest, e, l₂, rfl, hline, hsame,
      htake, hnext⟩
    · rw [htake]
      exact .ended
    · rw [htake, hrequest]
      rw [hrequest] at hnext
      refine .shown ?_ (hsame.trans hrequest) hnext
      rw [← hline]
      unfold line?
      rw [hrequest]
  unfold next
  cases hneeds : l.buffer.isEmpty && !l.exhausted with
  | true =>
    rw [if_pos rfl]
    rw [Bool.and_eq_true, List.isEmpty_iff, Bool.not_eq_true'] at hneeds
    dsimp only
    rcases fetch_of_ahead h hneeds.1 hneeds.2 with ⟨l', hfetch, hrequest, hahead, hend⟩ |
      ⟨hfetch, o, ho, hline⟩
    · rw [hfetch]
      exact htake hrequest hahead hend
    · rw [hfetch]
      exact .failed ho hline
  | false =>
    rw [if_neg Bool.false_ne_true]
    refine htake rfl h fun hempty => ?_
    -- with nothing fetched the listing is exhausted, so nothing lies behind
    rw [hempty] at hneeds
    obtain ⟨pre, post, hsplit, hlines, hexhausted⟩ := h.fetched
    rw [hempty] at hlines
    cases hlines
    rw [hsplit, hexhausted (by simpa using hneeds)]
    rfl

/-! ## Runs -/

/-- A line that has been fetched is shown as its row is. -/
theorem shown?_of_line? (hs : s.Legible) (ho : o ∈ s.objects.rows) (h : l.line? o = some e) :
    l.request.shown? o = some (l.request.shown o.location.key e) := by
  unfold line? at h
  rw [hs.listed?_eq ho, Option.map_eq_some_iff] at h
  obtain ⟨object, hobject, rfl⟩ := h
  rw [ListObjects.shown?, hobject]
  rfl

/-- **A listing gives out the heads of the rows before it,** up to the number that is asked for, or
fails because one of these rows cannot be read. -/
theorem drain_of_ahead (hs : s.Legible) (h : l.Ahead s rows) (limit : Nat) :
    (∃ es, l.drain (some s) limit = .ok es ∧
      ((l.request.heads rows).take limit).mapM l.request.shown? = some es) ∨
    (l.drain (some s) limit = .error (.storage .listObjects) ∧ ∃ o ∈ rows, o.Overrun) := by
  induction limit generalizing l rows with
  | zero => exact .inl ⟨[], rfl, rfl⟩
  | succ limit ih =>
    have hstored : ∀ o ∈ rows, o ∈ s.objects.rows := fun o ho => by
      obtain ⟨c, hrows, -⟩ := h.after
      rw [hrows] at ho
      exact (ListObjects.mem_rowsAfter.1 ho).1
    unfold drain
    cases hnext : l.next (some s) with
    | mk outcome l' =>
      have hsteps := steps_next hs.positive h
      rw [hnext] at hsteps
      cases hsteps with
      | ended => exact .inl ⟨[], rfl, rfl⟩
      | failed ho hline => exact .inr ⟨rfl, _, ho, hs.overrun_of_listed? (hstored _ ho) hline⟩
      | @shown o rest e _ hline hrequest hahead =>
        have hshown := shown?_of_line? hs (hstored o List.mem_cons_self) hline
        rcases ih hahead with ⟨es, hdrain, hes⟩ | ⟨hdrain, o', ho', hover⟩
        · refine .inl ⟨l.request.shown o.location.key e :: es, ?_, ?_⟩
          · dsimp only
            rw [hdrain]
            rfl
          · rw [hrequest] at hes
            rw [ListObjects.heads_cons, List.take_succ_cons, List.mapM_cons, hshown, hes]
            rfl
        · have hrest : o' ∈ rest := (ListObjects.others_sublist _ _ _).subset ho'
          refine .inr ⟨?_, o', List.mem_cons_of_mem _ hrest, hover⟩
          dsimp only
          rw [hdrain]
          rfl

/-- A listing ends: no more entries are given out however many are asked for beyond the number of
rows before it. -/
theorem drain_congr (hpos : ∀ o ∈ s.objects.rows, 0 < o.version) (h : l.Ahead s rows) {m n : Nat}
    (hm : rows.length < m) (hn : rows.length < n) :
    l.drain (some s) m = l.drain (some s) n := by
  induction m generalizing l rows n with
  | zero => exact absurd hm (Nat.not_lt_zero _)
  | succ m ih =>
    obtain ⟨n, rfl⟩ := Nat.exists_eq_succ_of_ne_zero (Nat.ne_zero_of_lt hn)
    unfold drain
    cases hnext : l.next (some s) with
    | mk outcome l' =>
      have hsteps := steps_next hpos h
      rw [hnext] at hsteps
      cases hsteps with
      | ended => rfl
      | failed => rfl
      | @shown o rest e _ _ _ hahead =>
        have hle := (ListObjects.others_sublist l.request o rest).length_le
        rw [List.length_cons] at hm hn
        have hm' : (l.request.others o rest).length < m := by omega
        have hn' : (l.request.others o rest).length < n := by omega
        dsimp only
        rw [ih hahead hm' hn']

end Listing

end ObjectCatalog
