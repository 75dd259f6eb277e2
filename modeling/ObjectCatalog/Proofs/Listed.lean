import ObjectCatalog.Proofs.Legible
import ObjectCatalog.Proofs.Prefixes

/-!
# What a listing lists

A request is answered by the rows of its bucket and status whose keys have its lead and that lie
after its cursor, in order of key and version. Rows of one group are shown as one entry: that of the
first of them under the name of the group. A cursor inside a group passes over all of it.

* `ListObjects.Lists`, `ListObjects.rows`: the rows of a request.
* `ListObjects.heads`, `ListObjects.exists_head`: the first row of each group, and the rows of no
  group.
* `ListObjects.entries?`: **what a listing has to show.**
* `ListObjects.rowsAfter_limit`: the rows after a group are those from its limit on.
* `ListObjects.filter_group`: the rows of a group follow one another.
-/

namespace ObjectCatalog

/-! ## Places -/

/-- Places in a bucket in order of key and version. -/
def ListCursor.order : ListCursor → ListCursor → Ordering :=
  compareLex (compareOn (·.key)) (compareOn (·.version))

instance : Ord ListCursor := ⟨ListCursor.order⟩

instance : Std.TransOrd ListCursor :=
  inferInstanceAs <| Std.TransCmp <|
    compareLex (compareOn fun c : ListCursor => c.key) (compareOn (·.version))

instance : Std.LawfulEqOrd ListCursor where
  eq_of_compare {c d} h := by
    obtain ⟨key, version⟩ := c
    obtain ⟨key', version'⟩ := d
    have h' : (compare key key').then (compare version version') = .eq := h
    simp only [Ordering.then_eq_eq, Std.LawfulEqOrd.compare_eq_iff_eq] at h'
    obtain ⟨rfl, rfl⟩ := h'
    rfl

namespace ListCursor

variable {c d : ListCursor}

theorem compare_eq (c d : ListCursor) :
    compare c d = (compare c.key d.key).then (compare c.version d.version) := rfl

theorem key_isLE (h : compare c d = .lt) : (compare c.key d.key).isLE = true := by
  rw [compare_eq, Ordering.then_eq_lt] at h
  rcases h with h | ⟨h, -⟩ <;> rw [h] <;> rfl

theorem lt_of_key_lt (h : compare c.key d.key = .lt) : compare c d = .lt := by
  rw [compare_eq, h]
  rfl

/-- A place with a positive version is after the start of a range of keys just when its key is in the
range. -/
theorem limit_lt_iff {limit : Bytes} (hpos : 0 < c.version) :
    compare ⟨limit, 0⟩ c = .lt ↔ (compare limit c.key).isLE = true := by
  have hversion : compare (0 : Int) c.version = .lt := Std.compare_eq_lt.2 hpos
  rw [compare_eq]
  show (compare limit c.key).then (compare (0 : Int) c.version) = .lt ↔ _
  rw [hversion]
  cases compare limit c.key <;> decide

end ListCursor

/-- The place of a row in its bucket. -/
def ObjectRow.place (o : ObjectRow) : ListCursor := ⟨o.location.key, o.version⟩

/-! ## Rows -/

namespace ListObjects

/-- The group of a key: what it has after the lead, up to its first `/`. -/
def group? (r : ListObjects) (key : Bytes) : Option Bytes :=
  if r.recursive then none else (r.lead.after? key).bind groupOf?

/-- A row of the bucket and status of a request, with its lead. -/
structure Covers (r : ListObjects) (o : ObjectRow) : Prop where
  project : o.location.project = r.project
  bucket : o.location.bucket = r.bucket
  status : o.hasStatus r.status = true
  lead : r.lead <+: o.location.key

/-- A row that a request asks for: it lies after the cursor, and not in the group of the cursor. -/
structure Lists (r : ListObjects) (o : ObjectRow) : Prop where
  covers : r.Covers o
  after : compare r.cursor o.place = .lt
  other_group : ∀ g, r.group? r.cursor.key = some g → r.group? o.location.key ≠ some g

instance decidableCovers (r : ListObjects) (o : ObjectRow) : Decidable (r.Covers o) :=
  decidable_of_iff (o.location.project = r.project ∧ o.location.bucket = r.bucket ∧
    o.hasStatus r.status = true ∧ r.lead <+: o.location.key)
    ⟨fun ⟨project, bucket, status, lead⟩ => ⟨project, bucket, status, lead⟩,
      fun h => ⟨h.project, h.bucket, h.status, h.lead⟩⟩

instance decidableLists (r : ListObjects) (o : ObjectRow) : Decidable (r.Lists o) :=
  decidable_of_iff (r.Covers o ∧ compare r.cursor o.place = .lt ∧
    (r.group? r.cursor.key).all (fun g => decide (r.group? o.location.key ≠ some g)) = true) <| by
    simp only [Option.all_eq_true, decide_eq_true_eq]
    exact ⟨fun ⟨covers, after, other⟩ => ⟨covers, after, other⟩,
      fun h => ⟨h.covers, h.after, h.other_group⟩⟩

/-- The rows that a request asks for. -/
def rows (r : ListObjects) (s : Store) : List ObjectRow :=
  s.objects.rows.filter fun o => decide (r.Lists o)

/-- The rows that a request covers after a place. -/
def rowsAfter (r : ListObjects) (s : Store) (c : ListCursor) : List ObjectRow :=
  s.objects.rows.filter fun o => decide (r.Covers o ∧ compare c o.place = .lt)

/-- Whether a row is of the group of another. -/
def sameGroup (r : ListObjects) (o' o : ObjectRow) : Bool :=
  (r.group? o.location.key).isSome && r.group? o'.location.key = r.group? o.location.key

/-- The first row of each group, and the rows of no group. -/
def heads (r : ListObjects) (rows : List ObjectRow) : List ObjectRow :=
  rows.eraseDupsBy r.sameGroup

/-- The line of a row as it is shown: under the name of its group, or relative to the lead. -/
def shown (r : ListObjects) (key : Bytes) (e : Entry) : Entry :=
  match r.group? key with
  | some g => { e with isGroup := true, key := g }
  | none => { e with key := key.drop r.lead.length }

/-- How a row that can be read is shown. -/
def shown? (r : ListObjects) (o : ObjectRow) : Option Entry :=
  o.view?.map fun object =>
    r.shown o.location.key
      (object.entry.narrow r.includeCustomMetadata r.includeSystemMetadata)

/-- What a listing has to show, if every row it shows can be read. -/
def entries? (r : ListObjects) (s : Store) : Option (List Entry) :=
  (r.heads (r.rows s)).mapM r.shown?

variable {r : ListObjects} {s : Store} {o o' : ObjectRow} {c : ListCursor} {g k limit : Bytes}
  {rows rest pre post : List ObjectRow}

/-! ## Groups -/

theorem group?_eq_some_iff :
    r.group? k = some g ↔ r.recursive = false ∧ groupOf? g = some g ∧ r.lead ++ g <+: k := by
  unfold group?
  cases hrec : r.recursive with
  | true => simp
  | false =>
    rw [if_neg Bool.false_ne_true, Option.bind_eq_some_iff, and_iff_right rfl]
    constructor
    · rintro ⟨rest, hrest, hgroup⟩
      have hself := groupOf?_self hgroup
      rw [Bytes.after?_eq_some_iff] at hrest
      rw [hrest, List.prefix_append_right_inj]
      exact ⟨hself, (groupOf?_iff_begins hself).1 hgroup⟩
    · rintro ⟨hself, more, rfl⟩
      refine ⟨g ++ more, Bytes.after?_eq_some_iff.2 (List.append_assoc _ _ _), ?_⟩
      exact (groupOf?_iff_begins hself).2 (List.prefix_append g more)

/-- The group of a key with the lead is that of what follows the lead. -/
theorem group?_of_lead (h : r.lead <+: k) :
    r.group? k = if r.recursive then none else groupOf? (k.drop r.lead.length) := by
  obtain ⟨more, rfl⟩ := h
  have hafter : r.lead.after? (r.lead ++ more) = some more := Bytes.after?_eq_some_iff.2 rfl
  unfold group?
  rw [hafter, List.drop_left, Option.bind_some]

/-- The keys of a group are those that begin with it. -/
theorem group?_iff_begins (h : r.group? c.key = some g) :
    r.group? k = some g ↔ r.lead ++ g <+: k := by
  obtain ⟨hrec, hself, -⟩ := group?_eq_some_iff.1 h
  rw [group?_eq_some_iff, and_iff_right hrec, and_iff_right hself]

/-- A group has a limit: the least byte string above its keys. -/
theorem exists_limit (h : r.group? k = some g) : ∃ limit, (r.lead ++ g).above? = some limit :=
  Bytes.exists_above?_group (group?_eq_some_iff.1 h).2.1 r.lead

/-- A key between two keys of a group is of the group. -/
theorem group?_of_between {k' b : Bytes} (h : r.group? k = some g) (h' : r.group? k' = some g)
    (hle : (compare k b).isLE = true) (hle' : (compare b k').isLE = true) :
    r.group? b = some g := by
  rw [group?_eq_some_iff] at h h' ⊢
  exact ⟨h.1, h.2.1, Bytes.prefix_of_between h.2.2 h'.2.2 hle hle'⟩

/-! ## Rows after a place -/

/-- The rows that a request covers are in order of key and version. -/
theorem ascending_rowsAfter (r : ListObjects) (s : Store) (c : ListCursor) :
    Ascending ObjectRow.place (r.rowsAfter s c) := by
  have hrows : Ascending ObjectRow.id (r.rowsAfter s c) :=
    s.objects.ascending.sublist List.filter_sublist
  refine List.Pairwise.imp_of_mem (fun {o o'} ho ho' hlt => ?_) hrows
  have hcovers := (of_decide_eq_true (List.mem_filter.1 ho).2).1
  have hcovers' := (of_decide_eq_true (List.mem_filter.1 ho').2).1
  have hproject : o.location.project = o'.location.project :=
    hcovers.project.trans hcovers'.project.symm
  have hbucket : o.location.bucket = o'.location.bucket := hcovers.bucket.trans hcovers'.bucket.symm
  -- within one bucket the order of the table is that of key and version
  have horder : (compare o.location.project o'.location.project).then
      ((compare o.location.bucket o'.location.bucket).then
        ((compare o.location.key o'.location.key).then (compare o.version o'.version))) = .lt := hlt
  have hself : compare o'.location.project o'.location.project = .eq := Std.ReflCmp.compare_self
  have hself' : compare o'.location.bucket o'.location.bucket = .eq := Std.ReflCmp.compare_self
  rw [hproject, hbucket, hself, hself'] at horder
  exact horder

/-- What a request covers is a matter of its bucket, status and lead. -/
theorem rowsAfter_congr {r' : ListObjects} (hproject : r'.project = r.project)
    (hbucket : r'.bucket = r.bucket) (hstatus : r'.status = r.status) (hlead : r'.lead = r.lead) :
    r'.rowsAfter s c = r.rowsAfter s c := by
  have hcovers : ∀ o, r'.Covers o ↔ r.Covers o := fun o => by
    constructor
    · rintro ⟨project, bucket, status, lead⟩
      exact ⟨project.trans hproject, bucket.trans hbucket, hstatus ▸ status, hlead ▸ lead⟩
    · rintro ⟨project, bucket, status, lead⟩
      exact ⟨project.trans hproject.symm, bucket.trans hbucket.symm, hstatus ▸ status, hlead ▸ lead⟩
  unfold rowsAfter
  simp only [hcovers]

theorem mem_rowsAfter :
    o ∈ r.rowsAfter s c ↔ o ∈ s.objects.rows ∧ r.Covers o ∧ compare c o.place = .lt := by
  rw [rowsAfter, List.mem_filter, decide_eq_true_eq]

/-- The rows after a row of a listing are those behind it. -/
theorem rowsAfter_of_append (h : r.rowsAfter s c = pre ++ o :: post) :
    r.rowsAfter s o.place = post := by
  have hasc := ascending_rowsAfter r s c
  rw [h] at hasc
  obtain ⟨-, hpost, -⟩ := List.pairwise_append.1 hasc
  have hbehind := List.pairwise_cons.1 hpost
  have hpre := (List.pairwise_append.1 hasc).2.2
  have ho : o ∈ r.rowsAfter s c := by
    rw [h]
    exact List.mem_append_right _ List.mem_cons_self
  have hafter := (mem_rowsAfter.1 ho).2.2
  refine (ascending_rowsAfter r s o.place).eq_of_mem_iff hbehind.2 fun x => ?_
  rw [mem_rowsAfter]
  constructor
  · rintro ⟨hx, hcovers, hlt⟩
    have hmem : x ∈ r.rowsAfter s c :=
      mem_rowsAfter.2 ⟨hx, hcovers, Std.TransCmp.lt_trans hafter hlt⟩
    rw [h, List.mem_append, List.mem_cons] at hmem
    -- the rows before `o` are not after it, and neither is `o`
    rcases hmem with hx | rfl | hx
    · have hgt := hpre x hx o List.mem_cons_self
      exact absurd (Std.TransCmp.lt_trans hlt hgt) (by simp)
    · exact absurd hlt (by simp)
    · exact hx
  · intro hx
    have hmem : x ∈ r.rowsAfter s c := by
      rw [h]
      exact List.mem_append_right _ (List.mem_cons_of_mem _ hx)
    obtain ⟨hstored, hcovers, -⟩ := mem_rowsAfter.1 hmem
    exact ⟨hstored, hcovers, hbehind.1 x hx⟩

/-- **The rows after a place in a group that are not of the group are those from the limit of the
group on.** -/
theorem rowsAfter_limit (hpos : ∀ o ∈ s.objects.rows, 0 < o.version)
    (hgroup : r.group? c.key = some g) (hlimit : (r.lead ++ g).above? = some limit) :
    (r.rowsAfter s c).filter (fun o => decide (r.group? o.location.key ≠ some g)) =
      r.rowsAfter s ⟨limit, 0⟩ := by
  have hprefix := (group?_eq_some_iff.1 hgroup).2.2
  have hbelow : compare c.key limit = .lt := (Bytes.prefix_iff.1 hprefix).2 _ hlimit
  unfold rowsAfter
  rw [List.filter_filter]
  refine List.filter_congr fun o ho => ?_
  have hafter : compare (⟨limit, 0⟩ : ListCursor) o.place = .lt ↔
      (compare limit o.location.key).isLE = true := ListCursor.limit_lt_iff (hpos o ho)
  rw [Bool.eq_iff_iff, Bool.and_eq_true, decide_eq_true_eq, decide_eq_true_eq, decide_eq_true_eq,
    hafter, ne_eq, group?_iff_begins hgroup]
  constructor
  · rintro ⟨hother, hcovers, hafter⟩
    have hle := ListCursor.key_isLE hafter
    exact ⟨hcovers, (Bytes.not_prefix_iff_above hlimit hprefix hle).1 hother⟩
  · -- what is at or above the limit is above every place in the group
    rintro ⟨hcovers, hle⟩
    have hlt : compare c.key o.location.key = .lt := Std.TransCmp.lt_of_lt_of_isLE hbelow hle
    have hother := (Bytes.not_prefix_iff_above hlimit hprefix (Ordering.isLE_of_eq_lt hlt)).2 hle
    exact ⟨hother, hcovers, ListCursor.lt_of_key_lt hlt⟩

/-- The rows that a request asks for, when its cursor is in no group. -/
theorem rows_of_no_group (h : r.group? r.cursor.key = none) : r.rows s = r.rowsAfter s r.cursor := by
  refine List.filter_congr fun o _ => ?_
  rw [decide_eq_decide]
  refine ⟨fun hlists => ⟨hlists.covers, hlists.after⟩, fun ⟨hcovers, hafter⟩ =>
    ⟨hcovers, hafter, fun g hg => ?_⟩⟩
  rw [h] at hg
  cases hg

/-- The rows that a request asks for, when its cursor is in a group. -/
theorem rows_of_group (h : r.group? r.cursor.key = some g) :
    r.rows s =
      (r.rowsAfter s r.cursor).filter fun o => decide (r.group? o.location.key ≠ some g) := by
  unfold rows rowsAfter
  rw [List.filter_filter]
  refine List.filter_congr fun o _ => ?_
  rw [Bool.eq_iff_iff, Bool.and_eq_true, decide_eq_true_eq, decide_eq_true_eq, decide_eq_true_eq]
  constructor
  · exact fun hlists => ⟨hlists.other_group g h, hlists.covers, hlists.after⟩
  · rintro ⟨hother, hcovers, hafter⟩
    refine ⟨hcovers, hafter, fun g' hg' => ?_⟩
    rw [h] at hg'
    cases hg'
    exact hother

/-- The rows that a request asks for are those after a place. -/
theorem exists_rows_eq (hpos : ∀ o ∈ s.objects.rows, 0 < o.version) (r : ListObjects) :
    ∃ c, r.rows s = r.rowsAfter s c := by
  cases h : r.group? r.cursor.key with
  | none => exact ⟨_, rows_of_no_group h⟩
  | some g =>
    obtain ⟨limit, hlimit⟩ := exists_limit h
    exact ⟨_, (rows_of_group h).trans (rowsAfter_limit hpos h hlimit)⟩

theorem ascending_rows (r : ListObjects) (s : Store) : Ascending ObjectRow.place (r.rows s) := by
  cases h : r.group? r.cursor.key with
  | none =>
    rw [rows_of_no_group h]
    exact ascending_rowsAfter r s _
  | some g =>
    rw [rows_of_group h]
    exact (ascending_rowsAfter r s _).sublist List.filter_sublist

/-! ## Heads -/

/-- The rows behind a row that is shown: those that are not of its group. -/
def others (r : ListObjects) (o : ObjectRow) (rest : List ObjectRow) : List ObjectRow :=
  match r.group? o.location.key with
  | none => rest
  | some g => rest.filter fun o' => decide (r.group? o'.location.key ≠ some g)

theorem heads_cons (r : ListObjects) (o : ObjectRow) (rest : List ObjectRow) :
    r.heads (o :: rest) = o :: r.heads (r.others o rest) := by
  unfold heads
  rw [List.eraseDupsBy_cons]
  congr 2
  unfold others
  cases hgroup : r.group? o.location.key with
  | none =>
    refine List.filter_eq_self.2 fun o' _ => ?_
    simp [sameGroup, hgroup]
  | some g =>
    refine List.filter_congr fun o' _ => ?_
    simp [sameGroup, hgroup]

theorem others_sublist (r : ListObjects) (o : ObjectRow) (rest : List ObjectRow) :
    (r.others o rest).Sublist rest := by
  unfold others
  split
  · exact .refl _
  · exact List.filter_sublist

/-- What holds of no rows, and of rows when it holds of the others behind the first, holds of all
rows. -/
theorem others_induction {P : List ObjectRow → Prop} (r : ListObjects) (nil : P [])
    (cons : ∀ o rest, P (r.others o rest) → P (o :: rest)) (rows : List ObjectRow) : P rows := by
  induction hlength : rows.length using Nat.strong_induction_on generalizing rows with
  | _ n ih =>
    cases rows with
    | nil => exact nil
    | cons o rest =>
      have hle := (others_sublist r o rest).length_le
      rw [List.length_cons] at hlength
      exact cons o rest (ih _ (by omega) _ rfl)

theorem heads_sublist (r : ListObjects) (rows : List ObjectRow) : (r.heads rows).Sublist rows := by
  induction rows using others_induction r with
  | nil => exact .refl _
  | cons o rest ih =>
    rw [heads_cons]
    exact (ih.trans (others_sublist r o rest)).cons_cons o

theorem covers_of_mem_heads (h : o ∈ r.heads (r.rows s)) : r.Covers o :=
  (of_decide_eq_true (List.mem_filter.1 ((heads_sublist r _).subset h)).2).covers

/-- Every row is a head, or of the group of one. -/
theorem exists_head (r : ListObjects) (ho : o ∈ rows) :
    ∃ o' ∈ r.heads rows, o' = o ∨
      ∃ g, r.group? o'.location.key = some g ∧ r.group? o.location.key = some g := by
  induction rows using others_induction r with
  | nil => exact absurd ho List.not_mem_nil
  | cons first rest ih =>
    rw [heads_cons]
    by_cases hothers : o ∈ r.others first rest
    · obtain ⟨o', ho', hshows⟩ := ih hothers
      exact ⟨o', List.mem_cons_of_mem _ ho', hshows⟩
    · refine ⟨first, List.mem_cons_self, ?_⟩
      rcases List.mem_cons.1 ho with rfl | ho
      · exact .inl rfl
      · right
        unfold others at hothers
        cases hgroup : r.group? first.location.key with
        | none =>
          rw [hgroup] at hothers
          exact absurd ho hothers
        | some g =>
          rw [hgroup] at hothers
          refine ⟨g, rfl, ?_⟩
          by_contra hother
          exact hothers (List.mem_filter.2 ⟨ho, decide_eq_true hother⟩)

/-- **The rows of a group follow one another:** behind a place in a group, no row of it stands behind
one of another group. -/
theorem filter_group (hgroup : r.group? c.key = some g)
    (hafter : ∀ o ∈ rest, compare c o.place = .lt) (hasc : Ascending ObjectRow.place rest) :
    (rest.filter fun o => decide (r.group? o.location.key ≠ some g)) =
      rest.dropWhile fun o => decide (r.group? o.location.key = some g) := by
  induction rest with
  | nil => rfl
  | cons o rest ih =>
    obtain ⟨hfirst, hrest⟩ := List.pairwise_cons.1 hasc
    by_cases hsame : r.group? o.location.key = some g
    · rw [List.filter_cons_of_neg (by simp [hsame]),
        List.dropWhile_cons_of_pos (by simp [hsame])]
      exact ih (fun x hx => hafter x (List.mem_cons_of_mem _ hx)) hrest
    · rw [List.dropWhile_cons_of_neg (by simp [hsame]), List.filter_eq_self]
      intro x hx
      rw [decide_eq_true_eq]
      intro hxgroup
      -- `o` would lie between two keys of the group
      refine hsame ?_
      have hle := ListCursor.key_isLE (hafter o List.mem_cons_self)
      rcases List.mem_cons.1 hx with rfl | hx
      · exact hxgroup
      · exact group?_of_between hgroup hxgroup hle (ListCursor.key_isLE (hfirst x hx))

end ListObjects

end ObjectCatalog
