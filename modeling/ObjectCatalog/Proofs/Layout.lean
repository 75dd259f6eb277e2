import ObjectCatalog.Proofs.Coherence

/-!
# Segments laid out one after the other

The sizes of an object are computed from its segments once, when it is committed. What they are
computed from is the slice that each segment takes of the content.

* `SegmentRow.slice`: what the sizes of an object depend on.
* `LaidOut`: each segment starts where the one before it ends.
* `Regular`: segments at `0/0`, `0/1` and so on, all of one plain size but the last.
* `Accounts`: **what the numbers of an object say of its segments.**
* `Books`, `Books.accounts`: the numbers as they are computed, and that they say so.
-/

namespace ObjectCatalog

/-! ## Positions in order -/

namespace Position

instance : Std.LawfulEqOrd Position where
  eq_of_compare {a b} h := by
    obtain ⟨part, index⟩ := a
    obtain ⟨part', index'⟩ := b
    have h' : (compare part part').then (compare index index') = .eq := h
    simp only [Ordering.then_eq_eq, Std.LawfulEqOrd.compare_eq_iff_eq] at h'
    obtain ⟨rfl, rfl⟩ := h'
    rfl

variable {p q : Position}

theorem column_of_le (hp : p.part ≤ maxPart) : p.column = p.encode := by
  have hpart : p.part.toNat ≤ 2147483647 := UInt32.le_iff_toNat_le.1 hp
  have hindex := p.index.toNat_lt
  unfold column encode
  rw [Int.bmod_def]
  omega

/-- Stored positions are in the order of parts and indexes. -/
theorem column_lt_iff (hp : p.part ≤ maxPart) (hq : q.part ≤ maxPart) :
    p.column < q.column ↔ compare p q = .lt := by
  have hpIndex := p.index.toNat_lt
  have hqIndex := q.index.toNat_lt
  have horder : compare p q = (compare p.part q.part).then (compare p.index q.index) := rfl
  rw [column_of_le hp, column_of_le hq, horder, Ordering.then_eq_lt, Std.compare_eq_lt,
    Std.compare_eq_lt, Std.LawfulEqCmp.compare_eq_iff_eq, UInt32.lt_iff_toNat_lt,
    UInt32.lt_iff_toNat_lt, ← UInt32.toNat_inj]
  unfold encode
  omega

end Position

/-! ## Slices -/

/-- The part of an object's content that a segment takes. -/
structure Slice where
  position : Int
  plainSize : Int
  encryptedSize : Int
  plainOffset : Int
  deriving DecidableEq

/-- The slice of a row. -/
def SegmentRow.slice (r : SegmentRow) : Slice where
  position := r.position
  plainSize := r.plainSize
  encryptedSize := r.encryptedSize
  plainOffset := r.plainOffset

theorem SegmentRow.slice_withPiecesOf (r k : SegmentRow) : (r.withPiecesOf k).slice = r.slice := rfl

/-! ## Segments one after the other -/

section Layout

variable {rows rows' : List SegmentRow} {r : SegmentRow} {offset f : Int}

/-- Segments each of which starts where the one before it ends, the first at an offset. -/
def LaidOut : Int → List SegmentRow → Prop
  | _, [] => True
  | offset, r :: rest => r.plainOffset = offset ∧ LaidOut (offset + r.plainSize) rest

theorem laidOut_withOffsets (offset : Int) (rows : List SegmentRow) :
    LaidOut offset (withOffsets offset rows) := by
  induction rows generalizing offset with
  | nil => trivial
  | cons r rest ih => exact ⟨rfl, ih _⟩

/-- A segment starts where the sizes of those before it add up. -/
theorem LaidOut.offset_eq (h : LaidOut offset rows) {i : Nat} (hr : rows[i]? = some r) :
    r.plainOffset = offset + ((rows.take i).map (·.plainSize)).sum := by
  induction rows generalizing offset i with
  | nil => cases hr
  | cons k rest ih =>
    obtain ⟨hoffset, hrest⟩ := h
    cases i with
    | zero =>
      rw [List.getElem?_cons_zero, Option.some.injEq] at hr
      subst hr
      rw [List.take_zero, List.map_nil, List.sum_nil, Int.add_zero, hoffset]
    | succ i =>
      rw [List.getElem?_cons_succ] at hr
      rw [ih hrest hr, List.take_succ_cons, List.map_cons, List.sum_cons]
      omega

theorem sumOf_eq_sum (quantity : SegmentRow → Int) (rows : List SegmentRow) :
    sumOf quantity rows = (rows.map quantity).sum := by
  induction rows with
  | nil => rfl
  | cons r rest ih => rw [sumOf, ih, List.map_cons, List.sum_cons]

/-- Segments at `0/0`, `0/1` and so on, of which all but the last have one plain size; if there is
only one it has that size too. -/
structure Regular (rows : List SegmentRow) (f : Int) : Prop where
  places : ∀ (i : Nat) (r : SegmentRow), rows[i]? = some r → r.place = ⟨0, UInt32.ofNat i⟩
  sizes : ∀ (i : Nat) (r : SegmentRow), rows[i]? = some r → i + 1 < rows.length ∨ rows.length = 1 → r.plainSize = f

/-- **The fixed segment size is the size that segments share, if they do.** -/
theorem fixedSegmentSize_of_regular (hne : rows ≠ []) (hfew : rows.length < 2147483648)
    (h : Regular rows f) : fixedSegmentSize rows = f := by
  cases rows with
  | nil => exact absurd rfl hne
  | cons first rest =>
    have hfirst : first.plainSize = f := by
      refine h.sizes 0 first rfl ?_
      cases rest with
      | nil => exact .inr rfl
      | cons _ _ => exact .inl (by simp)
    unfold fixedSegmentSize
    dsimp only
    refine (if_pos ?_).trans hfirst
    rw [List.all_eq_true]
    rintro ⟨r, i⟩ hmem
    have hr := List.mem_zipIdx_iff_getElem?.1 hmem
    have hlt : i < (first :: rest).length := (List.getElem?_eq_some_iff.1 hr).1
    have hplace := h.places i r hr
    have hbound : UInt32.size = 4294967296 := rfl
    have hindex : (UInt32.ofNat i).toNat = i := UInt32.toNat_ofNat_of_lt' (by omega)
    by_cases hlast : i + 1 = (first :: rest).length
    · simp [hplace, hindex, hlast]
    · have hsize : r.plainSize = first.plainSize := by
        rw [hfirst]
        exact h.sizes i r hr (.inl (by omega))
      simp [hplace, hindex, hsize]

/-- **Otherwise it is -1.** -/
theorem fixedSegmentSize_of_not_regular (hne : rows ≠ []) (h : ∀ f, ¬ Regular rows f) :
    fixedSegmentSize rows = -1 := by
  cases rows with
  | nil => exact absurd rfl hne
  | cons first rest =>
    unfold fixedSegmentSize
    dsimp only
    refine if_neg fun hall => h first.plainSize ⟨fun i r hr => ?_, fun i r hr hinner => ?_⟩
    all_goals
      have hcond := List.all_eq_true.1 hall (r, i) (List.mem_zipIdx_iff_getElem?.2 hr)
      simp only [Bool.and_eq_true, Bool.or_eq_true, decide_eq_true_eq] at hcond
      obtain ⟨⟨hpart, hindex⟩, hsize⟩ := hcond
    · have hplace : r.place = ⟨r.place.part, r.place.index⟩ := rfl
      rw [hplace, hpart, ← hindex, UInt32.ofNat_toNat]
    · rcases hsize with hlast | hsize
      · -- the last segment counts only if it is the first
        have hone : i = 0 := by omega
        subst hone
        rw [List.getElem?_cons_zero, Option.some.injEq] at hr
        rw [hr]
      · exact hsize

/-- The segment at index `i` of regular ones starts at `i` times their size. -/
theorem Regular.offset_eq (h : Regular rows f) (hlaid : LaidOut 0 rows) {i : Nat}
    (hr : rows[i]? = some r) : r.plainOffset = i * f := by
  have hlt : i < rows.length := (List.getElem?_eq_some_iff.1 hr).1
  have hsizes : (rows.take i).map (·.plainSize) = List.replicate i f := by
    refine List.eq_replicate_iff.2 ⟨by simp; omega, fun v hv => ?_⟩
    obtain ⟨k, hk, rfl⟩ := List.mem_map.1 hv
    obtain ⟨j, hj⟩ := List.mem_iff_getElem?.1 hk
    rw [List.getElem?_take] at hj
    split at hj
    · exact h.sizes j k hj (.inl (by omega))
    · cases hj
  rw [hlaid.offset_eq hr, hsizes, List.sum_replicate, Int.zero_add]
  simp

end Layout

/-! ## The numbers of an object -/

/-- What the numbers of an object say of its segments, which are in ascending order: how many there
are, what their sizes add up to, that each starts where those at lower positions end, and the plain
size that they share if they are regular. -/
structure Accounts (o : ObjectRow) (rows : List SegmentRow) : Prop where
  count : o.segmentCount = rows.length
  plain : o.totalPlainSize = (rows.map (·.plainSize)).sum
  encrypted : o.totalEncryptedSize = (rows.map (·.encryptedSize)).sum
  offsets : ∀ r ∈ rows, r.plainOffset =
    ((rows.filter fun k => decide (compare k.place r.place = .lt)).map (·.plainSize)).sum
  fixed_empty : rows = [] → o.fixedSegmentSize = 0
  fixed_regular : rows ≠ [] → ∀ f, Regular rows f → o.fixedSegmentSize = f ∧
    ∀ (i : Nat) (r : SegmentRow), rows[i]? = some r → r.plainOffset = i * f
  fixed_irregular : rows ≠ [] → (∀ f, ¬ Regular rows f) → o.fixedSegmentSize = -1

/-- The numbers of an object as they are computed from its segments. -/
structure Books (o : ObjectRow) (rows : List SegmentRow) : Prop where
  count : o.segmentCount = (rows.length : Int).bmod 4294967296
  plain : o.totalPlainSize = sumOf (·.plainSize) rows
  encrypted : o.totalEncryptedSize = sumOf (·.encryptedSize) rows
  fixed : o.fixedSegmentSize = fixedSegmentSize rows
  laid_out : LaidOut 0 rows

/-- The segments at lower positions than the one at an index are those before it. -/
theorem filter_lower {rows : List SegmentRow} {r : SegmentRow}
    (hasc : Ascending SegmentRow.place rows) {i : Nat} (hr : rows[i]? = some r) :
    (rows.filter fun k => decide (compare k.place r.place = .lt)) = rows.take i := by
  obtain ⟨hlt, hget⟩ := List.getElem?_eq_some_iff.1 hr
  have hsplit : rows = rows.take i ++ r :: rows.drop (i + 1) := by
    rw [← hget, ← List.drop_eq_getElem_cons hlt, List.take_append_drop]
  have hparts := hasc
  unfold Ascending at hparts
  rw [hsplit, List.pairwise_append, List.pairwise_cons] at hparts
  obtain ⟨-, ⟨hafter, -⟩, hbefore⟩ := hparts
  have hlower : (rows.take i).filter (fun k => decide (compare k.place r.place = .lt)) =
      rows.take i := by
    refine List.filter_eq_self.2 fun k hk => ?_
    rw [decide_eq_true_eq]
    exact hbefore k hk r List.mem_cons_self
  have hnone : (r :: rows.drop (i + 1)).filter
      (fun k => decide (compare k.place r.place = .lt)) = [] := by
    refine List.filter_eq_nil_iff.2 fun k hk => ?_
    rw [decide_eq_true_eq]
    rcases List.mem_cons.1 hk with rfl | hk
    · have hself : compare k.place k.place = .eq := Std.ReflCmp.compare_self
      rw [hself]
      decide
    · rw [Std.OrientedCmp.gt_of_lt (hafter k hk)]
      decide
  have happend := congrArg
    (List.filter fun k => decide (compare k.place r.place = .lt)) hsplit
  rw [List.filter_append, hlower, hnone, List.append_nil] at happend
  exact happend

/-- **The numbers that are computed say what they should,** if the segments are not too many for a
32-bit count. -/
theorem Books.accounts {o : ObjectRow} {rows : List SegmentRow} (h : Books o rows)
    (hasc : Ascending SegmentRow.place rows) (hfew : rows.length < 2147483648) :
    Accounts o rows where
  count := by
    rw [h.count, Int.bmod_def]
    omega
  plain := by rw [h.plain, sumOf_eq_sum]
  encrypted := by rw [h.encrypted, sumOf_eq_sum]
  offsets r hr := by
    obtain ⟨i, hi⟩ := List.mem_iff_getElem?.1 hr
    rw [filter_lower hasc hi, h.laid_out.offset_eq hi, Int.zero_add]
  fixed_empty hnil := by rw [h.fixed, hnil]; rfl
  fixed_regular hne f hf := by
    refine ⟨?_, fun i r hr => hf.offset_eq h.laid_out hr⟩
    rw [h.fixed]
    exact fixedSegmentSize_of_regular hne hfew hf
  fixed_irregular hne hnot := by
    rw [h.fixed]
    exact fixedSegmentSize_of_not_regular hne hnot

/-! ## What the numbers depend on -/

/-- Objects with the same numbers. -/
structure SameNumbers (o o' : ObjectRow) : Prop where
  count : o'.segmentCount = o.segmentCount
  plain : o'.totalPlainSize = o.totalPlainSize
  encrypted : o'.totalEncryptedSize = o.totalEncryptedSize
  fixed : o'.fixedSegmentSize = o.fixedSegmentSize

section Slices

variable {rows rows' : List SegmentRow} {offset : Int}

/-- Quantities of slices add up to the same for rows with the same slices. -/
theorem sumOf_congr {quantity : SegmentRow → Int} (part : Slice → Int)
    (hpart : ∀ r : SegmentRow, part r.slice = quantity r)
    (hsame : rows'.map SegmentRow.slice = rows.map SegmentRow.slice) :
    sumOf quantity rows' = sumOf quantity rows := by
  have hmap : ∀ l : List SegmentRow, l.map quantity = (l.map SegmentRow.slice).map part := fun l => by
    rw [List.map_map]
    exact List.map_congr_left fun r _ => (hpart r).symm
  rw [sumOf_eq_sum, sumOf_eq_sum, hmap, hmap, hsame]

theorem laidOut_congr (hsame : rows'.map SegmentRow.slice = rows.map SegmentRow.slice)
    (h : LaidOut offset rows) : LaidOut offset rows' := by
  induction rows generalizing rows' offset with
  | nil =>
    rw [List.map_nil, List.map_eq_nil_iff] at hsame
    rw [hsame]
    trivial
  | cons r rest ih =>
    obtain ⟨r', rest', rfl, hr, hrest⟩ := List.map_eq_cons_iff.1 hsame
    obtain ⟨hoffset, hlaid⟩ := h
    have hstart : r'.plainOffset = r.plainOffset := congrArg Slice.plainOffset hr
    have hsize : r'.plainSize = r.plainSize := congrArg Slice.plainSize hr
    refine ⟨hstart.trans hoffset, ?_⟩
    rw [hsize]
    exact ih hrest hlaid

/-- The fixed segment size depends on positions and plain sizes. -/
theorem fixedSegmentSize_congr (hsame : rows'.map (fun r => (r.position, r.plainSize)) =
    rows.map fun r => (r.position, r.plainSize)) :
    fixedSegmentSize rows' = fixedSegmentSize rows := by
  have hextents : ∀ (first : SegmentRow) (rest : List SegmentRow),
      fixedSegmentSize (first :: rest) =
        if ((first :: rest).map fun r => (r.position, r.plainSize)).zipIdx.all fun (v, i) =>
          (Position.ofColumn v.1).part = 0 && (Position.ofColumn v.1).index.toNat = i &&
            (i + 1 = ((first :: rest).map fun r => (r.position, r.plainSize)).length ||
              v.2 = first.plainSize)
        then first.plainSize else -1 := by
    intro first rest
    unfold fixedSegmentSize
    rw [List.zipIdx_map, List.all_map, List.length_map]
    rfl
  cases rows with
  | nil =>
    rw [List.map_nil, List.map_eq_nil_iff] at hsame
    rw [hsame]
  | cons first rest =>
    obtain ⟨first', rest', rfl, hfirst, -⟩ := List.map_eq_cons_iff.1 hsame
    have hsize : first'.plainSize = first.plainSize := congrArg Prod.snd hfirst
    rw [hextents, hextents, hsame, hsize]

/-- **Books stay right for an object with the same numbers and for rows with the same slices.** -/
theorem Books.congr {o o' : ObjectRow} (h : Books o rows) (hnumbers : SameNumbers o o')
    (hsame : rows'.map SegmentRow.slice = rows.map SegmentRow.slice) : Books o' rows' where
  count := by
    have hlen := congrArg List.length hsame
    rw [List.length_map, List.length_map] at hlen
    rw [hnumbers.count, h.count, hlen]
  plain := by
    rw [hnumbers.plain, h.plain]
    exact sumOf_congr (·.plainSize) (fun _ => rfl) hsame |>.symm
  encrypted := by
    rw [hnumbers.encrypted, h.encrypted]
    exact sumOf_congr (·.encryptedSize) (fun _ => rfl) hsame |>.symm
  fixed := by
    have hextents := congrArg (List.map fun v : Slice => (v.position, v.plainSize)) hsame
    rw [List.map_map, List.map_map] at hextents
    rw [hnumbers.fixed, h.fixed, fixedSegmentSize_congr hextents]
  laid_out := laidOut_congr hsame h.laid_out

end Slices

end ObjectCatalog
