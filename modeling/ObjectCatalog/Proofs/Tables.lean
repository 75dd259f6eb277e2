import Mathlib.Tactic
import ObjectCatalog.Store

/-!
# Tables as maps

A table is determined by the row it has for each key. What an operation does to a table is said here
by what it does to `find?`, which is all that later proofs use.

* `Table.ext_find?`: tables that agree on every key are equal.
* `Table.find?_insert`, `Table.find?_filter`, `Table.find?_update`: one equation for each operation.
* `Table.find?_foldl_insert`: rows put in place one after the other.
-/

namespace ObjectCatalog

variable {ρ κ : Type} [Ord κ] [Std.TransOrd κ] {key : ρ → κ}

theorem ne_of_compare_lt {k k' : κ} (h : compare k k' = .lt) : k ≠ k' := by
  rintro rfl
  exact absurd (h.symm.trans Std.ReflCmp.compare_self) (by decide)

theorem ne_of_compare_gt {k k' : κ} (h : compare k k' = .gt) : k ≠ k' :=
  (ne_of_compare_lt (Std.OrientedCmp.lt_of_gt h)).symm

theorem isLE_total (k k' : κ) : ((compare k k').isLE || (compare k' k).isLE) = true := by
  cases h : compare k k' with
  | lt => rfl
  | eq => rfl
  | gt => rw [Std.OrientedCmp.lt_of_gt h]; rfl

/-! ## Rows in ascending order -/

theorem Ascending.nodup {rows : List ρ} (h : Ascending key rows) : rows.Nodup :=
  h.imp fun hlt heq => ne_of_compare_lt hlt (congrArg key heq)

/-- Rows in ascending order are determined by which rows they are. -/
theorem Ascending.eq_of_mem_iff {l l' : List ρ} (h : Ascending key l) (h' : Ascending key l')
    (hmem : ∀ r, r ∈ l ↔ r ∈ l') : l = l' := by
  have hperm : l.Perm l' := (List.perm_ext_iff_of_nodup h.nodup h'.nodup).2 hmem
  refine hperm.eq_of_pairwise (fun a b _ _ hab hba => ?_) h h'
  exact absurd (hab.symm.trans (Std.OrientedCmp.gt_of_lt hba)) (by decide)

theorem Ascending.eq_of_key_eq {rows : List ρ} (h : Ascending key rows) {a b : ρ} (ha : a ∈ rows)
    (hb : b ∈ rows) (hkey : key a = key b) : a = b := by
  induction rows with
  | nil => exact absurd ha (by simp)
  | cons x rest ih =>
    obtain ⟨hx, hrest⟩ := List.pairwise_cons.1 h
    have hne : ∀ y ∈ rest, key x ≠ key y := fun y hy => ne_of_compare_lt (hx y hy)
    rcases List.mem_cons.1 ha with hax | har <;> rcases List.mem_cons.1 hb with hbx | hbr
    · rw [hax, hbx]
    · exact absurd (hax ▸ hkey) (hne b hbr)
    · exact absurd (hbx ▸ hkey.symm) (hne a har)
    · exact ih hrest har hbr

theorem mem_insertRow [Std.LawfulEqOrd κ] {r x : ρ} {rows : List ρ} (h : Ascending key rows) :
    x ∈ insertRow key r rows ↔ x = r ∨ x ∈ rows ∧ key x ≠ key r := by
  induction rows with
  | nil => simp [insertRow]
  | cons a rest ih =>
    obtain ⟨ha, hrest⟩ := List.pairwise_cons.1 h
    -- a row behind `a` has the key of `r` only if `r` belongs behind `a`
    have hne : ∀ y ∈ rest, compare (key r) (key a) ≠ .gt → key y ≠ key r := by
      intro y hy hle heq
      have hlt := ha y hy
      rw [heq] at hlt
      exact hle (Std.OrientedCmp.gt_of_lt hlt)
    simp only [insertRow]
    split
    · next hlt =>
      have hane : key a ≠ key r := (ne_of_compare_lt hlt).symm
      simp only [List.mem_cons]
      constructor
      · rintro (rfl | rfl | hx)
        · exact .inl rfl
        · exact .inr ⟨.inl rfl, hane⟩
        · exact .inr ⟨.inr hx, hne x hx (by rw [hlt]; decide)⟩
      · rintro (rfl | ⟨rfl | hx, -⟩)
        · exact .inl rfl
        · exact .inr (.inl rfl)
        · exact .inr (.inr hx)
    · next heq =>
      have hra : key r = key a := Std.LawfulEqOrd.eq_of_compare heq
      simp only [List.mem_cons]
      constructor
      · rintro (rfl | hx)
        · exact .inl rfl
        · exact .inr ⟨.inr hx, hne x hx (by rw [heq]; decide)⟩
      · rintro (rfl | ⟨rfl | hx, hxr⟩)
        · exact .inl rfl
        · exact absurd hra.symm hxr
        · exact .inr hx
    · next hgt =>
      have har : key a ≠ key r := (ne_of_compare_gt hgt).symm
      simp only [List.mem_cons, ih hrest]
      constructor
      · rintro (rfl | rfl | ⟨hx, hxr⟩)
        · exact .inr ⟨.inl rfl, har⟩
        · exact .inl rfl
        · exact .inr ⟨.inr hx, hxr⟩
      · rintro (rfl | ⟨rfl | hx, hxr⟩)
        · exact .inr (.inl rfl)
        · exact .inl rfl
        · exact .inr (.inr ⟨hx, hxr⟩)

/-! ## Tables -/

namespace Table

variable (t : Table key)

theorem eq_of_key_eq {a b : ρ} (ha : a ∈ t.rows) (hb : b ∈ t.rows) (hkey : key a = key b) : a = b :=
  t.ascending.eq_of_key_eq ha hb hkey

theorem nodup : t.rows.Nodup := t.ascending.nodup

variable [DecidableEq κ] {t}

theorem find?_eq_some_iff {k : κ} {r : ρ} : t.find? k = some r ↔ r ∈ t.rows ∧ key r = k := by
  constructor
  · intro h
    exact ⟨List.mem_of_find?_eq_some h, by simpa using List.find?_some h⟩
  · rintro ⟨hr, rfl⟩
    cases hf : t.find? (key r) with
    | none => exact absurd (List.find?_eq_none.1 hf r hr) (by simp)
    | some x =>
      have hx : key x = key r := by simpa using List.find?_some hf
      rw [t.eq_of_key_eq (List.mem_of_find?_eq_some hf) hr hx]

theorem mem_rows_iff {r : ρ} : r ∈ t.rows ↔ t.find? (key r) = some r := by
  rw [find?_eq_some_iff, and_iff_left rfl]

theorem key_of_find? {k : κ} {r : ρ} (h : t.find? k = some r) : key r = k :=
  (find?_eq_some_iff.1 h).2

omit [Std.TransOrd κ] in
theorem find?_eq_none_iff {k : κ} : t.find? k = none ↔ ∀ r ∈ t.rows, key r ≠ k := by
  simp [find?, List.find?_eq_none]

/-- **Tables that agree on every key are equal.** -/
theorem ext_find? {t t' : Table key} (h : ∀ k, t.find? k = t'.find? k) : t = t' :=
  Table.ext <| t.ascending.eq_of_mem_iff t'.ascending fun r => by
    rw [mem_rows_iff, mem_rows_iff, h]

/-- Selecting from tables that agree on the keys of a class gives the same rows of that class. -/
theorem filter_rows_congr {t t' : Table key} {p : ρ → Bool}
    (h : ∀ r, p r = true → t.find? (key r) = t'.find? (key r)) :
    t.rows.filter p = t'.rows.filter p := by
  refine (t.filter p).ascending.eq_of_mem_iff (t'.filter p).ascending fun r => ?_
  simp only [rows_filter, List.mem_filter, mem_rows_iff]
  exact and_congr_left fun hr => by rw [h r hr]

@[simp]
theorem find?_insert [Std.LawfulEqOrd κ] (r : ρ) (k : κ) :
    (t.insert r).find? k = if key r = k then some r else t.find? k := by
  split
  · next hk => exact find?_eq_some_iff.2 ⟨(mem_insertRow t.ascending).2 (.inl rfl), hk⟩
  · next hk =>
    cases hf : t.find? k with
    | none =>
      refine find?_eq_none_iff.2 fun x hx hxk => ?_
      rcases (mem_insertRow t.ascending).1 hx with rfl | ⟨hx, -⟩
      · exact hk hxk
      · exact find?_eq_none_iff.1 hf x hx hxk
    | some x =>
      obtain ⟨hx, hxk⟩ := find?_eq_some_iff.1 hf
      refine find?_eq_some_iff.2 ⟨(mem_insertRow t.ascending).2 (.inr ⟨hx, fun h => ?_⟩), hxk⟩
      exact hk (h.symm.trans hxk)

omit [DecidableEq κ] in
theorem mem_insert [Std.LawfulEqOrd κ] {r x : ρ} :
    x ∈ (t.insert r).rows ↔ x = r ∨ x ∈ t.rows ∧ key x ≠ key r :=
  mem_insertRow t.ascending

/-- A change that leaves nothing of a row puts the new row in its place. -/
theorem upsert_eq_insert {r : ρ} {change : ρ → ρ} (h : ∀ old, key old = key r → change old = r) :
    t.upsert r change = t.insert r := by
  unfold upsert
  cases hold : t.find? (key r) with
  | none => rfl
  | some old =>
    dsimp only
    rw [h old (key_of_find? hold)]

@[simp]
theorem find?_filter (p : ρ → Bool) (k : κ) : (t.filter p).find? k = (t.find? k).filter p := by
  cases hf : t.find? k with
  | none =>
    refine find?_eq_none_iff.2 fun r hr => ?_
    exact find?_eq_none_iff.1 hf r (List.mem_filter.1 hr).1
  | some x =>
    obtain ⟨hx, hxk⟩ := find?_eq_some_iff.1 hf
    cases hp : p x with
    | true =>
      rw [Option.filter_some_pos hp]
      exact find?_eq_some_iff.2 ⟨List.mem_filter.2 ⟨hx, hp⟩, hxk⟩
    | false =>
      rw [Option.filter_some_neg (by simp [hp])]
      refine find?_eq_none_iff.2 fun r hr hrk => ?_
      obtain ⟨hr, hpr⟩ := List.mem_filter.1 hr
      rw [t.eq_of_key_eq hr hx (hrk.trans hxk.symm), hp] at hpr
      exact absurd hpr (by decide)

omit [Std.TransOrd κ] in
@[simp]
theorem find?_update (change : ρ → ρ) (hkey : ∀ r, key (change r) = key r) (k : κ) :
    (t.update change hkey).find? k = (t.find? k).map change := by
  simp only [find?, update, List.find?_map, Function.comp_def, hkey]

omit [Std.TransOrd κ] in
@[simp]
theorem find?_updateIf (cond : ρ → Bool) (change : ρ → ρ) (hkey : ∀ r, key (change r) = key r)
    (k : κ) : (t.updateIf cond change hkey).find? k =
      (t.find? k).map fun r => if cond r then change r else r :=
  find?_update ..

/-- Rows after the rows of a list were put in place, no two of them under one key. -/
theorem find?_foldl_insert [Std.LawfulEqOrd κ] {rows : List ρ} (hrows : (rows.map key).Nodup)
    (k : κ) : (rows.foldl insert t).find? k = (rows.find? fun r => key r = k).or (t.find? k) := by
  induction rows generalizing t with
  | nil => rfl
  | cons r rest ih =>
    obtain ⟨hr, hrest⟩ := List.nodup_cons.1 hrows
    rw [List.foldl_cons, ih hrest, find?_insert, List.find?_cons]
    by_cases hk : key r = k
    · have hnone : (rest.find? fun x => key x = k) = none := by
        rw [List.find?_eq_none]
        intro x hx hxk
        exact hr (List.mem_map.2 ⟨x, hx, (of_decide_eq_true hxk).trans hk.symm⟩)
      simp [hk, hnone]
    · simp [hk]

end Table

/-! ## The keys of the four tables -/

instance : Std.LawfulEqOrd ObjectId where
  eq_of_compare {a b} h := by
    obtain ⟨⟨project, bucket, key⟩, version⟩ := a
    obtain ⟨⟨project', bucket', key'⟩, version'⟩ := b
    have h' : (compare project project').then ((compare bucket bucket').then
        ((compare key key').then (compare version version'))) = .eq := h
    simp only [Ordering.then_eq_eq, Std.LawfulEqOrd.compare_eq_iff_eq] at h'
    obtain ⟨rfl, rfl, rfl, rfl⟩ := h'
    rfl

instance : Std.LawfulEqOrd SegmentId where
  eq_of_compare {a b} h := by
    obtain ⟨stream, position⟩ := a
    obtain ⟨stream', position'⟩ := b
    have h' : (compare stream stream').then (compare position position') = .eq := h
    simp only [Ordering.then_eq_eq, Std.LawfulEqOrd.compare_eq_iff_eq] at h'
    obtain ⟨rfl, rfl⟩ := h'
    rfl

end ObjectCatalog
