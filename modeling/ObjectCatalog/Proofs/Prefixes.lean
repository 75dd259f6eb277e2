import Mathlib.Tactic
import ObjectCatalog.Listing

/-!
# Byte strings with a common beginning

The byte strings that begin with a given one lie next to each other in the order of keys: they are
those from it up to the least one above all of them. So a listing can ask for a range of keys.

* `Bytes.prefix_iff`: **a beginning is tested by two comparisons.**
* `Bytes.limit_exact`: **the byte strings with a beginning are a range, and its limit is the least.**
* `Bytes.prefix_of_between`: what lies between two byte strings with a beginning has it too.
* `groupOf?_eq_some_iff`: the part of a key up to its first `/`.
* `Bytes.exists_above?_group`: there are byte strings above a group.
-/

namespace ObjectCatalog

theorem not_lt_iff_isLE {κ : Type} [Ord κ] [Std.OrientedOrd κ] {a b : κ} :
    ¬ compare a b = .lt ↔ (compare b a).isLE = true := by
  rw [Std.OrientedOrd.eq_swap]
  cases compare b a <;> decide

namespace Bytes

variable {p k a b c : Bytes}

theorem compare_cons_self (x : UInt8) (a b : Bytes) :
    compare (x :: a) (x :: b) = compare a b := by
  have hself : compare x x = .eq := Std.ReflCmp.compare_self
  rw [List.compare_cons_cons, hself]
  rfl

theorem compare_cons_of_lt {x y : UInt8} (h : x < y) (a b : Bytes) :
    compare (x :: a) (y :: b) = .lt := by
  have hlt : compare x y = .lt := Std.compare_eq_lt.2 h
  rw [List.compare_cons_cons, hlt]
  rfl

theorem compare_cons_of_gt {x y : UInt8} (h : y < x) (a b : Bytes) :
    compare (x :: a) (y :: b) = .gt :=
  Std.OrientedCmp.gt_of_lt (compare_cons_of_lt h b a)

/-- No byte string is below the empty one. -/
theorem compare_nil_ne_lt (a : Bytes) : compare a [] ≠ .lt := by
  cases a with
  | nil => decide
  | cons x a => simp

/-- The byte after another, unless that is the last one. -/
theorem toNat_succ {x : UInt8} (h : x < 0xff) : (x + 1).toNat = x.toNat + 1 := by
  have hlt : x.toNat < 255 := UInt8.lt_iff_toNat_lt.1 h
  have hone : (1 : UInt8).toNat = 1 := rfl
  rw [UInt8.toNat_add, hone]
  exact Nat.mod_eq_of_lt (by omega)

theorem lt_succ {x : UInt8} (h : x < 0xff) : x < x + 1 := by
  rw [UInt8.lt_iff_toNat_lt, toNat_succ h]
  omega

/-- What begins with a greater byte is not below the next byte. -/
theorem not_below_succ {x y : UInt8} (h : x < y) (a : Bytes) :
    compare (y :: a) [x + 1] ≠ .lt := by
  have hxy : x.toNat < y.toNat := UInt8.lt_iff_toNat_lt.1 h
  have hy : y.toNat < 256 := y.toNat_lt
  have hlast : x < 0xff := UInt8.lt_iff_toNat_lt.2 (by show x.toNat < 255; omega)
  by_cases hsame : y = x + 1
  · rw [hsame, compare_cons_self]
    exact compare_nil_ne_lt a
  · have hne : y.toNat ≠ (x + 1).toNat := fun heq => hsame (UInt8.toNat_inj.1 heq)
    rw [toNat_succ hlast] at hne
    have hgt : x + 1 < y := by
      rw [UInt8.lt_iff_toNat_lt, toNat_succ hlast]
      omega
    rw [compare_cons_of_gt hgt]
    decide

theorem above?_cons_of_some {p u : Bytes} (x : UInt8) (h : above? p = some u) :
    above? (x :: p) = some (x :: u) := by
  unfold above?
  rw [h]

theorem above?_cons_of_none {p : Bytes} (x : UInt8) (h : above? p = none) :
    above? (x :: p) = if x < 0xff then some [x + 1] else none := by
  rw [above?, h]

/-- Byte strings that begin with a greater byte are above the range of those with a beginning. -/
theorem not_below_of_lt {x y : UInt8} (h : x < y) (p k : Bytes) :
    ¬ ∀ u, above? (x :: p) = some u → compare (y :: k) u = .lt := by
  intro hbelow
  have hlast : x < 0xff := by
    have hxy : x.toNat < y.toNat := UInt8.lt_iff_toNat_lt.1 h
    have hy : y.toNat < 256 := y.toNat_lt
    exact UInt8.lt_iff_toNat_lt.2 (by show x.toNat < 255; omega)
  cases habove : above? p with
  | some u =>
    have hlt := hbelow _ (above?_cons_of_some x habove)
    rw [compare_cons_of_gt h] at hlt
    cases hlt
  | none =>
    rw [above?_cons_of_none x habove, if_pos hlast] at hbelow
    exact not_below_succ h k (hbelow _ rfl)

/-- **A byte string begins with another just when it is not below it, and below the least one that
is above all that do.** -/
theorem prefix_iff : p <+: k ↔
    (compare p k).isLE = true ∧ ∀ u, p.above? = some u → compare k u = .lt := by
  induction p generalizing k with
  | nil =>
    cases k with
    | nil => simp [above?]
    | cons y k => simp [above?]
  | cons x p ih =>
    cases k with
    | nil => simp
    | cons y k =>
      rw [List.cons_prefix_cons]
      rcases lt_trichotomy x.toNat y.toNat with hlt | heq | hgt
      · have hlt' : x < y := UInt8.lt_iff_toNat_lt.2 hlt
        have hne : x ≠ y := fun heq => absurd (congrArg UInt8.toNat heq) (by omega)
        exact iff_of_false (fun h => hne h.1) fun h => not_below_of_lt hlt' p k h.2
      · obtain rfl := UInt8.toNat_inj.1 heq
        rw [compare_cons_self, and_iff_right rfl, ih]
        refine and_congr_right fun _ => ?_
        cases habove : above? p with
        | some u =>
          rw [above?_cons_of_some x habove]
          simp only [Option.some.injEq, forall_eq', compare_cons_self]
        | none =>
          -- all that go on from the last byte that can be raised are below the raised one
          rw [above?_cons_of_none x habove]
          refine iff_of_true (fun u hu => by cases hu) fun u hu => ?_
          split at hu
          · next hlast =>
            cases hu
            exact compare_cons_of_lt (lt_succ hlast) k []
          · cases hu
      · have hgt' : y < x := UInt8.lt_iff_toNat_lt.2 hgt
        have hne : x ≠ y := fun heq => absurd (congrArg UInt8.toNat heq) (by omega)
        rw [compare_cons_of_gt hgt']
        exact iff_of_false (fun h => hne h.1) fun h => absurd h.1 (by decide)

theorem prefix_iff_of_some {u : Bytes} (hu : p.above? = some u) :
    p <+: k ↔ (compare p k).isLE = true ∧ compare k u = .lt := by
  rw [prefix_iff, hu]
  simp only [Option.some.injEq, forall_eq']

theorem prefix_iff_of_none (hnone : p.above? = none) :
    p <+: k ↔ (compare p k).isLE = true := by
  rw [prefix_iff, hnone]
  exact and_iff_left fun u hu => by cases hu

/-- What lies between two byte strings with a beginning has it too. -/
theorem prefix_of_between (ha : p <+: a) (hc : p <+: c) (hab : (compare a b).isLE = true)
    (hbc : (compare b c).isLE = true) : p <+: b := by
  rw [prefix_iff] at ha hc ⊢
  exact ⟨Std.TransCmp.isLE_trans ha.1 hab,
    fun u hu => Std.TransCmp.lt_of_isLE_of_lt hbc (hc.2 u hu)⟩

/-- What is not below a byte string with a beginning, and has another one, is above all that have
the first. -/
theorem not_prefix_iff_above {u : Bytes} (hu : p.above? = some u) (ha : p <+: a)
    (hab : (compare a b).isLE = true) : ¬ p <+: b ↔ (compare u b).isLE = true := by
  rw [prefix_iff] at ha
  have hle : (compare p b).isLE = true := Std.TransCmp.isLE_trans ha.1 hab
  rw [prefix_iff_of_some hu, and_iff_right hle]
  exact not_lt_iff_isLE

theorem after?_eq_some_iff {lead key rest : Bytes} :
    lead.after? key = some rest ↔ key = lead ++ rest := by
  induction lead generalizing key with
  | nil => simp [after?, eq_comm]
  | cons x lead ih =>
    cases key with
    | nil => simp [after?]
    | cons y key =>
      rw [after?]
      by_cases hxy : x = y
      · rw [if_pos hxy, ih, hxy]
        simp
      · rw [if_neg hxy]
        simp [Ne.symm hxy]

/-! ### The least byte string above -/

/-- A last byte that can be raised is raised. -/
theorem above?_concat {x : UInt8} (h : x < 0xff) (a : Bytes) :
    above? (a ++ [x]) = some (a ++ [x + 1]) := by
  induction a with
  | nil => exact (above?_cons_of_none x rfl).trans (if_pos h)
  | cons y a ih => exact above?_cons_of_some y ih

/-- There is no limit when no byte can be raised. -/
theorem above?_eq_none_iff : p.above? = none ↔ ∀ x ∈ p, x = 0xff := by
  induction p with
  | nil => simp [above?]
  | cons x p ih =>
    rw [List.forall_mem_cons, ← ih]
    cases habove : above? p with
    | some u =>
      rw [above?_cons_of_some x habove]
      simp
    | none =>
      have hlast : ¬ x < 0xff ↔ x = 0xff := by
        rw [UInt8.lt_iff_toNat_lt, ← UInt8.toNat_inj]
        have hx : x.toNat < 256 := x.toNat_lt
        show ¬ x.toNat < 255 ↔ x.toNat = 255
        omega
      rw [above?_cons_of_none x habove, ← hlast]
      by_cases hx : x < 0xff
      · rw [if_pos hx]
        simp [hx]
      · rw [if_neg hx]
        simp [hx]

/-- What is above every byte string that begins with a given one. -/
def IsAbove (p w : Bytes) : Prop := ∀ k, p <+: k → compare k w = .lt

theorem isAbove_of_above? {u : Bytes} (hu : p.above? = some u) : p.IsAbove u :=
  fun _ hk => (prefix_iff.1 hk).2 u hu

/-- What is above all that begin with a byte string does not begin with it. -/
theorem IsAbove.not_prefix {w : Bytes} (hw : p.IsAbove w) : ¬ p <+: w := by
  intro hprefix
  have hlt : compare w w = .lt := hw w hprefix
  have hself : compare w w = .eq := Std.ReflCmp.compare_self
  rw [hself] at hlt
  cases hlt

theorem IsAbove.isLE {w : Bytes} (hw : p.IsAbove w) : (compare p w).isLE = true :=
  Ordering.isLE_of_eq_lt (hw p (List.prefix_refl p))

/-- **The byte strings with a beginning are a range.** It starts at the beginning itself. Where there is
a limit, the range ends before it, and the limit is the least of all that are above the range; where
there is none, the range has no end, and nothing is above it; so it is when the beginning has
no byte but `0xff`, or none. -/
theorem limit_exact (p : Bytes) :
    (∀ u, p.above? = some u →
      (∀ k, p <+: k ↔ (compare p k).isLE = true ∧ compare k u = .lt) ∧
        p.IsAbove u ∧ ∀ w, p.IsAbove w → (compare u w).isLE = true) ∧
    (p.above? = none →
      (∀ k, p <+: k ↔ (compare p k).isLE = true) ∧ ∀ w, ¬ p.IsAbove w) ∧
    (p.above? = none ↔ ∀ x ∈ p, x = 0xff) := by
  refine ⟨fun u hu => ⟨fun k => prefix_iff_of_some hu, isAbove_of_above? hu, fun w hw => ?_⟩,
    fun hnone => ⟨fun k => prefix_iff_of_none hnone, fun w hw => ?_⟩, above?_eq_none_iff⟩
  · -- what is not below `p` and does not begin with it is past the range
    exact (not_prefix_iff_above hu (List.prefix_refl p) hw.isLE).1 hw.not_prefix
  · exact hw.not_prefix ((prefix_iff_of_none hnone).2 hw.isLE)

end Bytes

/-! ### A beginning whose last byte cannot be raised -/

/-- `ab` and a byte `0xff`: the keys with this beginning end before `ac`, and no sooner. Two bytes
`0xff`: the keys go on without end. -/
theorem Sample.limit_exact_last :
    let p : Bytes := [0x61, 0x62, 0xff]
    let full : Bytes := [0xff, 0xff]
    p.above? = some [0x61, 0x63] ∧
      (∀ k, p <+: k ↔ (compare p k).isLE = true ∧ compare k [0x61, 0x63] = .lt) ∧
      ¬ p.IsAbove [0x61, 0x62, 0xff, 0xff] ∧
      full.above? = none ∧ (∀ k, full <+: k ↔ (compare full k).isLE = true) := by
  intro p full
  have hlimit : p.above? = some [0x61, 0x63] := by decide
  have hnone : full.above? = none := by decide
  obtain ⟨hrange, -, hleast⟩ := (Bytes.limit_exact p).1 _ hlimit
  obtain ⟨hopen, -⟩ := (Bytes.limit_exact full).2.1 hnone
  refine ⟨hlimit, hrange, fun habove => ?_, hnone, hopen⟩
  -- it would be above the limit
  exact absurd (hleast _ habove) (by decide)

/-! ## Groups -/

variable {g k x lead : Bytes}

/-- The group of a relative key is what it begins with, up to its first `/`. -/
theorem groupOf?_eq_some_iff :
    groupOf? k = some g ↔ ∃ a, g = a ++ [0x2f] ∧ 0x2f ∉ a ∧ g <+: k := by
  induction k generalizing g with
  | nil =>
    rw [groupOf?]
    refine iff_of_false (by simp) ?_
    rintro ⟨a, rfl, -, hprefix⟩
    simp at hprefix
  | cons y k ih =>
    rw [groupOf?]
    by_cases hy : y = 0x2f
    · subst hy
      rw [if_pos rfl, Option.some.injEq]
      constructor
      · rintro rfl
        exact ⟨[], rfl, by simp, by simp⟩
      · rintro ⟨a, rfl, hslash, hprefix⟩
        cases a with
        | nil => rfl
        | cons z a =>
          have hz : z = 0x2f := (List.cons_prefix_cons.1 hprefix).1
          exact absurd hz.symm (by simp at hslash; exact hslash.1)
    · rw [if_neg hy, Option.map_eq_some_iff]
      constructor
      · rintro ⟨g', hg', rfl⟩
        obtain ⟨a, rfl, hslash, hprefix⟩ := ih.1 hg'
        refine ⟨y :: a, rfl, ?_, List.cons_prefix_cons.2 ⟨rfl, hprefix⟩⟩
        simp [Ne.symm hy, hslash]
      · rintro ⟨a, rfl, hslash, hprefix⟩
        cases a with
        | nil => exact absurd (List.cons_prefix_cons.1 hprefix).1.symm hy
        | cons z a =>
          obtain ⟨rfl, hrest⟩ := List.cons_prefix_cons.1 hprefix
          refine ⟨a ++ [0x2f], ih.2 ⟨a, rfl, ?_, hrest⟩, rfl⟩
          simp at hslash
          exact hslash.2

/-- A group is a group of its own. -/
theorem groupOf?_self (h : groupOf? k = some g) : groupOf? g = some g := by
  obtain ⟨a, rfl, hslash, -⟩ := groupOf?_eq_some_iff.1 h
  exact groupOf?_eq_some_iff.2 ⟨a, rfl, hslash, List.prefix_refl _⟩

/-- What begins with a group is of the group. -/
theorem groupOf?_iff_begins (h : groupOf? g = some g) : groupOf? k = some g ↔ g <+: k := by
  obtain ⟨a, rfl, hslash, -⟩ := groupOf?_eq_some_iff.1 h
  rw [groupOf?_eq_some_iff]
  exact ⟨fun ⟨_, _, _, hprefix⟩ => hprefix, fun hprefix => ⟨a, rfl, hslash, hprefix⟩⟩

/-- There are byte strings above a group. -/
theorem Bytes.exists_above?_group (h : groupOf? g = some g) (lead : Bytes) :
    ∃ limit, Bytes.above? (lead ++ g) = some limit := by
  obtain ⟨a, rfl, -, -⟩ := groupOf?_eq_some_iff.1 h
  rw [← List.append_assoc]
  exact ⟨_, Bytes.above?_concat (by decide) _⟩

end ObjectCatalog
