import ObjectCatalog.Proofs.Outcomes
import ObjectCatalog.Upload.Parts

/-!
# The part rule

The parts of an upload are found in one pass over its segments, which compares each segment with the
part next to it only. In position order that finds every part once and whole.

* `Parts.numbers`, `Parts.size`: the part numbers of segments, and the plain size of a part.
* `Parts.ofSegments_eq`: **the pass finds each part once, with its plain size.**
* `Parts.Allowed`, `Parts.Refused`: the rule, and what is said of an upload that breaks it.
* `Parts.check_cases`: **the check of the parts is the rule.**
-/

namespace ObjectCatalog

namespace Parts

variable {rows : List SegmentRow} {r : SegmentRow} {part : UInt32} {least : Int} {limit : Nat}

/-! ## The parts of segments -/

/-- The part numbers of segments, each once. -/
def numbers (rows : List SegmentRow) : List UInt32 := (rows.map (·.place.part)).dedup

/-- The plain sizes of the segments of a part, added up. -/
def size (rows : List SegmentRow) (part : UInt32) : Int :=
  ((rows.filter fun r => r.place.part = part).map (·.plainSize)).sum

/-- Segments in the order of their parts. -/
def Sorted (rows : List SegmentRow) : Prop :=
  rows.Pairwise fun a b => a.place.part ≤ b.place.part

theorem mem_numbers : part ∈ numbers rows ↔ ∃ r ∈ rows, r.place.part = part := by
  rw [numbers, List.mem_dedup, List.mem_map]

theorem numbers_cons_of_mem (h : r.place.part ∈ numbers rows) :
    numbers (r :: rows) = numbers rows :=
  List.dedup_cons_of_mem (List.mem_dedup.1 h)

theorem numbers_cons_of_notMem (h : r.place.part ∉ numbers rows) :
    numbers (r :: rows) = r.place.part :: numbers rows :=
  List.dedup_cons_of_notMem fun hmem => h (List.mem_dedup.2 hmem)

theorem size_cons_self : size (r :: rows) r.place.part = r.plainSize + size rows r.place.part := by
  rw [size, List.filter_cons_of_pos (by simp), List.map_cons, List.sum_cons, size]

theorem size_cons_of_ne (h : r.place.part ≠ part) : size (r :: rows) part = size rows part := by
  rw [size, List.filter_cons_of_neg (by simpa using h), size]

/-- A part without segments has no size. -/
theorem size_of_notMem (h : part ∉ numbers rows) : size rows part = 0 := by
  have hnone : (rows.filter fun r => r.place.part = part) = [] := by
    refine List.filter_eq_nil_iff.2 fun r hr hpart => h (mem_numbers.2 ⟨r, hr, ?_⟩)
    exact of_decide_eq_true hpart
  rw [size, hnone, List.map_nil, List.sum_nil]

/-- The part numbers of sorted segments are in ascending order. -/
theorem Sorted.numbers_ascending (h : Sorted rows) : (numbers rows).Pairwise (· < ·) := by
  have hle : (numbers rows).Pairwise (· ≤ ·) :=
    (List.pairwise_map.2 h).sublist (List.dedup_sublist _)
  have hne : (numbers rows).Pairwise (· ≠ ·) := List.nodup_dedup _
  exact hle.imp₂ (fun _ _ hab hne => UInt32.lt_of_le_of_ne hab hne) hne

/-- **The pass over sorted segments finds each part once, with its plain size.** -/
theorem ofSegments_eq (h : Sorted rows) :
    ofSegments rows = (numbers rows).map fun part => (part, size rows part) := by
  induction rows with
  | nil => rfl
  | cons r rest ih =>
    obtain ⟨hr, hrest⟩ := List.pairwise_cons.1 h
    have hascending := Sorted.numbers_ascending hrest
    -- the segments behind have the sizes of their parts, but for the part of the first segment
    have hothers : ∀ parts : List UInt32, r.place.part ∉ parts →
        (parts.map fun part => (part, size rest part)) =
          parts.map fun part => (part, size (r :: rest) part) := by
      intro parts hnot
      refine List.map_congr_left fun part hpart => ?_
      rw [size_cons_of_ne fun heq => hnot (heq ▸ hpart)]
    rw [ofSegments, ih hrest]
    cases hnumbers : numbers rest with
    | nil =>
      have hnew : r.place.part ∉ numbers rest := by
        rw [hnumbers]
        exact List.not_mem_nil
      rw [numbers_cons_of_notMem hnew, hnumbers, List.map_cons, List.map_nil, List.map_nil,
        size_cons_self, size_of_notMem hnew, Int.add_zero]
    | cons next more =>
      rw [hnumbers, List.pairwise_cons] at hascending
      obtain ⟨hnext, -⟩ := hascending
      obtain ⟨k, hk, hkpart⟩ := mem_numbers.1 (hnumbers ▸ List.mem_cons_self : next ∈ numbers rest)
      have hle : r.place.part ≤ next := hkpart ▸ hr k hk
      have hbehind : r.place.part ∉ more := fun hmem =>
        UInt32.not_lt.2 hle (hnext _ hmem)
      simp only [List.map_cons]
      by_cases heq : r.place.part = next
      · -- the first segment joins the part behind it
        have hmem : r.place.part ∈ numbers rest := by
          rw [hnumbers, heq]
          exact List.mem_cons_self
        rw [if_pos heq, numbers_cons_of_mem hmem, hnumbers, List.map_cons, ← heq,
          size_cons_self, hothers more hbehind]
      · have hnew : r.place.part ∉ numbers rest := by
          rw [hnumbers]
          simp [heq, hbehind]
        rw [if_neg heq, numbers_cons_of_notMem hnew, hnumbers, List.map_cons,
          List.map_cons, size_cons_self, size_of_notMem hnew, Int.add_zero,
          size_cons_of_ne heq, hothers more hbehind]

/-! ## The rule -/

/-- The part rule: there are not too many parts, and every part below another one is large enough. -/
structure Allowed (rows : List SegmentRow) (least : Int) (limit : Nat) : Prop where
  few : (numbers rows).length ≤ limit
  large : ∀ part ∈ numbers rows, (∃ higher ∈ numbers rows, part < higher) → least ≤ size rows part

instance (rows : List SegmentRow) (least : Int) (limit : Nat) :
    Decidable (Allowed rows least limit) :=
  -- the parts that are there are looked at one by one, and not all numbers that a part can have
  have : Decidable (∀ part ∈ numbers rows,
      (∃ higher ∈ numbers rows, part < higher) → least ≤ size rows part) :=
    List.decidableBAll _ (numbers rows)
  decidable_of_iff ((numbers rows).length ≤ limit ∧ ∀ part ∈ numbers rows,
      (∃ higher ∈ numbers rows, part < higher) → least ≤ size rows part)
    ⟨fun ⟨hfew, hlarge⟩ => ⟨hfew, hlarge⟩, fun h => ⟨h.few, h.large⟩⟩

/-- What is said of segments that break the rule: that there are too many parts, or else which is the
lowest part that is too small. -/
inductive Refused (rows : List SegmentRow) (least : Int) (limit : Nat) : Rejection → Prop
  | many (hmany : limit < (numbers rows).length) : Refused rows least limit (.tooManyParts limit)
  | small {part : UInt32} (hfew : (numbers rows).length ≤ limit) (hpart : part ∈ numbers rows)
      (hbelow : ∃ higher ∈ numbers rows, part < higher) (hsmall : size rows part < least)
      (hlowest : ∀ lower ∈ numbers rows, lower < part → least ≤ size rows lower) :
      Refused rows least limit (.partTooSmall part (size rows part) least)

theorem Refused.not_allowed {why : Rejection} (h : Refused rows least limit why) :
    ¬ Allowed rows least limit := by
  intro hallowed
  cases h with
  | many hmany => exact absurd hallowed.few (Nat.not_le.2 hmany)
  | small _ hpart hbelow hsmall => exact absurd (hallowed.large _ hpart hbelow) (Int.not_le.2 hsmall)

/-- All parts but the last are those below another one. -/
theorem mem_dropLast_iff {parts : List UInt32} (h : parts.Pairwise (· < ·)) :
    part ∈ parts.dropLast ↔ part ∈ parts ∧ ∃ higher ∈ parts, part < higher := by
  rcases List.eq_nil_or_concat' parts with rfl | ⟨before, last, rfl⟩
  · simp
  · obtain ⟨-, -, hbefore⟩ := List.pairwise_append.1 h
    rw [List.dropLast_concat]
    constructor
    · intro hpart
      exact ⟨List.mem_append_left _ hpart, last, by simp, hbefore part hpart last (by simp)⟩
    · rintro ⟨hpart, higher, hhigher, hlt⟩
      rcases List.mem_append.1 hpart with hpart | hpart
      · exact hpart
      · -- nothing is above the last part
        rw [List.mem_singleton.1 hpart] at hlt
        rcases List.mem_append.1 hhigher with hhigher | hhigher
        · exact absurd (UInt32.lt_trans hlt (hbefore higher hhigher last (by simp)))
            (UInt32.lt_irrefl _)
        · rw [List.mem_singleton.1 hhigher] at hlt
          exact absurd hlt (UInt32.lt_irrefl _)

/-- **The check of the parts is the rule:** it succeeds on segments that keep it, and says what is
wrong with others. -/
theorem check_cases (h : Sorted rows) (least : Int) (limit : Nat) :
    check rows least limit = .ok () ∧ Allowed rows least limit ∨
      ∃ why, check rows least limit = .error (.rejected why) ∧ Refused rows least limit why := by
  have hascending := h.numbers_ascending
  unfold check
  dsimp only
  rw [ofSegments_eq h, List.length_map, ← List.map_dropLast, List.find?_map]
  by_cases hmany : limit < (numbers rows).length
  · refine .inr ⟨_, ?_, .many hmany⟩
    rw [decide_eq_true hmany]
    rfl
  · have hfew : (numbers rows).length ≤ limit := Nat.not_lt.1 hmany
    rw [decide_eq_false hmany]
    cases hfind : (numbers rows).dropLast.find?
        ((fun p : UInt32 × Int => decide (p.2 < least)) ∘ fun part => (part, size rows part)) with
    | none =>
      refine .inl ⟨rfl, hfew, fun part hpart hbelow => ?_⟩
      have hlarge := List.find?_eq_none.1 hfind part ((mem_dropLast_iff hascending).2 ⟨hpart, hbelow⟩)
      exact Int.not_lt.1 fun hsmall => hlarge (decide_eq_true hsmall)
    | some part =>
      obtain ⟨hsmall, before, behind, hsplit, hbefore⟩ := List.find?_eq_some_iff_append.1 hfind
      have hmem : part ∈ (numbers rows).dropLast := List.mem_of_find?_eq_some hfind
      obtain ⟨hpart, hbelow⟩ := (mem_dropLast_iff hascending).1 hmem
      refine .inr ⟨_, rfl, .small hfew hpart hbelow (of_decide_eq_true hsmall) ?_⟩
      intro lower hlower hlt
      -- a lower part stands before the one that was found
      have hdrop := (mem_dropLast_iff hascending).2 ⟨hlower, part, hpart, hlt⟩
      have hparts : (before ++ part :: behind).Pairwise (· < ·) :=
        hsplit ▸ hascending.sublist (List.dropLast_sublist _)
      obtain ⟨-, hbehind, -⟩ := List.pairwise_append.1 hparts
      rw [hsplit] at hdrop
      rcases List.mem_append.1 hdrop with hbeforeMem | hrest
      · have hlarge := hbefore lower hbeforeMem
        simpa using hlarge
      · rcases List.mem_cons.1 hrest with rfl | hrest
        · exact absurd hlt (UInt32.lt_irrefl _)
        · have hgt := (List.pairwise_cons.1 hbehind).1 lower hrest
          exact absurd (UInt32.lt_trans hlt hgt) (UInt32.lt_irrefl _)

end Parts

end ObjectCatalog
