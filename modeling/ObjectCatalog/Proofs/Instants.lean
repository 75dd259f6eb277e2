import Mathlib.Data.List.Basic
import Mathlib.Tactic.IntervalCases
import ObjectCatalog.Time.Instant

/-!
# The order of stored instants

Rows are compared by the text of their instants. Fields of a fixed width compare as their numbers
do, and fractions of 3, 6 or 9 digits do too, as the offset that follows them starts with a sign
below the digits and the point. So texts of the years 0 to 9999 sort as calendar and clock do. The
sign in front of another year sorts below every digit: a year below 0 is in its place among these, but
a year above 9999 sorts before all others.

* `Instant.digits_append_lt`: numbers of one width compare as their digits do.
* `Instant.groups_lt`: numbers written in the groups of three digits that they need.
* `Instant.Misfiled`, `Instant.not_misfiled`, `Instant.misfiled_of_far`: years whose texts are in
  another order than they are.
* `Instant.before_iff`: **texts sort as calendar and clock do, unless the years are misfiled.**
* `Instant.notAfter_iff`: **an instant is not after another of the years 0 to 9999 just when calendar
  and clock say so, or its year is above 9999.**
-/

namespace ObjectCatalog

namespace Instant

/-- The order of readings of calendar and clock. -/
def order : Instant → Instant → Ordering :=
  compareLex (compareOn (·.date.year)) <| compareLex (compareOn (·.date.month)) <|
  compareLex (compareOn (·.date.day)) <| compareLex (compareOn (·.hour)) <|
  compareLex (compareOn (·.minute)) <| compareLex (compareOn (·.second)) (compareOn (·.nano))

/-! ## Digits -/

theorem digitChar_lt {m n : Nat} (hm : m < 10) (hn : n < 10) :
    Nat.digitChar m < Nat.digitChar n ↔ m < n := by
  interval_cases m <;> interval_cases n <;> decide

theorem digitChar_inj {m n : Nat} (hm : m < 10) (hn : n < 10) :
    Nat.digitChar m = Nat.digitChar n ↔ m = n := by
  interval_cases m <;> interval_cases n <;> decide

theorem le_digitChar {n : Nat} (hn : n < 10) : '0' ≤ Nat.digitChar n := by
  interval_cases n <;> decide

theorem digits_succ_append (w n : Nat) (tail : List Char) :
    digits (w + 1) n ++ tail = digits w (n / 10) ++ Nat.digitChar (n % 10) :: tail := by
  rw [digits, List.append_assoc, List.singleton_append]

/-- **Numbers of one width compare as their digits do,** and equal ones as what follows. -/
theorem digits_append_lt {w m n : Nat} (hm : m < 10 ^ w) (hn : n < 10 ^ w) (u v : List Char) :
    digits w m ++ u < digits w n ++ v ↔ m < n ∨ m = n ∧ u < v := by
  induction w generalizing m n u v with
  | zero =>
    have hmn : m = 0 ∧ n = 0 := by simp at hm hn; omega
    simp [digits, hmn]
  | succ w ih =>
    -- the last digit goes to what follows, and the digits before it are those of the tens
    have hm' : m / 10 < 10 ^ w := by rw [pow_succ] at hm; omega
    have hn' : n / 10 < 10 ^ w := by rw [pow_succ] at hn; omega
    have hlast := digitChar_lt (Nat.mod_lt m (by decide : 0 < 10)) (Nat.mod_lt n (by decide : 0 < 10))
    have heq := digitChar_inj (Nat.mod_lt m (by decide : 0 < 10)) (Nat.mod_lt n (by decide : 0 < 10))
    rw [digits_succ_append, digits_succ_append, ih hm' hn', List.cons_lt_cons_iff, hlast, heq]
    constructor
    · rintro (h | ⟨h, h' | ⟨h', huv⟩⟩)
      · exact .inl (by omega)
      · exact .inl (by omega)
      · exact .inr ⟨by omega, huv⟩
    · rintro (h | ⟨rfl, huv⟩)
      · by_cases htens : m / 10 < n / 10
        · exact .inl htens
        · exact .inr ⟨by omega, .inl (by omega)⟩
      · exact .inr ⟨rfl, .inr ⟨rfl, huv⟩⟩

/-- A character below the digits sorts before a number. -/
theorem cons_lt_digits {c : Char} (hc : c < '0') (w n : Nat) (u v : List Char) :
    c :: u < digits (w + 1) n ++ v := by
  induction w generalizing n v with
  | zero =>
    have hdigit : '0' ≤ Nat.digitChar (n % 10) := le_digitChar (Nat.mod_lt n (by decide))
    rw [digits_succ_append, digits, List.nil_append, List.cons_lt_cons_iff]
    exact .inl (Std.lt_of_lt_of_le hc hdigit)
  | succ w ih =>
    rw [digits_succ_append]
    exact ih (n / 10) _

theorem digits_mod (w n : Nat) : digits w (n % 10 ^ w) = digits w n := by
  induction w generalizing n with
  | zero => rfl
  | succ w ih =>
    have htens : n % 10 ^ (w + 1) / 10 = n / 10 % 10 ^ w := by
      rw [pow_succ', Nat.mod_mul_right_div_self]
    have hones : n % 10 ^ (w + 1) % 10 = n % 10 := by
      exact Nat.mod_mod_of_dvd n ⟨10 ^ w, pow_succ' 10 w⟩
    rw [digits, digits, htens, hones, ih]

theorem digits_add (w v n : Nat) : digits (w + v) n = digits w (n / 10 ^ v) ++ digits v n := by
  induction v generalizing n with
  | zero => simp [digits]
  | succ v ih =>
    rw [← Nat.add_assoc, digits, ih, digits, Nat.div_div_eq_div_mul, ← pow_succ', List.append_assoc]

/-! ## Fractions -/

/-- The groups of three digits of a number of `3 k` digits, without the zeros at the end, and then a
tail. -/
def groups (tail : List Char) : (k n : Nat) → List Char
  | 0, _ => tail
  | k + 1, n =>
    if n = 0 then tail else digits 3 (n / 1000 ^ k) ++ groups tail k (n % 1000 ^ k)

/-- Numbers compare as their groups of digits do, when the tail sorts before all digits. -/
theorem groups_lt {c : Char} (hc : c < '0') (u : List Char) {k m n : Nat} (hm : m < 1000 ^ k)
    (hn : n < 1000 ^ k) : groups (c :: u) k m < groups (c :: u) k n ↔ m < n := by
  induction k generalizing m n with
  | zero =>
    have hmn : m = n := by simp at hm hn; omega
    simp [groups, hmn]
  | succ k ih =>
    have hpos : 0 < 1000 ^ k := by positivity
    have hhead : ∀ i < 1000 ^ (k + 1), i / 1000 ^ k < 10 ^ 3 := fun i hi =>
      Nat.div_lt_of_lt_mul (by rw [pow_succ] at hi; exact hi)
    simp only [groups]
    -- zeros at the end are not written, so the tail of one stands against a digit of the other
    by_cases hm0 : m = 0 <;> by_cases hn0 : n = 0
    · simp [hm0, hn0]
    · rw [if_pos hm0, if_neg hn0]
      exact iff_of_true (cons_lt_digits hc 2 _ u _) (by omega)
    · rw [if_neg hm0, if_pos hn0]
      exact iff_of_false (List.lt_asymm (cons_lt_digits hc 2 _ u _)) (by omega)
    · rw [if_neg hm0, if_neg hn0, digits_append_lt (hhead m hm) (hhead n hn),
        ih (Nat.mod_lt m hpos) (Nat.mod_lt n hpos)]
      have hm' := Nat.div_add_mod m (1000 ^ k)
      have hn' := Nat.div_add_mod n (1000 ^ k)
      constructor
      · rintro (h | ⟨h, hrest⟩)
        · exact lt_of_not_ge fun hle => absurd (Nat.div_le_div_right hle) (not_le.2 h)
        · rw [h] at hm'; omega
      · intro hlt
        rcases (Nat.div_le_div_right (c := 1000 ^ k) hlt.le).lt_or_eq with h | h
        · exact .inl h
        · rw [h] at hm'
          exact .inr ⟨h, by omega⟩

theorem groups_zero (tail : List Char) (k : Nat) : groups tail k 0 = tail := by
  cases k <;> rfl

theorem groups_succ (tail : List Char) (k : Nat) {n : Nat} (hn : n ≠ 0) :
    groups tail (k + 1) n = digits 3 (n / 1000 ^ k) ++ groups tail k (n % 1000 ^ k) := by
  rw [groups, if_neg hn]

theorem fractionText_append (nano : Nat) (tail : List Char) :
    fractionText nano ++ tail = if nano = 0 then tail else '.' :: groups tail 3 nano := by
  have hmicros : digits 6 (nano / 1000) =
      digits 3 (nano / 1000 ^ 2) ++ digits 3 (nano % 1000 ^ 2 / 1000 ^ 1) := by
    have hrest : nano / 1000 % 10 ^ 3 = nano % 1000 ^ 2 / 1000 ^ 1 := by omega
    rw [digits_add 3 3, Nat.div_div_eq_div_mul, ← digits_mod 3 (nano / 1000), hrest]
    rfl
  have hnanos : digits 9 nano = digits 6 (nano / 1000) ++ digits 3 (nano % 1000 ^ 2 % 1000 ^ 1) := by
    have hrest : nano % 10 ^ 3 = nano % 1000 ^ 2 % 1000 ^ 1 := by omega
    rw [digits_add 6 3, ← digits_mod 3 nano, hrest]
    rfl
  -- the text has 0, 3, 6 or 9 digits
  unfold fractionText
  by_cases h0 : nano = 0
  · rw [if_pos h0, if_pos h0, List.nil_append]
  rw [if_neg h0, if_neg h0, groups_succ tail 2 h0]
  by_cases hmillis : nano % 1000000 = 0
  · have hrest : nano % 1000 ^ 2 = 0 := hmillis
    rw [if_pos hmillis, hrest, groups_zero]
    rfl
  have hrest : nano % 1000 ^ 2 ≠ 0 := hmillis
  rw [if_neg hmillis, groups_succ tail 1 hrest]
  by_cases hmic : nano % 1000 = 0
  · have hlast : nano % 1000 ^ 2 % 1000 ^ 1 = 0 := by omega
    rw [if_pos hmic, hmicros, hlast, groups_zero, List.cons_append, List.append_assoc]
  · have hlast : nano % 1000 ^ 2 % 1000 ^ 1 ≠ 0 := by omega
    rw [if_neg hmic, hnanos, hmicros, groups_succ tail 0 hlast, List.cons_append, List.append_assoc,
      List.append_assoc, pow_zero, Nat.div_one]
    rfl

/-- Fractions of a second compare as their texts do in front of an offset. -/
theorem fractionText_lt {m n : Nat} (hm : m < 1000000000) (hn : n < 1000000000) (u : List Char) :
    fractionText m ++ '+' :: u < fractionText n ++ '+' :: u ↔ m < n := by
  have hgroups : groups ('+' :: u) 3 m < groups ('+' :: u) 3 n ↔ m < n :=
    groups_lt (by decide) u hm hn
  have hpoint : ∀ v : List Char, '+' :: u < '.' :: v := fun v =>
    List.cons_lt_cons_iff.2 (.inl (by decide))
  rw [fractionText_append, fractionText_append]
  -- where one has no fraction, its offset stands against the point of the other
  by_cases hm0 : m = 0 <;> by_cases hn0 : n = 0
  · simp [hm0, hn0]
  · rw [if_pos hm0, if_neg hn0]
    exact iff_of_true (hpoint _) (by omega)
  · rw [if_neg hm0, if_pos hn0]
    exact iff_of_false (List.lt_asymm (hpoint _)) (by omega)
  · rw [if_neg hm0, if_neg hn0, List.cons_lt_cons_self, hgroups]

/-! ## Whole texts -/

/-- The text after the year. -/
def afterYear (t : Instant) : List Char :=
  '-' :: digits 2 t.date.month ++ '-' :: digits 2 t.date.day ++
    'T' :: digits 2 t.hour ++ ':' :: digits 2 t.minute ++ ':' :: digits 2 t.second ++
    fractionText t.nano ++ ['+', '0', '0', ':', '0', '0']

theorem text_eq (t : Instant) : t.text = yearText t.date.year ++ t.afterYear := by
  simp [text, written, afterYear]

theorem isLE_order_iff (a b : Instant) : (a.order b).isLE ↔
    a.date.year < b.date.year ∨ a.date.year = b.date.year ∧
    (a.date.month < b.date.month ∨ a.date.month = b.date.month ∧
    (a.date.day < b.date.day ∨ a.date.day = b.date.day ∧
    (a.hour < b.hour ∨ a.hour = b.hour ∧
    (a.minute < b.minute ∨ a.minute = b.minute ∧
    (a.second < b.second ∨ a.second = b.second ∧ a.nano ≤ b.nano))))) := by
  simp only [order, compareLex, compareOn, Ordering.isLE_then_iff_or, compare_lt_iff_lt,
    compare_eq_iff_eq, Nat.isLE_compare]

theorem afterYear_lt (a b : Instant) : a.afterYear < b.afterYear ↔
    a.date.month < b.date.month ∨ a.date.month = b.date.month ∧
    (a.date.day < b.date.day ∨ a.date.day = b.date.day ∧
    (a.hour < b.hour ∨ a.hour = b.hour ∧
    (a.minute < b.minute ∨ a.minute = b.minute ∧
    (a.second < b.second ∨ a.second = b.second ∧ a.nano < b.nano)))) := by
  have hmonth : ∀ t : Instant, t.date.month < 10 ^ 2 := fun t => by have := t.date.month_le; omega
  have hday : ∀ t : Instant, t.date.day < 10 ^ 2 := fun t => by have := t.date.day_le; omega
  have hhour : ∀ t : Instant, t.hour < 10 ^ 2 := fun t => by have := t.hour_lt; omega
  have hminute : ∀ t : Instant, t.minute < 10 ^ 2 := fun t => by have := t.minute_lt; omega
  have hsecond : ∀ t : Instant, t.second < 10 ^ 2 := fun t => by have := t.second_le; omega
  simp only [afterYear, List.append_assoc, List.cons_append, List.cons_lt_cons_self]
  rw [digits_append_lt (hmonth a) (hmonth b), List.cons_lt_cons_self,
    digits_append_lt (hday a) (hday b), List.cons_lt_cons_self,
    digits_append_lt (hhour a) (hhour b), List.cons_lt_cons_self,
    digits_append_lt (hminute a) (hminute b), List.cons_lt_cons_self,
    digits_append_lt (hsecond a) (hsecond b), fractionText_lt a.nano_lt b.nano_lt]

/-! ## Years -/

theorem length_digits (w n : Nat) : (digits w n).length = w := by
  induction w generalizing n with
  | zero => rfl
  | succ w ih => rw [digits, List.length_append, ih, List.length_singleton]

theorem le_of_mem_digits {w n : Nat} {c : Char} (hc : c ∈ digits w n) : '0' ≤ c := by
  induction w generalizing n with
  | zero => cases hc
  | succ w ih =>
    rcases List.mem_append.1 hc with hc | hc
    · exact ih hc
    · rw [List.mem_singleton.1 hc]
      exact le_digitChar (Nat.mod_lt n (by decide))

theorem digits_inj {w m n : Nat} (hm : m < 10 ^ w) (hn : n < 10 ^ w)
    (h : digits w m = digits w n) : m = n := by
  have hlt := digits_append_lt hm hn [] []
  have hgt := digits_append_lt hn hm [] []
  simp only [List.append_nil, h, List.lt_irrefl, and_false, or_false, false_iff] at hlt hgt
  omega

/-- The digits of a year with a sign: four of them, or more for a greater number. -/
def signedDigits (n : Nat) : List Char := if n < 10000 then digits 4 n else Nat.toDigits 10 n

theorem le_of_mem_signedDigits {n : Nat} {c : Char} (hc : c ∈ signedDigits n) : '0' ≤ c := by
  unfold signedDigits at hc
  split at hc
  · exact le_of_mem_digits hc
  · have hdigit : c.isDigit = true :=
      Nat.isDigit_of_mem_toDigits (b := 10) (by decide) (by decide) hc
    rw [Char.isDigit, Bool.and_eq_true, decide_eq_true_eq] at hdigit
    exact hdigit.1

theorem signedDigits_inj {m n : Nat} (h : signedDigits m = signedDigits n) : m = n := by
  have hlong : ∀ i, ¬ i < 10000 → 4 < (Nat.toDigits 10 i).length := by
    intro i hi
    have hlen := Nat.length_toDigits_le_iff (b := 10) (n := i) (k := 4) (by decide) (by decide)
    omega
  unfold signedDigits at h
  by_cases hm : m < 10000 <;> by_cases hn : n < 10000
  · rw [if_pos hm, if_pos hn] at h
    exact digits_inj (w := 4) hm hn h
  · rw [if_pos hm, if_neg hn] at h
    have hlen := hlong n hn
    rw [← h, length_digits] at hlen
    omega
  · rw [if_neg hm, if_pos hn] at h
    have hlen := hlong m hm
    rw [h, length_digits] at hlen
    omega
  · rw [if_neg hm, if_neg hn] at h
    have hread := congrArg (Nat.ofDigitChars 10 · 0) h
    simpa only [Nat.ofDigitChars_ten_toDigits] using hread

section Years

variable {y z : Int}

theorem yearText_of_mid (hy : 0 ≤ y ∧ y ≤ 9999) : yearText y = digits 4 y.toNat := if_pos hy

theorem yearText_of_neg (hy : y < 0) : yearText y = '-' :: signedDigits y.natAbs := by
  rw [yearText, if_neg (by omega)]
  simp only [hy, if_true, signedDigits]

theorem yearText_of_far (hy : 9999 < y) : yearText y = '+' :: signedDigits y.natAbs := by
  have hneg : ¬ y < 0 := by omega
  rw [yearText, if_neg (by omega)]
  simp only [hneg, if_false, signedDigits]

/-- A year starts with a digit or a sign, and digits follow. -/
theorem exists_yearText (y : Int) : ∃ c ds, yearText y = c :: ds ∧ ∀ d ∈ ds, '0' ≤ d := by
  by_cases hneg : y < 0
  · exact ⟨_, _, yearText_of_neg hneg, fun _ => le_of_mem_signedDigits⟩
  · by_cases hfar : 9999 < y
    · exact ⟨_, _, yearText_of_far hfar, fun _ => le_of_mem_signedDigits⟩
    · have htext := yearText_of_mid (y := y) (by omega)
      have hdigits : ∀ d ∈ yearText y, '0' ≤ d := fun d hd => le_of_mem_digits (htext ▸ hd)
      cases hyear : yearText y with
      | nil =>
        have hlen := length_digits 4 y.toNat
        rw [← htext, hyear] at hlen
        cases hlen
      | cons c ds =>
        rw [hyear] at hdigits
        exact ⟨c, ds, rfl, fun d hd => hdigits d (List.mem_cons_of_mem _ hd)⟩

/-- A sign stands in front of a year below 0 or above 9999 only. -/
theorem yearText_mid_ne (hy : 0 ≤ y ∧ y ≤ 9999) {c : Char} (hc : c < '0') (ds : List Char) :
    yearText y ≠ c :: ds := by
  intro h
  have hmem : c ∈ digits 4 y.toNat := by
    rw [← yearText_of_mid hy, h]
    exact List.mem_cons_self
  exact Std.lt_irrefl (Std.lt_of_lt_of_le hc (le_of_mem_digits hmem))

/-- **Years have different texts.** -/
theorem yearText_inj (h : yearText y = yearText z) : y = z := by
  have hnegative : ∀ {y z : Int}, yearText y = yearText z → y < 0 → z < 0 := by
    intro y z h hy
    rw [yearText_of_neg hy] at h
    by_contra hz
    by_cases hfar : 9999 < z
    · rw [yearText_of_far hfar] at h
      cases h
    · exact yearText_mid_ne (by omega) (by decide) _ h.symm
  have hgreat : ∀ {y z : Int}, yearText y = yearText z → 9999 < y → 9999 < z := by
    intro y z h hy
    by_contra hz
    by_cases hneg : z < 0
    · have hback := hnegative h.symm hneg
      omega
    · rw [yearText_of_far hy] at h
      exact yearText_mid_ne (by omega) (by decide) _ h.symm
  by_cases hy : y < 0
  · have hz := hnegative h hy
    rw [yearText_of_neg hy, yearText_of_neg hz] at h
    have habs := signedDigits_inj (List.cons.inj h).2
    omega
  by_cases hfar : 9999 < y
  · have hz := hgreat h hfar
    rw [yearText_of_far hfar, yearText_of_far hz] at h
    have habs := signedDigits_inj (List.cons.inj h).2
    omega
  · have hz : ¬ z < 0 := fun hz => hy (hnegative h.symm hz)
    have hz' : ¬ 9999 < z := fun hz' => hfar (hgreat h.symm hz')
    rw [yearText_of_mid (by omega), yearText_of_mid (by omega)] at h
    have hnat := digits_inj (w := 4) (by omega) (by omega) h
    omega

/-- Whether the texts of two years are in another order than the years. -/
def Misfiled (y z : Int) : Prop := ¬ (yearText y < yearText z ↔ y < z)

instance (y z : Int) : Decidable (Misfiled y z) := inferInstanceAs (Decidable (¬ _))

/-- **Years up to 9999 are filed in order,** unless both are below 0. -/
theorem not_misfiled (hy : y ≤ 9999) (hz : z ≤ 9999) (hone : 0 ≤ y ∨ 0 ≤ z) : ¬ Misfiled y z := by
  rw [Misfiled, not_not]
  by_cases hyNeg : y < 0
  · rw [yearText_of_neg hyNeg, yearText_of_mid (y := z) (by omega), ← List.append_nil (digits 4 _)]
    exact iff_of_true (cons_lt_digits (by decide) 3 _ _ _) (by omega)
  by_cases hzNeg : z < 0
  · rw [yearText_of_neg hzNeg, yearText_of_mid (y := y) (by omega), ← List.append_nil (digits 4 _)]
    exact iff_of_false (List.lt_asymm (cons_lt_digits (by decide) 3 _ _ _)) (by omega)
  · have hlt := digits_append_lt (w := 4) (m := y.toNat) (n := z.toNat) (by omega) (by omega) [] []
    simp only [List.append_nil, List.lt_irrefl, and_false, or_false] at hlt
    rw [yearText_of_mid (by omega), yearText_of_mid (by omega), hlt]
    omega

/-- **A year above 9999 is filed before all years up to it.** -/
theorem misfiled_of_far (hy : 9999 < y) (hz : z ≤ 9999) : Misfiled y z ∧ Misfiled z y := by
  have hbelow : yearText y < yearText z := by
    rw [yearText_of_far hy]
    by_cases hneg : z < 0
    · rw [yearText_of_neg hneg]
      exact List.cons_lt_cons_iff.2 (.inl (by decide))
    · rw [yearText_of_mid (by omega), ← List.append_nil (digits 4 _)]
      exact cons_lt_digits (by decide) 3 _ _ _
  have hnot : ¬ yearText z < yearText y := List.lt_asymm hbelow
  constructor
  · intro h
    have := h.1 hbelow
    omega
  · intro h
    exact hnot (h.2 (by omega))

end Years

/-! ## The order of texts -/

/-- Numbers in front of a sign that sorts below the digits compare as if they stood alone. -/
theorem append_sign_lt {u v : List Char} (hu : ∀ c ∈ u, '0' ≤ c) (hv : ∀ c ∈ v, '0' ≤ c)
    (a b : List Char) : u ++ '-' :: a < v ++ '-' :: b ↔ u < v ∨ u = v ∧ a < b := by
  have hsign : ∀ c : Char, '0' ≤ c → '-' < c := fun c hc =>
    Std.lt_of_lt_of_le (by decide) hc
  induction u generalizing v with
  | nil =>
    cases v with
    | nil => simp
    | cons d vs =>
      have hd := hsign d (hv d List.mem_cons_self)
      exact iff_of_true (List.cons_lt_cons_iff.2 (.inl hd)) (.inl (List.nil_lt_cons d vs))
  | cons c us ih =>
    have hc := hsign c (hu c List.mem_cons_self)
    cases v with
    | nil =>
      have hgt : ('-' :: b) < (c :: us) ++ '-' :: a := List.cons_lt_cons_iff.2 (.inl hc)
      exact iff_of_false (List.lt_asymm hgt) (by simp)
    | cons d vs =>
      have hrest : us ++ '-' :: a < vs ++ '-' :: b ↔ us < vs ∨ us = vs ∧ a < b :=
        ih (fun e he => hu e (List.mem_cons_of_mem _ he))
          fun e he => hv e (List.mem_cons_of_mem _ he)
      rw [List.cons_append, List.cons_append, List.cons_lt_cons_iff, hrest, List.cons_lt_cons_iff,
        List.cons.injEq]
      rw [and_or_left, or_assoc, and_assoc]

/-- Texts compare as those of their years, and then as what follows. -/
theorem text_lt_iff (a b : Instant) : a.text < b.text ↔
    yearText a.date.year < yearText b.date.year ∨
      a.date.year = b.date.year ∧ a.afterYear < b.afterYear := by
  have hyears : yearText a.date.year = yearText b.date.year ↔ a.date.year = b.date.year :=
    ⟨yearText_inj, congrArg yearText⟩
  obtain ⟨c, ds, ha, hds⟩ := exists_yearText a.date.year
  obtain ⟨d, es, hb, hes⟩ := exists_yearText b.date.year
  have hafter : ∀ t : Instant, ∃ rest, t.afterYear = '-' :: rest := fun t => ⟨_, rfl⟩
  obtain ⟨u, hu⟩ := hafter a
  obtain ⟨v, hv⟩ := hafter b
  rw [text_eq, text_eq, ← hyears, ha, hb, hu, hv, List.cons_append, List.cons_append,
    List.cons_lt_cons_iff, append_sign_lt hds hes, List.cons_lt_cons_iff, List.cons.injEq,
    List.cons_lt_cons_self]
  rw [and_or_left, or_assoc, and_assoc]

theorem order_eq_lt_iff (a b : Instant) : a.order b = .lt ↔
    a.date.year < b.date.year ∨ a.date.year = b.date.year ∧ a.afterYear < b.afterYear := by
  rw [afterYear_lt]
  simp only [order, compareLex, compareOn, Ordering.then_eq_lt, compare_lt_iff_lt,
    compare_eq_iff_eq]

/-- Whether an instant is filed before another: it comes before it, unless their years are misfiled. -/
def FiledBefore (a b : Instant) : Prop :=
  a.order b = .lt ↔ ¬ Misfiled a.date.year b.date.year

/-- **The text of an instant sorts below that of another just when it is filed before it.** -/
theorem before_iff (a b : Instant) : a.before b = true ↔ a.FiledBefore b := by
  rw [before, decide_eq_true_eq, text_lt_iff, FiledBefore, order_eq_lt_iff, Misfiled, not_not]
  rcases lt_trichotomy a.date.year b.date.year with hlt | heq | hgt
  · have hne : a.date.year ≠ b.date.year := by omega
    simp only [hlt, hne, false_and, or_false, true_iff, iff_true]
  · simp only [heq, List.lt_irrefl, Int.lt_irrefl, false_or, true_and, iff_self, iff_true]
  · have hne : a.date.year ≠ b.date.year := by omega
    have hnot : ¬ a.date.year < b.date.year := by omega
    simp only [hnot, hne, false_and, or_false, false_iff, iff_false, not_not]

/-- Of instants of years up to 9999 that are not both below 0, the earlier one is filed before the
other. -/
theorem filedBefore_iff {a b : Instant} (ha : a.date.year ≤ 9999) (hb : b.date.year ≤ 9999)
    (hone : 0 ≤ a.date.year ∨ 0 ≤ b.date.year) : a.FiledBefore b ↔ a.order b = .lt := by
  have hfiled := not_misfiled ha hb hone
  rw [FiledBefore, iff_true_right hfiled]

/-- An instant of a year above 9999 is filed before all those of years up to 9999. -/
theorem filedBefore_of_far {a b : Instant} (ha : 9999 < a.date.year) (hb : b.date.year ≤ 9999) :
    a.FiledBefore b ∧ ¬ b.FiledBefore a := by
  obtain ⟨hmisfiled, hmisfiled'⟩ := misfiled_of_far ha hb
  have hlt : b.order a = .lt := (order_eq_lt_iff b a).2 (.inl (by omega))
  have hnot : ¬ a.order b = .lt := fun h => by
    rcases (order_eq_lt_iff a b).1 h with hlt | ⟨heq, -⟩
    · omega
    · omega
  rw [FiledBefore, FiledBefore]
  exact ⟨iff_of_false hnot (not_not.2 hmisfiled), fun h => h.1 hlt hmisfiled'⟩

theorem notAfter_iff_not_filedBefore (a b : Instant) :
    a.notAfter b = true ↔ ¬ b.FiledBefore a := by
  rw [← before_iff, notAfter, Bool.not_eq_true', Bool.not_eq_true]

/-- **An instant is not after another of the years 0 to 9999 just when calendar and clock say so,** or
its year is above 9999, whose sign sorts before the digits. -/
theorem notAfter_iff {a b : Instant} (hb : 0 ≤ b.date.year ∧ b.date.year ≤ 9999) :
    a.notAfter b = true ↔ (a.order b).isLE ∨ 9999 < a.date.year := by
  rw [notAfter_iff_not_filedBefore, FiledBefore, order_eq_lt_iff]
  by_cases hfar : 9999 < a.date.year
  · have hmisfiled := (misfiled_of_far hfar hb.2).2
    have hlt : b.date.year < a.date.year := by omega
    simp only [hmisfiled, hlt, hfar, true_or, or_true, not_true, iff_false, not_false_eq_true]
  · have hfiled := not_misfiled hb.2 (not_lt.1 hfar) (.inl hb.1)
    rw [isLE_order_iff, afterYear_lt]
    simp only [hfiled, hfar, not_false_eq_true, iff_true, or_false]
    omega

end Instant

end ObjectCatalog
