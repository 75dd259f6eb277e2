import Mathlib.Tactic
import ObjectCatalog.Piece.Blob

/-!
# Blobs of written piece lists

* `Blob.varint?_putVarint`: a number that was written is read back, and what follows it is left.
* `Blob.decode_encode`: **a piece list that was written is read back**, for every list.
* `Blob.holdsPieces_encode`: the length of a blob tells whether its list has pieces.
-/

namespace ObjectCatalog

namespace Blob

theorem length_putVarint_pos (n : Nat) : 0 < (putVarint n).length := by
  rw [putVarint]; split <;> simp

/-- One reading of a written number, with the bits before it carried as its weight. -/
theorem takeVarint_putVarint {limit weight n : Nat} (rest : Bytes) (hlimit : n < 128 ^ limit)
    (hweight : n * weight < 18446744073709551616) (hpos : 0 < limit) :
    takeVarint limit weight (putVarint n ++ rest) = some (n * weight, rest) := by
  induction limit generalizing weight n with
  | zero => omega
  | succ limit ih =>
    by_cases hn : n < 128
    · have hbyte : (n.toUInt8).toNat = n := by
        rw [UInt8.toNat_ofNat']; omega
      have hlt : n.toUInt8 < 128 := UInt8.lt_iff_toNat_lt.2 (by rw [hbyte]; exact hn)
      rw [putVarint, if_pos hn]
      simp only [List.singleton_append, takeVarint, hbyte, if_pos hlt, Nat.mod_eq_of_lt hn,
        Nat.mod_eq_of_lt hweight]
    · have hbyte : ((n % 128 + 128).toUInt8).toNat = n % 128 + 128 := by
        rw [UInt8.toNat_ofNat']; omega
      have hge : ¬ (n % 128 + 128).toUInt8 < 128 := by
        intro h
        have hlt : (n % 128 + 128).toUInt8.toNat < 128 := UInt8.lt_iff_toNat_lt.1 h
        omega
      -- what is left after the low seven bits is read with 128 times the weight
      have hsplit : n % 128 * weight + n / 128 * (weight * 128) = n * weight := by
        conv_rhs => rw [← Nat.mod_add_div n 128]
        ring
      have hhigh : n / 128 * (weight * 128) < 18446744073709551616 := by omega
      have hlow : n % 128 * weight < 18446744073709551616 := by omega
      have hdiv : n / 128 < 128 ^ limit := by
        rw [Nat.div_lt_iff_lt_mul (by omega), ← Nat.pow_succ]; exact hlimit
      have hpos' : 0 < limit := by
        rcases Nat.eq_zero_or_pos limit with rfl | h
        · simp at hdiv; omega
        · exact h
      rw [putVarint, if_neg hn]
      simp only [List.cons_append, takeVarint, hbyte, if_neg hge, ih hdiv hhigh hpos',
        Option.map_some, Nat.add_mod_right, Nat.mod_mod, Nat.mod_eq_of_lt hlow, hsplit]

/-- A written number below 2^64 is read back. -/
theorem varint?_putVarint {n : Nat} (hn : n < 18446744073709551616) (rest : Bytes) :
    varint? (putVarint n ++ rest) = some (n, rest) := by
  have h := @takeVarint_putVarint 10 1 n rest
    (lt_of_lt_of_le hn (by norm_num)) (by omega) (by omega)
  rwa [Nat.mul_one] at h

/-- The bytes of one piece. -/
def putPiece (p : AliasPiece) : Bytes :=
  putVarint p.number.toNat ++ putVarint p.short.toUInt64.toNat

theorem encode_eq (pieces : List AliasPiece) : encode pieces = version :: pieces.flatMap putPiece :=
  rfl

theorem length_putPiece_pos (p : AliasPiece) : 0 < (putPiece p).length := by
  have := length_putVarint_pos p.number.toNat
  simp only [putPiece, List.length_append]
  omega

theorem decodePieces_putPiece (p : AliasPiece) (rest : Bytes) :
    decodePieces (putPiece p ++ rest) = (decodePieces rest).map (p :: ·) := by
  have hnumber : varint? (putPiece p ++ rest) =
      some (p.number.toNat, putVarint p.short.toUInt64.toNat ++ rest) := by
    rw [putPiece, List.append_assoc]
    exact varint?_putVarint (lt_trans p.number.toNat_lt (by norm_num)) _
  have hshort : varint? (putVarint p.short.toUInt64.toNat ++ rest) =
      some (p.short.toUInt64.toNat, rest) := varint?_putVarint p.short.toUInt64.toNat_lt rest
  obtain ⟨x, xs, hx⟩ : ∃ x xs, putPiece p ++ rest = x :: xs := by
    have := length_putPiece_pos p
    cases h : putPiece p ++ rest with
    | nil => rw [List.append_eq_nil_iff] at h; rw [h.1] at this; simp at this
    | cons x xs => exact ⟨x, xs, rfl⟩
  rw [hx] at hnumber ⊢
  rw [decodePieces]
  split
  · next h => rw [hnumber] at h; cases h
  · next number r h =>
    rw [hnumber] at h
    cases h
    split
    · next h => rw [hshort] at h; cases h
    · next short r h =>
      rw [hshort] at h
      cases h
      have hlt : p.number.toNat < 65536 := p.number.toNat_lt
      rw [if_pos hlt]
      simp only [UInt16.ofNat_toNat, UInt64.ofNat_toNat, Int64.toInt64_toUInt64]
      cases decodePieces rest <;> rfl

theorem decodePieces_flatMap (pieces : List AliasPiece) :
    decodePieces (pieces.flatMap putPiece) = .ok pieces := by
  induction pieces with
  | nil => rw [List.flatMap_nil, decodePieces]; rfl
  | cons p rest ih => rw [List.flatMap_cons, decodePieces_putPiece, ih]; rfl

/-- **A piece list that was written is read back.** -/
theorem decode_encode (pieces : List AliasPiece) : decode (encode pieces) = .ok pieces := by
  rw [encode_eq, decode, if_pos rfl, decodePieces_flatMap]

theorem stored_encode (pieces : List AliasPiece) : stored (some (encode pieces)) = .ok pieces :=
  decode_encode pieces

/-- The length of a written blob tells whether its list has pieces. -/
theorem holdsPieces_encode {pieces : List AliasPiece} :
    holdsPieces (some (encode pieces)) = true ↔ pieces ≠ [] := by
  cases pieces with
  | nil => simp [holdsPieces, encode_eq]
  | cons p rest =>
    have := length_putPiece_pos p
    simp only [holdsPieces, encode_eq, Option.any_some, List.length_cons, List.flatMap_cons,
      List.length_append, decide_eq_true_eq, ne_eq, reduceCtorEq, not_false_eq_true, iff_true]
    omega

end Blob

end ObjectCatalog
