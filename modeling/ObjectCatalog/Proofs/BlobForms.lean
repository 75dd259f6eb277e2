import ObjectCatalog.Proofs.Blobs

/-!
# Blobs that can be read

A reader meets blobs that nobody wrote: cut off, with bytes that say nothing, or no blobs at all. It
takes them piece by piece, and what it has taken does not depend on what follows. So a blob that is
cut off yields the pieces before the cut or is refused, and the written form of a list is the shortest
of all blobs with the same pieces.

* `Blob.takePiece`, `Blob.decodePieces_eq`: a reading as a sequence of pieces.
* `Blob.varint?_spec`: a number fits the seven bits of each byte that it was read from.
* `Blob.decode_append`: **a blob that goes on after one that can be read** has the pieces of both.
* `Blob.length_encode_le`: no blob of a list is shorter than the written one.
* `Blob.codec_exact`: **reading undoes writing, and reads or refuses everything else.**
-/

namespace ObjectCatalog

namespace Blob

variable {limit weight n k : Nat} {b d rest tail : Bytes} {p : AliasPiece} {l l' : List AliasPiece}
  {e : Error}

/-! ## Numbers -/

/-- A number that fits the seven bits of some bytes takes no more of them. -/
theorem length_putVarint_le (hk : 0 < k) (hn : n < 128 ^ k) : (putVarint n).length ≤ k := by
  induction k generalizing n with
  | zero => omega
  | succ k ih =>
    rw [putVarint]
    split
    · simp
    · next hlarge =>
      have hdiv : n / 128 < 128 ^ k := by
        rw [Nat.div_lt_iff_lt_mul (by omega), ← Nat.pow_succ]
        exact hn
      have hpos : 0 < k := by
        rcases Nat.eq_zero_or_pos k with rfl | hpos
        · simp at hn
          omega
        · exact hpos
      have hrest := ih hpos hdiv
      simp only [List.length_cons]
      omega

/-- **A number is read from bytes with room for it.** The weight of the lowest bit is carried along. -/
theorem takeVarint_spec (h : takeVarint limit weight b = some (n, rest)) :
    ∃ used, b = used ++ rest ∧ 0 < used.length ∧ n + weight ≤ weight * 128 ^ used.length := by
  induction limit generalizing weight b n with
  | zero => simp [takeVarint] at h
  | succ limit ih =>
    cases b with
    | nil => simp [takeVarint] at h
    | cons x xs =>
      -- a byte counts for at most 127 weights, also where its highest bits are lost
      have hpart : x.toNat % 128 * weight % 18446744073709551616 ≤ 127 * weight := by
        have hmod := Nat.mod_le (x.toNat % 128 * weight) 18446744073709551616
        have hmul : x.toNat % 128 * weight ≤ 127 * weight := Nat.mul_le_mul_right _ (by omega)
        omega
      simp only [takeVarint] at h
      split at h
      · simp only [Option.some.injEq, Prod.mk.injEq] at h
        obtain ⟨rfl, rfl⟩ := h
        refine ⟨[x], rfl, by simp, ?_⟩
        simp only [List.length_singleton, pow_one]
        omega
      · obtain ⟨⟨m, r⟩, hm, hsum⟩ := Option.map_eq_some_iff.1 h
        simp only [Prod.mk.injEq] at hsum
        obtain ⟨rfl, rfl⟩ := hsum
        obtain ⟨used, rfl, -, hbound⟩ := ih hm
        have hpow : weight * 128 ^ (used.length + 1) = weight * 128 * 128 ^ used.length := by
          rw [pow_succ]
          ring
        refine ⟨x :: used, rfl, by simp, ?_⟩
        rw [List.length_cons, hpow]
        omega

theorem varint?_spec (h : varint? b = some (n, rest)) :
    ∃ used, b = used ++ rest ∧ 0 < used.length ∧ n < 128 ^ used.length := by
  obtain ⟨used, hb, hpos, hbound⟩ := takeVarint_spec h
  exact ⟨used, hb, hpos, by omega⟩

/-- What follows a number is no part of it. -/
theorem takeVarint_append (h : takeVarint limit weight b = some (n, rest)) (tail : Bytes) :
    takeVarint limit weight (b ++ tail) = some (n, rest ++ tail) := by
  induction limit generalizing weight b n with
  | zero => simp [takeVarint] at h
  | succ limit ih =>
    cases b with
    | nil => simp [takeVarint] at h
    | cons x xs =>
      simp only [takeVarint, List.cons_append] at h ⊢
      split at h
      · next hlast =>
        simp only [Option.some.injEq, Prod.mk.injEq] at h
        obtain ⟨rfl, rfl⟩ := h
        rw [if_pos hlast]
      · next hmore =>
        obtain ⟨⟨m, r⟩, hm, hsum⟩ := Option.map_eq_some_iff.1 h
        simp only [Prod.mk.injEq] at hsum
        obtain ⟨rfl, rfl⟩ := hsum
        rw [if_neg hmore, ih hm, Option.map_some]

/-! ## Pieces -/

/-- Reads one piece. -/
def takePiece (b : Bytes) : Except Error (AliasPiece × Bytes) :=
  match varint? b with
  | none => throw (.corrupted .blobTruncated)
  | some (number, rest) =>
    match varint? rest with
    | none => throw (.corrupted .blobTruncated)
    | some (short, rest) =>
      if number < 65536 then pure (⟨UInt16.ofNat number, (UInt64.ofNat short).toInt64⟩, rest)
      else throw (.corrupted (.pieceNumberTooHigh number))

/-- A reading takes a piece, and then goes on with what is left. -/
theorem decodePieces_eq (hb : b ≠ []) : decodePieces b =
    match takePiece b with
    | .error e => .error e
    | .ok (p, rest) => (decodePieces rest).map (p :: ·) := by
  obtain ⟨x, xs, rfl⟩ := List.exists_cons_of_ne_nil hb
  rw [decodePieces, takePiece]
  split
  · next hnumber =>
    rw [hnumber]
    rfl
  · next number r hnumber =>
    rw [hnumber]
    dsimp only
    split
    · next hshort =>
      rw [hshort]
      rfl
    · next short r' hshort =>
      rw [hshort]
      dsimp only
      split
      · show _ = (decodePieces r').map _
        cases decodePieces r' <;> rfl
      · rfl

theorem decodePieces_nil : decodePieces [] = .ok [] := by
  rw [decodePieces]
  rfl

/-- What a piece is read from: the bytes of two numbers. -/
theorem takePiece_eq_ok (h : takePiece b = .ok (p, rest)) :
    ∃ number short r, varint? b = some (number, r) ∧ varint? r = some (short, rest) ∧
      number < 65536 ∧ p = ⟨UInt16.ofNat number, (UInt64.ofNat short).toInt64⟩ := by
  unfold takePiece at h
  split at h
  · cases h
  · next number r hnumber =>
    split at h
    · cases h
    · next short r' hshort =>
      split at h
      · next hsmall =>
        cases h
        exact ⟨number, short, r, hnumber, hshort, hsmall, rfl⟩
      · cases h

/-- **No piece is read from fewer bytes than it is written with.** -/
theorem takePiece_spec (h : takePiece b = .ok (p, rest)) :
    ∃ used, b = used ++ rest ∧ (putPiece p).length ≤ used.length := by
  obtain ⟨number, short, r, hnumber, hshort, hsmall, rfl⟩ := takePiece_eq_ok h
  obtain ⟨used, rfl, hpos, hbound⟩ := varint?_spec hnumber
  obtain ⟨used', rfl, hpos', hbound'⟩ := varint?_spec hshort
  have hfirst : (UInt16.ofNat number).toNat = number := by
    rw [UInt16.toNat_ofNat']
    omega
  -- bits that an alias has no room for make it smaller only
  have hsecond : (UInt64.ofNat short).toInt64.toUInt64.toNat ≤ short := by
    rw [UInt64.toUInt64_toInt64, UInt64.toNat_ofNat']
    exact Nat.mod_le _ _
  have hlength := length_putVarint_le hpos hbound
  have hlength' := length_putVarint_le hpos' (lt_of_le_of_lt hsecond hbound')
  refine ⟨used ++ used', by rw [List.append_assoc], ?_⟩
  simp only [putPiece, hfirst, List.length_append]
  omega

theorem takePiece_append (h : takePiece b = .ok (p, rest)) (tail : Bytes) :
    takePiece (b ++ tail) = .ok (p, rest ++ tail) := by
  obtain ⟨number, short, r, hnumber, hshort, hsmall, rfl⟩ := takePiece_eq_ok h
  have hnumber' : varint? (b ++ tail) = some (number, r ++ tail) := takeVarint_append hnumber tail
  have hshort' : varint? (r ++ tail) = some (short, rest ++ tail) := takeVarint_append hshort tail
  unfold takePiece
  rw [hnumber']
  dsimp only
  rw [hshort']
  dsimp only
  rw [if_pos hsmall]
  rfl

theorem takePiece_error (h : takePiece b = .error e) : ∃ why, e = .corrupted why := by
  unfold takePiece at h
  split at h
  · cases h
    exact ⟨_, rfl⟩
  · split at h
    · cases h
      exact ⟨_, rfl⟩
    · split at h
      · cases h
      · cases h
        exact ⟨_, rfl⟩

/-! ## Blobs -/

/-- The lists that are read from bytes, piece by piece up to the end. -/
inductive Reads : Bytes → List AliasPiece → Prop
  | nil : Reads [] []
  | cons {b rest : Bytes} {p : AliasPiece} {l : List AliasPiece}
      (hpiece : takePiece b = .ok (p, rest)) (h : Reads rest l) : Reads b (p :: l)

theorem ne_nil_of_takePiece (h : takePiece b = .ok (p, rest)) : b ≠ [] := by
  rintro rfl
  cases h

/-- **A reading ends,** with the list that is read or because a piece is corrupted. -/
theorem decodePieces_cases (b : Bytes) :
    (∃ l, decodePieces b = .ok l ∧ Reads b l) ∨ ∃ why, decodePieces b = .error (.corrupted why) := by
  induction hlength : b.length using Nat.strong_induction_on generalizing b with
  | _ m ih =>
    by_cases hb : b = []
    · rw [hb, decodePieces_nil]
      exact .inl ⟨[], rfl, .nil⟩
    · rw [decodePieces_eq hb]
      cases hpiece : takePiece b with
      | error e =>
        obtain ⟨why, rfl⟩ := takePiece_error hpiece
        exact .inr ⟨why, rfl⟩
      | ok out =>
        obtain ⟨p, rest⟩ := out
        -- a piece takes at least one byte
        obtain ⟨used, hused, hle⟩ := takePiece_spec hpiece
        have hpos := length_putPiece_pos p
        have hshorter : rest.length < m := by
          rw [← hlength, hused, List.length_append]
          omega
        dsimp only
        rcases ih _ hshorter rest rfl with ⟨l, hl, hreads⟩ | ⟨why, hwhy⟩
        · rw [hl]
          exact .inl ⟨p :: l, rfl, .cons hpiece hreads⟩
        · rw [hwhy]
          exact .inr ⟨why, rfl⟩

theorem reads_of_ok (h : decodePieces b = .ok l) : Reads b l := by
  rcases decodePieces_cases b with ⟨l', hl', hreads⟩ | ⟨why, hwhy⟩
  · rw [hl'] at h
    cases h
    exact hreads
  · rw [hwhy] at h
    cases h

/-- Bytes after a list that is read are read on their own. -/
theorem Reads.decodePieces_append (h : Reads b l) (tail : Bytes) :
    decodePieces (b ++ tail) = (decodePieces tail).map (l ++ ·) := by
  induction h with
  | nil =>
    rw [List.nil_append]
    cases decodePieces tail <;> rfl
  | @cons b rest p l hpiece h ih =>
    have hne : b ++ tail ≠ [] := by simp [ne_nil_of_takePiece hpiece]
    rw [decodePieces_eq hne, takePiece_append hpiece]
    dsimp only
    rw [ih]
    cases decodePieces tail <;> rfl

/-- A list that is read is written with no more bytes. -/
theorem Reads.length_le (h : Reads b l) : (l.flatMap putPiece).length ≤ b.length := by
  induction h with
  | nil => simp
  | cons hpiece h ih =>
    obtain ⟨used, rfl, hle⟩ := takePiece_spec hpiece
    simp only [List.flatMap_cons, List.length_append]
    omega

theorem Reads.eq_nil_iff (h : Reads b l) : l = [] ↔ b = [] := by
  cases h with
  | nil => simp
  | cons hpiece h => simp [ne_nil_of_takePiece hpiece]

/-- A blob that can be read is empty, or the version and then a list. -/
theorem decode_cases (h : decode d = .ok l) :
    d = [] ∧ l = [] ∨ ∃ b, d = version :: b ∧ Reads b l := by
  cases d with
  | nil =>
    cases h
    exact .inl ⟨rfl, rfl⟩
  | cons v b =>
    rw [decode] at h
    split at h
    · next hv => exact .inr ⟨b, by rw [hv], reads_of_ok h⟩
    · cases h

theorem decode_error_or_ok (d : Bytes) :
    (∃ why, decode d = .error (.corrupted why)) ∨ ∃ l, decode d = .ok l := by
  cases d with
  | nil => exact .inr ⟨[], rfl⟩
  | cons v b =>
    rw [decode]
    split
    · rcases decodePieces_cases b with ⟨l, hl, -⟩ | hcorrupted
      · exact .inr ⟨l, hl⟩
      · exact .inl hcorrupted
    · exact .inl ⟨_, rfl⟩

/-- **A blob that goes on after one that can be read** has the pieces of both. -/
theorem decode_append (hd : d ≠ []) (h : decode d = .ok l) (tail : Bytes) :
    decode (d ++ tail) = (decodePieces tail).map (l ++ ·) := by
  rcases decode_cases h with ⟨hnil, -⟩ | ⟨b, rfl, hreads⟩
  · exact absurd hnil hd
  · rw [List.cons_append, decode, if_pos rfl]
    exact hreads.decodePieces_append tail

/-- **No blob of a list is shorter than the written one,** but for the empty blob. -/
theorem length_encode_le (hd : d ≠ []) (h : decode d = .ok l) : (encode l).length ≤ d.length := by
  rcases decode_cases h with ⟨hnil, -⟩ | ⟨b, rfl, hreads⟩
  · exact absurd hnil hd
  · have hle := hreads.length_le
    simp only [encode_eq, List.length_cons]
    omega

/-- The length of a blob tells whether it has pieces, whoever wrote it. -/
theorem ne_nil_iff_of_decode (h : decode d = .ok l) : l ≠ [] ↔ 1 < d.length := by
  rcases decode_cases h with ⟨rfl, rfl⟩ | ⟨b, rfl, hreads⟩
  · simp
  · have hempty := hreads.eq_nil_iff
    have hlength := List.length_pos_iff (l := b)
    simp only [List.length_cons, ne_eq, hempty]
    rw [← ne_eq, ← hlength]
    omega

/-- **A blob that is cut off** yields the pieces before the cut or is refused. -/
theorem decode_of_cut (hd : d ≠ []) (htail : tail ≠ []) (hall : decode (d ++ tail) = .ok l)
    (h : decode d = .ok l') : l' <+: l ∧ l'.length < l.length := by
  rw [decode_append hd h] at hall
  rcases decodePieces_cases tail with ⟨more, hmore, hreads⟩ | ⟨why, hwhy⟩
  · rw [hmore] at hall
    cases hall
    have hpos : 0 < more.length := by
      rw [List.length_pos_iff, ne_eq, hreads.eq_nil_iff]
      exact htail
    refine ⟨List.prefix_append l' more, ?_⟩
    rw [List.length_append]
    omega
  · rw [hwhy] at hall
    cases hall

/-- **Reading undoes writing, and reads or refuses everything else.** Different lists have different
blobs. Any blob is refused as corrupted or yields a list, which reading its written form yields again;
that form is no longer than the blob, unless this is empty, and the length of the blob tells whether
the list has pieces. A written blob that is cut off behind its first byte or later is refused or
yields a shorter beginning of the list. -/
theorem codec_exact (l : List AliasPiece) (d : Bytes) :
    decode (encode l) = .ok l ∧
    (∀ l', encode l' = encode l → l' = l) ∧
    ((∃ why, decode d = .error (.corrupted why)) ∨
      ∃ l', decode d = .ok l' ∧ decode (encode l') = .ok l' ∧
        (d ≠ [] → (encode l').length ≤ d.length) ∧ (l' ≠ [] ↔ 1 < d.length)) ∧
    ∀ cut, cut <+: encode l → cut ≠ encode l → cut ≠ [] →
      (∃ why, decode cut = .error (.corrupted why)) ∨
        ∃ l', decode cut = .ok l' ∧ l' <+: l ∧ l'.length < l.length := by
  refine ⟨decode_encode l, fun l' heq => ?_, ?_, fun cut hprefix hshorter hcut => ?_⟩
  · have hread := decode_encode l'
    rw [heq, decode_encode] at hread
    exact (Except.ok.inj hread).symm
  · rcases decode_error_or_ok d with hcorrupted | ⟨l', hl'⟩
    · exact .inl hcorrupted
    · exact .inr ⟨l', hl', decode_encode l', fun hd => length_encode_le hd hl',
        ne_nil_iff_of_decode hl'⟩
  · obtain ⟨tail, htail⟩ := hprefix
    rcases decode_error_or_ok cut with hcorrupted | ⟨l', hl'⟩
    · exact .inl hcorrupted
    · have hne : tail ≠ [] := by
        rintro rfl
        rw [List.append_nil] at htail
        exact hshorter htail
      have hall : decode (cut ++ tail) = .ok l := by rw [htail, decode_encode]
      exact .inr ⟨l', hl', decode_of_cut hcut hne hall hl'⟩

end Blob

/-! ### A blob with redundant bytes -/

/-- A piece in five bytes where two would do: the last byte of its number says nothing, and neither
do the last two of its alias. Its written form, cut off behind the number, is refused. -/
theorem Sample.codec_exact_redundant :
    let blob : Bytes := [1, 0x85, 0x00, 0x81, 0x80, 0x00]
    let l : List AliasPiece := [⟨5, 1⟩]
    Blob.decode blob = .ok l ∧ Blob.decode (Blob.encode l) = .ok l ∧
      (Blob.encode l).length ≤ blob.length ∧ Blob.encode l = [1, 5, 1] ∧
      ∃ why, Blob.decode [1, 5] = .error (.corrupted why) := by
  intro blob l
  have hread : Blob.decode blob = .ok l := by decide +kernel
  have hwritten : Blob.encode l = [1, 5, 1] := by decide +kernel
  have hrefused : Blob.decode [1, 5] ≠ .ok [] := by decide +kernel
  obtain ⟨-, -, hblob, hcuts⟩ := Blob.codec_exact l blob
  have hcut := hcuts [1, 5] (by rw [hwritten]; decide) (by rw [hwritten]; decide) (by decide)
  rw [hread] at hblob
  rcases hblob with ⟨why, hwhy⟩ | ⟨l', hl', hagain, hle, -⟩
  · cases hwhy
  · cases hl'
    refine ⟨hread, hagain, hle (by decide), hwritten, ?_⟩
    rcases hcut with hcorrupted | ⟨l', hl', -, hshorter⟩
    · exact hcorrupted
    · -- only the empty list is shorter
      have hnil : l' = [] := List.length_eq_zero_iff.1 (Nat.lt_one_iff.1 hshorter)
      rw [hnil] at hl'
      exact absurd hl' hrefused

end ObjectCatalog
