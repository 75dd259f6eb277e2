import ObjectCatalog.Error

/-!
# The stored form of a piece list

Rows hold pieces with short numbers, aliases, in place of node ids. The blob is a version byte and
then, for every piece, its number and its alias as variable-length integers: seven bits a byte,
lowest first, the high bit set on every byte but the last. An alias is written as the unsigned
64-bit number of the same bits.

* `Blob.encode`: the blob of a piece list.
* `Blob.decode`: accepts redundant bytes of up to ten per integer; the empty blob has no pieces.
* `Blob.holdsPieces`: what readers of rows take for "has pieces".
-/

namespace ObjectCatalog

/-- The short number of a storage node. -/
abbrev NodeAlias := Int64

/-- A piece as rows hold it. -/
structure AliasPiece where
  number : UInt16
  short : NodeAlias
  deriving DecidableEq

namespace Blob

/-- The byte that opens every blob. -/
def version : UInt8 := 1

/-- A number in groups of seven bits, lowest first. -/
def putVarint (n : Nat) : Bytes :=
  if n < 128 then [n.toUInt8] else (n % 128 + 128).toUInt8 :: putVarint (n / 128)
termination_by n
decreasing_by omega

/-- Reads a number of at most `limit` bytes, the lowest bit of which has a weight. Bits of weight
`2^64` and more are lost. -/
def takeVarint : (limit weight : Nat) → Bytes → Option (Nat × Bytes)
  | 0, _, _ => none
  | _ + 1, _, [] => none
  | limit + 1, weight, b :: rest =>
    let part := b.toNat % 128 * weight % 18446744073709551616
    if b < 128 then some (part, rest)
    else (takeVarint limit (weight * 128) rest).map fun (n, rest) => (part + n, rest)

/-- Reads a number of at most ten bytes. -/
def varint? (b : Bytes) : Option (Nat × Bytes) := takeVarint 10 1 b

theorem takeVarint_shortens {limit weight : Nat} {b rest : Bytes} {n : Nat}
    (h : takeVarint limit weight b = some (n, rest)) : rest.length < b.length := by
  induction limit generalizing weight b n with
  | zero => simp [takeVarint] at h
  | succ limit ih =>
    cases b with
    | nil => simp [takeVarint] at h
    | cons x xs =>
      simp only [takeVarint] at h
      split at h
      · simp only [Option.some.injEq, Prod.mk.injEq] at h
        simp [h.2]
      · obtain ⟨⟨m, r⟩, hr, he⟩ := Option.map_eq_some_iff.1 h
        simp only [Prod.mk.injEq] at he
        obtain ⟨-, rfl⟩ := he
        have := ih hr
        simp only [List.length_cons]
        omega

/-- The blob of a piece list. -/
def encode (pieces : List AliasPiece) : Bytes :=
  version :: pieces.flatMap fun p =>
    putVarint p.number.toNat ++ putVarint p.short.toUInt64.toNat

/-- Reads pieces up to the end of the blob. -/
def decodePieces (b : Bytes) : Except Error (List AliasPiece) :=
  match b with
  | [] => pure []
  | x :: xs =>
    match _hnumber : varint? (x :: xs) with
    | none => throw (.corrupted .blobTruncated)
    | some (number, rest) =>
      match _hshort : varint? rest with
      | none => throw (.corrupted .blobTruncated)
      | some (short, rest) =>
        if number < 65536 then do
          let pieces ← decodePieces rest
          pure (⟨UInt16.ofNat number, (UInt64.ofNat short).toInt64⟩ :: pieces)
        else throw (.corrupted (.pieceNumberTooHigh number))
termination_by b.length
decreasing_by
  have := takeVarint_shortens _hnumber
  have := takeVarint_shortens _hshort
  omega

/-- The pieces of a blob. -/
def decode : Bytes → Except Error (List AliasPiece)
  | [] => pure []
  | v :: rest => if v = version then decodePieces rest else throw (.corrupted (.blobVersion v))

/-- Whether a row's blob holds pieces: its length alone tells. -/
def holdsPieces (blob : Option Bytes) : Bool := blob.any fun b => decide (1 < b.length)

/-- The pieces of a row's blob; a row without a blob has none. -/
def stored (blob : Option Bytes) : Except Error (List AliasPiece) := decode (blob.getD [])

end Blob

end ObjectCatalog
