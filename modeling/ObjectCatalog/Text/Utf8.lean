import ObjectCatalog.Bytes

/-!
# Reading UTF-8

A reader with one character of state. Where no character can be completed it reports one malformed
part, as long as the bytes that could still have begun a character, and starts again with the byte
that broke it.

* `Utf8.decode?`: the text of a well-formed byte string.
* `Utf8.decodeLossy`: the text with one U+FFFD for each malformed part.
-/

namespace ObjectCatalog.Utf8

/-- A character under way: the bits read, how many bytes are owed, and the range of the next. -/
structure Pending where
  bits : Nat
  owed : Nat
  low : UInt8
  high : UInt8
  deriving DecidableEq

/-- A unit that was read: a character, or `none` for a malformed part. -/
abbrev Unit? := Option Char

/-- Reads a byte between characters. -/
def start (b : UInt8) : List Unit? × Option Pending :=
  let bits := b.toNat
  if b < 0x80 then ([some (Char.ofNat bits)], none)
  else if b < 0xc2 then ([none], none)
  else if b < 0xe0 then ([], some ⟨bits % 32, 1, 0x80, 0xbf⟩)
  else if b = 0xe0 then ([], some ⟨0, 2, 0xa0, 0xbf⟩)
  else if b = 0xed then ([], some ⟨13, 2, 0x80, 0x9f⟩)
  else if b < 0xf0 then ([], some ⟨bits % 16, 2, 0x80, 0xbf⟩)
  else if b = 0xf0 then ([], some ⟨0, 3, 0x90, 0xbf⟩)
  else if b < 0xf4 then ([], some ⟨bits % 8, 3, 0x80, 0xbf⟩)
  else if b = 0xf4 then ([], some ⟨4, 3, 0x80, 0x8f⟩)
  else ([none], none)

/-- Reads a byte inside a character, or between characters. -/
def step : Option Pending → UInt8 → List Unit? × Option Pending
  | none, b => start b
  | some p, b =>
    if p.low ≤ b ∧ b ≤ p.high then
      let bits := p.bits * 64 + b.toNat % 64
      if p.owed ≤ 1 then ([some (Char.ofNat bits)], none)
      else ([], some ⟨bits, p.owed - 1, 0x80, 0xbf⟩)
    else
      let (units, next) := start b
      (none :: units, next)

/-- The units of a byte string, read from a state. A character cut off by the end is malformed. -/
def units : Option Pending → Bytes → List Unit?
  | none, [] => []
  | some _, [] => [none]
  | s, b :: r =>
    let (out, next) := step s b
    out ++ units next r

/-- The text of a well-formed byte string. -/
def decode? (b : Bytes) : Option String := ((units none b).mapM id).map String.ofList

/-- The text of a byte string, with U+FFFD for every malformed part. -/
def decodeLossy (b : Bytes) : String :=
  String.ofList ((units none b).map (·.getD '\ufffd'))

/-- The bytes of a text. -/
def encode (s : String) : Bytes := s.toUTF8.toList

end ObjectCatalog.Utf8
