import ObjectCatalog.Text.Shapeless
import ObjectCatalog.Text.Utf8

/-!
# Showing byte strings

A byte string that need not be text is shown in double quotes: characters as they are, double quotes
and backslashes after a backslash, characters without a shape by name or number, and every byte of a
malformed part as two hexadecimal digits.

* `Escaped.quote`: the shown form.
-/

namespace ObjectCatalog.Escaped

/-- A byte of a malformed part. -/
def byteText (b : UInt8) : List Char :=
  let digit (n : Nat) : Char := (Nat.digitChar n).toUpper
  ['\\', 'x', digit (b.toNat / 16), digit (b.toNat % 16)]

/-- A character. -/
def charText (c : Char) : List Char :=
  if c = '\x00' then ['\\', '0']
  else if c = '\t' then ['\\', 't']
  else if c = '\n' then ['\\', 'n']
  else if c = '\r' then ['\\', 'r']
  else if c = '"' || c = '\\' then ['\\', c]
  else if isShapeless c then '\\' :: 'u' :: '\x7b' :: Nat.toDigits 16 c.toNat ++ ['\x7d']
  else [c]

/-- What a byte between characters adds, and the character it begins with its bytes. -/
def first (b : UInt8) : List Char × Option Utf8.Pending × Bytes :=
  match Utf8.start b with
  | (some c :: _, _) => (charText c, none, [])
  | (none :: _, _) => (byteText b, none, [])
  | ([], next) => ([], next, [b])

/-- What a byte adds, when `held` are the bytes of the character under way. -/
def advance (s : Option Utf8.Pending) (held : Bytes) (b : UInt8) :
    List Char × Option Utf8.Pending × Bytes :=
  match s, Utf8.step s b with
  | none, _ => first b
  | some _, (some c :: _, _) => (charText c, none, [])
  | some _, (none :: _, _) =>
    let (out, next, begun) := first b
    (held.flatMap byteText ++ out, next, begun)
  | some _, ([], next) => ([], next, held ++ [b])

/-- The shown form of bytes after those of a character under way. -/
def shown : Option Utf8.Pending → (held : Bytes) → Bytes → List Char
  | _, held, [] => held.flatMap byteText
  | s, held, b :: rest =>
    let (out, next, held) := advance s held b
    out ++ shown next held rest

/-- A byte string in double quotes. -/
def quote (b : Bytes) : String := String.ofList ('"' :: shown none [] b ++ ['"'])

end ObjectCatalog.Escaped
