/-!
# Byte strings

Keys, ids, nonces and payloads are byte strings, ordered bytewise with a proper beginning first.

* `Bytes.hex`: two lower-case hexadecimal digits per byte.
* `Bytes.above?`: the least byte string above every extension of a given one.
-/

namespace ObjectCatalog

/-- A byte string. -/
abbrev Bytes := List UInt8

namespace Bytes

/-- Two lower-case hexadecimal digits per byte. -/
def hexDigits (b : Bytes) : List Char :=
  b.flatMap fun x => [Nat.digitChar (x.toNat / 16), Nat.digitChar (x.toNat % 16)]

/-- The hexadecimal text of a byte string. -/
def hex (b : Bytes) : String := String.ofList b.hexDigits

/-- The least byte string above every one that begins with `p`: trailing `0xff` bytes are dropped
and the last byte left is raised by one. `none` when no byte string lies above. -/
def above? : Bytes → Option Bytes
  | [] => none
  | b :: r =>
    match above? r with
    | some u => some (b :: u)
    | none => if b < 0xff then some [b + 1] else none

/-- The part of `key` after `lead`, when `key` begins with it. -/
def after? : (lead key : Bytes) → Option Bytes
  | [], key => some key
  | _ :: _, [] => none
  | a :: lead, b :: key => if a = b then after? lead key else none

end Bytes

end ObjectCatalog
