/-!
# Positions of segments

A segment is found in its stream by a part and an index within the part. Tables hold the position as
one signed integer, whose order is that of `(part, index)` as long as the part is below 2^31.

* `Position.encode`, `Position.decode`: the position as one number below 2^64.
* `Position.column`, `Position.ofColumn`: the number as a signed 64-bit column holds it.
-/

namespace ObjectCatalog

/-- A place in a stream, ordered by part and then by index. -/
structure Position where
  part : UInt32
  index : UInt32
  deriving DecidableEq, Inhabited

namespace Position

/-- The greatest part whose column is not negative. -/
def maxPart : UInt32 := 2147483647

/-- The position as one number, the part in the upper 32 bits. -/
def encode (p : Position) : Nat := p.part.toNat * 4294967296 + p.index.toNat

/-- The position of a number below 2^64; higher bits are dropped. -/
def decode (n : Nat) : Position := ⟨UInt32.ofNat (n / 4294967296), UInt32.ofNat n⟩

/-- The stored value, negative for a part above `maxPart`. -/
def column (p : Position) : Int := (p.encode : Int).bmod 18446744073709551616

/-- The position of a stored value. -/
def ofColumn (v : Int) : Position := decode (v % 18446744073709551616).toNat

/-- The position as people read it. -/
def text (p : Position) : String := s!"{p.part}/{p.index}"

instance : Ord Position := ⟨compareLex (compareOn part) (compareOn index)⟩

instance : Std.TransOrd Position :=
  inferInstanceAs (Std.TransCmp (compareLex (compareOn part) (compareOn index)))

/-- Whether `a` stands at or before `b`. -/
def atMost (a b : Position) : Bool := (compare a b).isLE

/-- The positions in ascending order. -/
def sort (ps : List Position) : List Position := ps.mergeSort atMost

end Position

end ObjectCatalog
