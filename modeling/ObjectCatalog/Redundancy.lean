/-!
# Redundancy schemes

How a segment is cut into pieces: an algorithm, the size of a share, and four counts of shares. A
scheme is stored in one signed 64-bit integer with 8 bits for the algorithm, 24 for the share size
and 8 for each count, so only the low bits of a field are kept.

* `Redundancy.pack`, `Redundancy.unpack`: the stored integer and what it reads as.
-/

namespace ObjectCatalog

/-- The parameters of the erasure code of a segment. The scheme of zeros marks an inline segment. -/
structure Redundancy where
  algorithm : UInt8 := 0
  shareSize : Int32 := 0
  required : Int16 := 0
  repair : Int16 := 0
  optimal : Int16 := 0
  total : Int16 := 0
  deriving DecidableEq, Inhabited

namespace Redundancy

/-- The scheme of zeros. -/
def zero : Redundancy := {}

/-- Whether all fields are zero. -/
def isZero (r : Redundancy) : Bool := decide (r = zero)

/-- The stored integer. -/
def pack (r : Redundancy) : Int :=
  (r.algorithm.toNat * 72057594037927936 + r.shareSize.toInt % 16777216 * 4294967296 +
    r.required.toInt % 256 * 16777216 + r.repair.toInt % 256 * 65536 +
    r.optimal.toInt % 256 * 256 + r.total.toInt % 256).bmod 18446744073709551616

/-- The scheme of a stored integer. -/
def unpack (v : Int) : Redundancy where
  algorithm := UInt8.ofNat (v / 72057594037927936 % 256).toNat
  shareSize := Int32.ofInt (v / 4294967296 % 16777216)
  required := Int16.ofInt (v / 16777216 % 256)
  repair := Int16.ofInt (v / 65536 % 256)
  optimal := Int16.ofInt (v / 256 % 256)
  total := Int16.ofInt (v % 256)

end Redundancy

end ObjectCatalog
