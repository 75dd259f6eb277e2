/-!
# Encryption parameters

The cipher suite and block size of an object, stored in one integer: the suite above the 32 bits of
the block size.
-/

namespace ObjectCatalog

/-- How the content of an object is encrypted. -/
structure Encryption where
  cipherSuite : UInt8 := 0
  blockSize : Int32 := 0
  deriving DecidableEq, Inhabited

namespace Encryption

/-- Whether no encryption is given. -/
def isZero (e : Encryption) : Bool := decide (e.cipherSuite = 0 ∧ e.blockSize = 0)

/-- The stored integer. -/
def pack (e : Encryption) : Int :=
  e.cipherSuite.toNat * 4294967296 + e.blockSize.toInt % 4294967296

/-- The parameters of a stored integer. -/
def unpack (v : Int) : Encryption where
  cipherSuite := UInt8.ofNat (v / 4294967296 % 256).toNat
  blockSize := Int32.ofInt v

end Encryption

end ObjectCatalog
