/-!
# Integer columns

Tables hold integers of any size; a reader of a narrower column accepts what fits.
-/

namespace ObjectCatalog

/-- The value of a 32-bit column, when it fits. -/
def int32? (v : Int) : Option Int32 :=
  if -2147483648 ≤ v ∧ v ≤ 2147483647 then some (Int32.ofInt v) else none

/-- The value of a 64-bit column, when it fits. -/
def int64? (v : Int) : Option Int64 :=
  if -9223372036854775808 ≤ v ∧ v ≤ 9223372036854775807 then some (Int64.ofInt v) else none

@[simp]
theorem int32?_toInt (v : Int32) : int32? v.toInt = some v := by
  have := v.le_toInt; have := v.toInt_lt
  simp [int32?, show -2147483648 ≤ v.toInt ∧ v.toInt ≤ 2147483647 by omega]

@[simp]
theorem int64?_toInt (v : Int64) : int64? v.toInt = some v := by
  have := v.le_toInt; have := v.toInt_lt
  simp [int64?, show -9223372036854775808 ≤ v.toInt ∧ v.toInt ≤ 9223372036854775807 by omega]

end ObjectCatalog
