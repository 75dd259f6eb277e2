/-!
# Reading integers

Decimal text of an integer in a range. The text is read from the left, and the first fault found
decides: a number that has left the range is reported before a bad digit further on.

* `IntegerRange.read`: the integer of a text, or what is wrong with it.
-/

namespace ObjectCatalog

/-- Why a text is no integer of a range. -/
inductive IntegerFault
  | empty
  | invalidDigit
  | tooLarge
  | tooSmall
  deriving DecidableEq

/-- The wording of a fault. -/
def IntegerFault.text : IntegerFault → String
  | empty => "cannot parse integer from empty string"
  | invalidDigit => "invalid digit found in string"
  | tooLarge => "number too large to fit in target type"
  | tooSmall => "number too small to fit in target type"

/-- The integers from `least` to `greatest`. -/
structure IntegerRange where
  least : Int
  greatest : Int
  deriving DecidableEq

namespace IntegerRange

/-- The signed 64-bit integers. -/
def signed64 : IntegerRange := ⟨-9223372036854775808, 9223372036854775807⟩

/-- The unsigned 64-bit integers. -/
def unsigned64 : IntegerRange := ⟨0, 18446744073709551615⟩

/-- The unsigned 16-bit integers. -/
def unsigned16 : IntegerRange := ⟨0, 65535⟩

/-- Whether an integer is in a range. -/
def holds (r : IntegerRange) (n : Int) : Bool := r.least ≤ n && n ≤ r.greatest

/-- Reads digits after a number `n` whose sign is that of `unit`. -/
def readDigits (r : IntegerRange) (unit : Int) : (n : Int) → List Char → Except IntegerFault Int
  | n, [] => pure n
  | n, c :: cs =>
    if !c.isDigit then throw .invalidDigit
    else
      let n := n * 10 + unit * (c.toNat - 48)
      if r.greatest < n then throw .tooLarge
      else if n < r.least then throw .tooSmall
      else readDigits r unit n cs

/-- Reads an integer. A minus sign is part of a number only where there are negative ones. -/
def read (r : IntegerRange) (text : String) : Except IntegerFault Int :=
  match text.toList with
  | [] => throw .empty
  | ['+'] | ['-'] => throw .invalidDigit
  | '+' :: cs => r.readDigits 1 0 cs
  | '-' :: cs => if r.least < 0 then r.readDigits (-1) 0 cs else throw .invalidDigit
  | cs => r.readDigits 1 0 cs

end IntegerRange

end ObjectCatalog
