/-!
# JSON values

The values that reports and the operations endpoint are made of, and their printed form with one
item a line. Fields keep their order.
-/

namespace ObjectCatalog

/-- A JSON value without fractions. -/
inductive Json
  | null
  | bool (b : Bool)
  | int (n : Int)
  | text (s : String)
  | list (items : List Json)
  | object (fields : List (String × Json))

namespace Json

instance : Inhabited Json := ⟨null⟩

/-- A character within a quoted text. -/
def escapeChar (c : Char) : List Char :=
  if c = '"' then ['\\', '"']
  else if c = '\\' then ['\\', '\\']
  else if c = '\n' then ['\\', 'n']
  else if c = '\r' then ['\\', 'r']
  else if c = '\t' then ['\\', 't']
  else if c = '\x08' then ['\\', 'b']
  else if c = '\x0c' then ['\\', 'f']
  else if c.toNat < 32 then
    '\\' :: 'u' :: '0' :: '0' :: [Nat.digitChar (c.toNat / 16), Nat.digitChar (c.toNat % 16)]
  else [c]

/-- A quoted text. -/
def quote (s : String) : List Char := '"' :: s.toList.flatMap escapeChar ++ ['"']

/-- The start of a line that is indented by a number of steps. -/
def newLine (depth : Nat) : List Char := '\n' :: List.replicate (2 * depth) ' '

mutual

/-- The printed form of a value within a number of brackets. -/
def print (depth : Nat) : Json → List Char
  | .null => ['n', 'u', 'l', 'l']
  | .bool b => if b then ['t', 'r', 'u', 'e'] else ['f', 'a', 'l', 's', 'e']
  | .int n => n.repr.toList
  | .text s => quote s
  | .list [] => ['[', ']']
  | .list (item :: items) =>
    '[' :: newLine (depth + 1) ++ print (depth + 1) item ++ printItems depth items
  | .object [] => ['{', '}']
  | .object ((name, value) :: fields) =>
    '{' :: newLine (depth + 1) ++ quote name ++ ':' :: ' ' :: print (depth + 1) value ++
      printFields depth fields

/-- The printed form of the items after the first, and of the bracket that closes them. -/
def printItems (depth : Nat) : List Json → List Char
  | [] => newLine depth ++ [']']
  | item :: items =>
    ',' :: newLine (depth + 1) ++ print (depth + 1) item ++ printItems depth items

/-- The printed form of the fields after the first, and of the bracket that closes them. -/
def printFields (depth : Nat) : List (String × Json) → List Char
  | [] => newLine depth ++ ['}']
  | (name, value) :: fields =>
    ',' :: newLine (depth + 1) ++ quote name ++ ':' :: ' ' :: print (depth + 1) value ++
      printFields depth fields

end

/-- The printed form of a value. -/
def pretty (j : Json) : String := String.ofList (print 0 j)

end Json

end ObjectCatalog
