import ObjectCatalog.Bytes

/-!
# Identifiers

Projects and streams carry 16-byte ids, storage nodes and root pieces 32-byte ids. Ids of one kind
are compared bytewise, and the id of zeros stands for a missing one.

* `Id.ofBytes?`: accepts exactly the byte strings of the right length.
* `Id.hex`, `Id.hyphenated`: the two written forms.
-/

namespace ObjectCatalog

/-- What an id names. -/
inductive IdKind
  | project
  | stream
  | node
  | piece
  deriving DecidableEq

/-- The number of bytes in an id of a kind. -/
def IdKind.width : IdKind → Nat
  | .project | .stream => 16
  | .node | .piece => 32

/-- An id: a byte string of its kind's width. -/
structure Id (kind : IdKind) where
  bytes : Bytes
  length_eq : bytes.length = kind.width
  deriving DecidableEq

/-- The project that owns a bucket. -/
abbrev ProjectId := Id .project

/-- One object instance, which owns the segments stored under it. -/
abbrev StreamId := Id .stream

/-- A storage node. -/
abbrev NodeId := Id .node

/-- The root piece from which the ids of a segment's pieces derive. -/
abbrev PieceId := Id .piece

namespace Id

variable {kind : IdKind}

@[ext]
theorem ext {a b : Id kind} (h : a.bytes = b.bytes) : a = b := by
  cases a; cases b; cases h; rfl

/-- The id held in a byte string of the right length. -/
def ofBytes? (b : Bytes) : Option (Id kind) :=
  if h : b.length = kind.width then some ⟨b, h⟩ else none

@[simp]
theorem ofBytes?_bytes (a : Id kind) : ofBytes? a.bytes = some a := by
  simp [ofBytes?, a.length_eq]

/-- The id that is the big-endian form of a number, modulo the number of ids. -/
def ofNat (n : Nat) : Id kind where
  bytes := (List.range kind.width).map fun i => (n >>> (8 * (kind.width - 1 - i))).toUInt8
  length_eq := by simp

/-- The id of zeros. -/
def zero : Id kind := ⟨List.replicate kind.width 0, by simp⟩

instance : Inhabited (Id kind) := ⟨zero⟩

/-- Whether an id is the one that stands for a missing id. -/
def isZero (a : Id kind) : Bool := decide (a = zero)

instance : Ord (Id kind) := ⟨compareOn bytes⟩

instance : Std.TransOrd (Id kind) := inferInstanceAs (Std.TransCmp (compareOn bytes))

instance : Std.LawfulEqOrd (Id kind) where
  eq_of_compare h := ext (Std.LawfulEqOrd.eq_of_compare (α := Bytes) h)

/-- All digits of an id. -/
def hex (a : Id kind) : String := a.bytes.hex

/-- The digits of an id in groups of 8, 4, 4, 4 and the rest. -/
def hyphenated (a : Id kind) : String :=
  let d := a.bytes.hexDigits
  String.ofList <| d.take 8 ++ '-' :: (d.drop 8).take 4 ++ '-' :: (d.drop 12).take 4 ++
    '-' :: (d.drop 16).take 4 ++ '-' :: d.drop 20

/-- The digits of an id under the name of its kind. -/
def tagged (a : Id kind) : String :=
  match kind with
  | .project => s!"ProjectId({a.hex})"
  | .stream => s!"StreamId({a.hex})"
  | .node => s!"NodeId({a.hex})"
  | .piece => s!"PieceId({a.hex})"

end Id

end ObjectCatalog
