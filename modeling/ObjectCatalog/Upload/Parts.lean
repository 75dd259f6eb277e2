import ObjectCatalog.Segment

/-!
# Parts of an object

The segments of one part number form a part. When an object is committed its parts are counted, and
every part but the last must have a least plain size.

* `Parts.ofSegments`: the parts of segments in position order, with their plain sizes.
* `Parts.check`: the limits on parts.
* `sumOf`: totals.
* `fixedSegmentSize`: the plain size that all segments but the last share.
* `withOffsets`: segments laid out one after the other.
-/

namespace ObjectCatalog

namespace Parts

/-- The part numbers of segments with the plain sizes of their runs. -/
def ofSegments : List SegmentRow → List (UInt32 × Int)
  | [] => []
  | r :: rest =>
    match ofSegments rest with
    | (part, size) :: more =>
      if r.place.part = part then (part, r.plainSize + size) :: more
      else (r.place.part, r.plainSize) :: (part, size) :: more
    | [] => [(r.place.part, r.plainSize)]

/-- Checks the number of parts, and the size of every part but the last. -/
def check (segments : List SegmentRow) (least : Int) (limit : Nat) : Except Error Unit := do
  let parts := ofSegments segments
  reject (limit < parts.length) (.tooManyParts limit)
  match parts.dropLast.find? fun p => p.2 < least with
  | some (part, size) => throw (.rejected (.partTooSmall part size least))
  | none => pure ()

end Parts

/-- The sum of a quantity over segments. -/
def sumOf (quantity : SegmentRow → Int) : List SegmentRow → Int
  | [] => 0
  | r :: rest => quantity r + sumOf quantity rest

/-- The plain size of all segments but the last, when they stand at `0/0`, `0/1` and so on and share
one; 0 without segments, and -1 otherwise. -/
def fixedSegmentSize (segments : List SegmentRow) : Int :=
  match segments with
  | [] => 0
  | first :: _ =>
    let regular := segments.zipIdx.all fun (r, i) =>
      r.place.part = 0 && r.place.index.toNat = i &&
        (i + 1 = segments.length || r.plainSize = first.plainSize)
    if regular then first.plainSize else -1

/-- The segments with plain offsets that add up their plain sizes from an offset on. -/
def withOffsets : (offset : Int) → List SegmentRow → List SegmentRow
  | _, [] => []
  | offset, r :: rest =>
    { r with plainOffset := offset } :: withOffsets (offset + r.plainSize) rest

end ObjectCatalog
