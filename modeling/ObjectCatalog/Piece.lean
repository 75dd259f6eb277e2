import ObjectCatalog.Error

/-!
# Pieces

A remote segment is spread over storage nodes as numbered pieces. Uploads give the pieces in
ascending order of their numbers; they are never sorted for the caller, so a mistake shows at once.

* `Piece.checkAll`: the contract for the pieces of an upload.
-/

namespace ObjectCatalog

/-- One share of a segment on one storage node. -/
structure Piece where
  number : UInt16
  node : NodeId
  deriving DecidableEq

namespace Piece

/-- Checks pieces after a piece numbered `previous`, when there is one. -/
def checkAfter : (previous : Option UInt16) → List Piece → Except Error Unit
  | _, [] => pure ()
  | previous, p :: rest => do
    reject p.node.isZero (.pieceWithoutNode p.number)
    reject (previous = some p.number) (.pieceRepeated p.number)
    reject (previous.any (p.number < ·)) .piecesUnordered
    checkAfter (some p.number) rest

/-- The pieces of an upload: at least one, on known nodes, with ascending numbers. -/
def checkAll (pieces : List Piece) : Except Error Unit := do
  reject pieces.isEmpty .noPieces
  checkAfter none pieces

end Piece

end ObjectCatalog
