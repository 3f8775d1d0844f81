import ShuntingYard.Proofs.Course
import ShuntingYard.Proofs.Yard.Cutting
import ShuntingYard.Proofs.Yard.Halt

-- Which symbols are looked up in the course of a reading, told by the text and the pieces.
namespace ShuntingYard

namespace Piece

-- The text behind the piece that it begins with. How far a number goes, no provider can change.
def behind (c : Char) (rest : List Char) : List Char :=
  match Decimal.read? (c :: rest) with
  | some (_, left) => left
  | none => rest

variable {directory : Directory σ} {asked : σ → List Char}

end Piece

namespace Directory
open Yard
variable {directory : Directory σ} {asked : σ → List Char} {view : σ → τ}

end Directory
end ShuntingYard
