import Mathlib
import ShuntingYard.Proofs.Engine.Afresh
import ShuntingYard.Proofs.Yard.Enclosing

namespace ShuntingYard
open Yard

def around (before inner behind : String) : String := before ++ "(" ++ inner ++ ")" ++ behind

theorem around_toList (before inner behind : String) :
    (around before inner behind).toList =
      before.toList ++ '(' :: (inner.toList ++ ')' :: behind.toList) := by
  simp [around]

namespace Directory
variable {find : Char → Option Provider} {source : String} {program : Program}
  (opening : ((fixed find).operator? '(' ()).1 = none)
  (closing : ((fixed find).operator? ')' ()).1 = none)
include opening closing

theorem piecesOf_around (before inner behind : String) :
    (fixed find).piecesOf (around before inner behind) () =
      (fixed find).piecesOf before () ++
        (enclosed ((fixed find).piecesOf inner ()) ++ (fixed find).piecesOf behind ()) := by
  unfold piecesOf
  rw [around_toList, Piece.cut_enclosed opening closing]

theorem fixed_around (before behind : String) :
    (∃ fault, ∀ inner program, ((fixed find).parse inner ()).1 = .ok program →
        ((fixed find).parse (around before inner behind) ()).1 =
          .error (.parse fault (around before inner behind))) ∨
      ∃ x y, ∀ inner program, ((fixed find).parse inner ()).1 = .ok program →
        ((fixed find).parse (around before inner behind) ()).1 =
          .ok ⟨around before inner behind, x ++ program.tokens ++ y⟩ := by
  have unheard := fixed_unheard find
  rcases feed_around ((fixed find).piecesOf before ()) ((fixed find).piecesOf behind ()) with
    ⟨fault, refused⟩ | ⟨x, y, accepted⟩
  · refine .inl ⟨fault, fun inner program parsed => parse_stopped unheard ?_⟩
    rw [piecesOf_around opening closing]
    exact refused _ (fed_of_parsed unheard parsed).1
  · refine .inr ⟨x, y, fun inner program parsed => ?_⟩
    obtain ⟨sound, tokens⟩ := fed_of_parsed unheard parsed
    obtain ⟨whole, output⟩ := accepted _ sound
    rw [← piecesOf_around opening closing] at whole output
    rw [parse_fed unheard whole, output, tokens]

theorem fixed_wrapped (parsed : ((fixed find).parse source ()).1 = .ok program) :
    ((fixed find).parse (around "" source "") ()).1 = .ok ⟨around "" source "", program.tokens⟩ := by
  have unheard := fixed_unheard find
  obtain ⟨sound, tokens⟩ := fed_of_parsed unheard parsed
  obtain ⟨emitted, within, same⟩ := passes_enclosed sound []
  have nothing : (fixed find).piecesOf "" () = [] := by simp [piecesOf]
  have alone : feed ((fixed find).piecesOf (around "" source "") ()) [] = ⟨emitted, none⟩ := by
    rw [piecesOf_around opening closing, nothing, List.nil_append, within.feed]
    simp [feed, finish, drain?]
  rw [parse_fed unheard (congrArg Outcome.fault alone), alone, same, tokens]

end Directory

namespace Engine
open Directory
variable {e : Engine} {find : Char → Option Provider}

theorem parse_around (fixed : ∀ c, (e.registry.directory .parser).Finds e.state c (find c))
    (opening : (e.registry.directory .parser).Gives e.state '(' none)
    (closing : (e.registry.directory .parser).Gives e.state ')' none) :
    (∀ before behind,
      (∃ fault, ∀ inner program, (e.parse inner).1 = .ok program →
          (e.parse (around before inner behind)).1 =
            .error (.parse fault (around before inner behind))) ∨
        ∃ x y, ∀ inner program, (e.parse inner).1 = .ok program →
          (e.parse (around before inner behind)).1 =
            .ok ⟨around before inner behind, x ++ program.tokens ++ y⟩) ∧
      ∀ inner program, (e.parse inner).1 = .ok program →
        (e.parse ("(" ++ inner ++ ")")).1 = .ok ⟨"(" ++ inner ++ ")", program.tokens⟩ := by
  have same (source : String) : (e.parse source).1 = ((Directory.fixed find).parse source ()).1 :=
    parse_fixed fixed .refl source
  have opens := (operator_fixed (fixed '(') .refl).symm.trans (opening _ .refl)
  have closes := (operator_fixed (fixed ')') .refl).symm.trans (closing _ .refl)
  simp only [same]
  refine ⟨fixed_around opens closes, fun inner program parsed => ?_⟩
  have wrapped := fixed_wrapped opens closes parsed
  rwa [show around "" inner "" = "(" ++ inner ++ ")" by simp [around]] at wrapped

theorem parse_around_senseless :
    ∃ x y, (arithmetic.parse (around "4*" "8-" "^2")).1 =
        .ok ⟨around "4*" "8-" "^2",
          x ++ [.operand (.integer 8), .operator ⟨'-', .left, 1, 2⟩] ++ y⟩ ∧
      (arithmetic.parse (around "4*" "2 1" "^2")).1 =
        .ok ⟨around "4*" "2 1" "^2", x ++ [.operand (.integer 2), .operand (.integer 1)] ++ y⟩ := by
  have steady := builtIn_arithmetic.steady
  have minus : (arithmetic.parse "8-").1 =
      .ok ⟨"8-", [.operand (.integer 8), .operator ⟨'-', .left, 1, 2⟩]⟩ := by
    cbv
  have numbers : (arithmetic.parse "2 1").1 =
      .ok ⟨"2 1", [.operand (.integer 2), .operand (.integer 1)]⟩ := by
    cbv
  have whole : (arithmetic.parse (around "4*" "8-" "^2")).1 = .ok ⟨around "4*" "8-" "^2",
      [.operand (.integer 4), .operand (.integer 8), .operator ⟨'-', .left, 1, 2⟩,
        .operand (.integer 2), .operator ⟨'^', .right, 3, 2⟩, .operator ⟨'*', .left, 2, 2⟩]⟩ := by
    cbv
  obtain ⟨places, -⟩ := parse_around (fun c => steady.finds ranked_arithmetic .parser c)
    builtIn_arithmetic.serves.opening builtIn_arithmetic.serves.closing
  rcases places "4*" "^2" with ⟨fault, refused⟩ | ⟨x, y, accepted⟩
  · cases whole.symm.trans (refused _ _ minus)
  · exact ⟨x, y, accepted _ _ minus, accepted _ _ numbers⟩

end Engine
end ShuntingYard
