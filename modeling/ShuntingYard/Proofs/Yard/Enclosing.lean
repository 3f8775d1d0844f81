import ShuntingYard.Proofs.Fixed
import ShuntingYard.Proofs.Spelling
import ShuntingYard.Proofs.Yard.Cutting
import ShuntingYard.Proofs.Yard.Stack

-- What stands in parentheses is taken in as if it stood alone: it leaves everything below its
-- parenthesis where it is, and what it has left waiting when this is closed comes out as at the
-- end of a text.
namespace ShuntingYard
namespace Yard
variable {pieces inner back : List Piece} {stack next last below : List Held}
  {released emitted : List Emission} {op : Operator}

theorem release_above (op : Operator) (stack below : List Held) :
    release op (stack ++ .opening :: below) =
      ((release op stack).1, (release op stack).2 ++ .opening :: below) := by
  obtain ⟨parts, yields, rests⟩ := release_spec op stack
  have still : Rests op ((release op stack).2 ++ .opening :: below) := by
    cases kept : (release op stack).2 with
    | nil => trivial
    | cons top under =>
      rw [kept] at rests
      cases top with
      | operator top => exact rests
      | opening => trivial
  rw [← release_waiting yields still, ← List.append_assoc, ← parts]

theorem toOpening_above (found : toOpening? stack = some (ops, kept)) (below : List Held) :
    toOpening? (stack ++ .opening :: below) = some (ops, kept ++ .opening :: below) := by
  rw [toOpening_spec found, List.append_assoc, List.cons_append, toOpening_waiting]

theorem shift_above (shifted : shift stack piece = .ok (released, next)) (below : List Held) :
    shift (stack ++ .opening :: below) piece = .ok (released, next ++ .opening :: below) := by
  cases piece with
  | operand n =>
    cases shifted
    rfl
  | operator op =>
    cases shifted
    simp only [shift, release_above, List.cons_append]
  | paren side =>
    cases side with
    | left =>
      cases shifted
      rfl
    | right =>
      cases found : toOpening? stack with
      | none => simp [shift, found] at shifted
      | some result =>
        simp only [shift, found] at shifted
        cases shifted
        simp only [shift, toOpening_above found]
  | blank =>
    cases shifted
    rfl
  | stray c => cases shifted

theorem Passes.above (passed : Passes pieces stack emitted last) (below : List Held) :
    Passes pieces (stack ++ .opening :: below) emitted (last ++ .opening :: below) := by
  induction passed with
  | nil => exact .nil
  | cons shifted _ ih => exact .cons (shift_above shifted below) ih

def enclosed (inner : List Piece) : List Piece := .paren .left :: inner ++ [.paren .right]

theorem passes_enclosed (accepted : (feed inner []).fault = none) (stack : List Held) :
    ∃ emitted, Passes (enclosed inner) stack emitted stack ∧
      emitted.map Emission.token = (feed inner []).emitted.map Emission.token := by
  obtain ⟨emitted, last, final, passed, drained, output⟩ := feed_accepted accepted
  have within : Passes inner (.opening :: stack) emitted (last ++ .opening :: stack) :=
    passed.above stack
  have flushed : shift (last ++ .opening :: stack) (.paren .right) =
      .ok (final.map .closed, stack) := by
    rw [drain_spec drained]
    simp only [shift, toOpening_waiting]
  refine ⟨emitted ++ final.map .closed, .quiet rfl (within.append (.one flushed)), ?_⟩
  rw [output, List.map_append, List.map_append, map_closed, map_ended]

theorem passes_or_stops (front : List Piece) (stack : List Held) :
    (∃ emitted last, Passes front stack emitted last) ∨
      ∃ fault, ∀ rest, (feed (front ++ rest) stack).fault = some fault := by
  induction front generalizing stack with
  | nil => exact .inl ⟨[], stack, .nil⟩
  | cons piece front ih =>
    cases shifted : shift stack piece with
    | error fault =>
      refine .inr ⟨fault, fun rest => ?_⟩
      simp only [List.cons_append, feed, shifted]
    | ok result =>
      obtain ⟨released, next⟩ := result
      rcases ih next with ⟨emitted, last, passed⟩ | ⟨fault, stops⟩
      · exact .inl ⟨released ++ emitted, last, .cons shifted passed⟩
      · refine .inr ⟨fault, fun rest => ?_⟩
        simp only [List.cons_append, feed, shifted, stops rest]

theorem feed_around (front back : List Piece) :
    (∃ fault, ∀ inner, (feed inner []).fault = none →
        (feed (front ++ (enclosed inner ++ back)) []).fault = some fault) ∨
      ∃ x y, ∀ inner, (feed inner []).fault = none →
        (feed (front ++ (enclosed inner ++ back)) []).fault = none ∧
        (feed (front ++ (enclosed inner ++ back)) []).emitted.map Emission.token =
          x ++ (feed inner []).emitted.map Emission.token ++ y := by
  rcases passes_or_stops front [] with ⟨before, stack, passed⟩ | ⟨fault, stops⟩
  · cases ending : (feed back stack).fault with
    | some fault =>
      refine .inl ⟨fault, fun inner accepted => ?_⟩
      obtain ⟨emitted, within, -⟩ := passes_enclosed accepted stack
      rw [passed.feed, within.feed, ending]
    | none =>
      refine .inr ⟨before.map Emission.token, (feed back stack).emitted.map Emission.token,
        fun inner accepted => ?_⟩
      obtain ⟨emitted, within, same⟩ := passes_enclosed accepted stack
      rw [passed.feed, within.feed]
      refine ⟨ending, ?_⟩
      rw [List.map_append, List.map_append, same, List.append_assoc]
  · exact .inl ⟨fault, fun inner _ => stops _⟩

end Yard

namespace Piece
open Directory
variable {find : Char → Option Provider}

theorem cut_opening (opening : ((fixed find).operator? '(' ()).1 = none) (rest : List Char) :
    (cut (fixed find) ('(' :: rest) ()).1 = .paren .left :: (cut (fixed find) rest ()).1 := by
  rw [cut_cons, next_looked _ (Decimal.read?_parted (opening_parted rest)) (by decide), opening]
  rfl

theorem cut_closing (closing : ((fixed find).operator? ')' ()).1 = none) (rest : List Char) :
    (cut (fixed find) (')' :: rest) ()).1 = .paren .right :: (cut (fixed find) rest ()).1 := by
  rw [cut_cons, next_looked _ (Decimal.read?_parted (closing_parted rest)) (by decide), closing]
  rfl

theorem cut_enclosed (opening : ((fixed find).operator? '(' ()).1 = none)
    (closing : ((fixed find).operator? ')' ()).1 = none) (before inner behind : List Char) :
    (cut (fixed find) (before ++ '(' :: (inner ++ ')' :: behind)) ()).1 =
      (cut (fixed find) before ()).1 ++
        (Yard.enclosed (cut (fixed find) inner ()).1 ++ (cut (fixed find) behind ()).1) := by
  rw [cut_join _ (opening_parted _), cut_opening opening, cut_join _ (closing_parted _),
    cut_closing closing]
  simp only [Yard.enclosed, List.cons_append, List.append_assoc, List.nil_append]

end Piece
end ShuntingYard
