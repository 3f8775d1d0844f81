import Mathlib.Data.List.TakeWhile
import ShuntingYard.Session

namespace ShuntingYard.Session

-- How a text falls into lines, told without reading it: no line has a line feed in it, and each
-- ends with one but the last. A carriage return goes with the line feed after it and with nothing
-- else, and an empty rest is no line.
inductive Falls : List Char → List (List Char) → Prop where
  | nil : Falls [] []
  | last (filled : line ≠ []) (whole : '\n' ∉ line) : Falls line [line]
  | feed (whole : '\n' ∉ line) (bare : line.getLast? ≠ some '\r') (rest : Falls text others) :
      Falls (line ++ '\n' :: text) (line :: others)
  | returned (whole : '\n' ∉ line) (rest : Falls text others) :
      Falls (line ++ '\r' :: '\n' :: text) (line :: others)

def Requests (line source : String) : Prop :=
  ∃ blanks : List Char, (∀ c ∈ blanks, isBlank c) ∧
    line.toList = blanks ++ ":rpn ".toList ++ source.toList

variable {line text begun : List Char}

theorem linesFrom_other (other : c ≠ '\n') (begun rest : List Char) :
    linesFrom begun (c :: rest) = linesFrom (c :: begun) rest := by
  rw [linesFrom]
  · exact other
  · exact fun _ _ => other

theorem linesFrom_onto (whole : '\n' ∉ line) (begun rest : List Char) :
    linesFrom begun (line ++ rest) = linesFrom (line.reverse ++ begun) rest := by
  induction line generalizing begun with
  | nil => rfl
  | cons c line ih =>
    obtain ⟨other, others⟩ := List.ne_and_not_mem_of_not_mem_cons whole
    simp [linesFrom_other other.symm, ih others]

theorem linesFrom_end (filled : begun ≠ []) : linesFrom begun [] = [begun.reverse] := by
  cases begun with
  | nil => exact absurd rfl filled
  | cons => rfl

theorem linesFrom_feed (bare : begun.head? ≠ some '\r') (rest : List Char) :
    linesFrom begun ('\n' :: rest) = begun.reverse :: linesFrom [] rest := by
  rw [linesFrom]
  rintro earlier rfl
  exact bare rfl

theorem linesFrom_falls (whole : '\n' ∉ begun) :
    Falls (begun.reverse ++ text) (linesFrom begun text) := by
  fun_induction linesFrom begun text with
  | case1 => exact .nil
  | case2 begun filled =>
    rw [List.append_nil]
    exact .last (by simpa using filled) (by simpa using whole)
  | case3 begun rest ih =>
    have parts : ('\r' :: begun).reverse ++ '\n' :: rest = begun.reverse ++ '\r' :: '\n' :: rest := by
      simp
    rw [parts]
    exact .returned (by simpa using whole) (ih (by simp))
  | case4 begun rest unreturned ih =>
    refine .feed (by simpa using whole) ?_ (ih (by simp))
    intro returned
    rw [List.getLast?_reverse] at returned
    obtain ⟨earlier, same⟩ := List.head?_eq_some_iff.mp returned
    exact unreturned earlier same
  | case5 begun c rest _ other ih =>
    have kept : '\n' ∉ c :: begun := List.not_mem_cons_of_ne_of_not_mem (Ne.symm other) whole
    simpa using ih kept

theorem falls_iff {others : List (List Char)} :
    Falls text others ↔ others = linesFrom [] text := by
  refine ⟨fun falls => ?_, fun same => ?_⟩
  · induction falls with
    | nil => rfl
    | @last line filled whole =>
      have onto := linesFrom_onto whole [] []
      rw [List.append_nil, List.append_nil, linesFrom_end (by simpa using filled)] at onto
      rw [onto, List.reverse_reverse]
    | @feed line rest others whole bare _ ih =>
      rw [linesFrom_onto whole, List.append_nil, linesFrom_feed (by simpa using bare), ih,
        List.reverse_reverse]
    | @returned line rest others whole _ ih =>
      rw [linesFrom_onto whole, List.append_nil, linesFrom_other (by decide), linesFrom, ih,
        List.reverse_reverse]
  · have unbegun : '\n' ∉ ([] : List Char) := by simp
    rw [same]
    exact linesFrom_falls unbegun

theorem lines_iff (input : String) (texts : List String) :
    Falls input.toList (texts.map String.toList) ↔ texts = lines input := by
  rw [falls_iff, lines]
  constructor
  · intro same
    rw [← same]
    simp
  · rintro rfl
    simp

theorem programRequest?_iff (line source : String) :
    programRequest? line = some source ↔ Requests line source := by
  constructor
  · intro asked
    unfold programRequest? at asked
    split at asked
    · rename_i rest trimmed
      cases asked
      refine ⟨line.toList.takeWhile isBlank, fun c => List.mem_takeWhile_imp, ?_⟩
      have parts := List.takeWhile_append_dropWhile (p := isBlank) (l := line.toList)
      rw [trimmed] at parts
      simpa using parts.symm
    · cases asked
  · rintro ⟨blanks, blank, parts⟩
    have trimmed : line.toList.dropWhile isBlank = ":rpn ".toList ++ source.toList := by
      rw [parts, List.append_assoc, List.dropWhile_append_of_pos blank]
      rfl
    simp [programRequest?, trimmed]

end ShuntingYard.Session
