import Mathlib.Data.List.TakeWhile
import ShuntingYard.Decimal.Reading

namespace ShuntingYard.Decimal

-- A text that cannot continue a number standing before it.
def Parted (rest : List Char) : Prop := ∀ c ∈ rest.head?, c.isDigit = false ∧ c ≠ '.'

theorem parted_cons (noDigit : c.isDigit = false) (noPoint : c ≠ '.') (rest : List Char) :
    Parted (c :: rest) := by
  intro d first
  cases Option.some.inj first
  exact ⟨noDigit, noPoint⟩

theorem takeWhile_parted (parted : Parted rest) : rest.takeWhile Char.isDigit = [] := by
  cases rest with
  | nil => rfl
  | cons c rest => simp [(parted c rfl).1]

theorem run_parted (parted : Parted rest) : run rest = [] := by
  unfold run
  rw [takeWhile_parted parted]
  cases rest with
  | nil => rfl
  | cons c rest =>
    obtain ⟨noDigit, noPoint⟩ := parted c rfl
    simp only [List.dropWhile_cons, noDigit, Bool.false_eq_true, if_false, List.nil_append]
    split
    · rename_i point
      exact absurd (List.cons.inj point).1 noPoint
    · rfl

theorem read?_parted (parted : Parted (c :: rest)) : read? (c :: rest) = none := by
  simp [read?, run_parted parted, ofRun?]

theorem run_digits (digits : ∀ c ∈ front, c.isDigit) (text : List Char) :
    run (front ++ text) = front ++ run text := by
  unfold run
  rw [List.takeWhile_append_of_pos digits, List.dropWhile_append_of_pos digits, List.append_assoc]

theorem run_point (text : List Char) : run ('.' :: text) = '.' :: text.takeWhile Char.isDigit :=
  rfl

theorem takeWhile_join (parted : Parted rest) (text : List Char) :
    (text ++ rest).takeWhile Char.isDigit = text.takeWhile Char.isDigit := by
  induction text with
  | nil => exact takeWhile_parted parted
  | cons c text ih => rw [List.cons_append, List.takeWhile_cons, List.takeWhile_cons, ih]

theorem run_join (parted : Parted rest) (text : List Char) : run (text ++ rest) = run text := by
  have digits : ∀ c ∈ text.takeWhile Char.isDigit, c.isDigit := fun c => List.mem_takeWhile_imp
  have parts := List.takeWhile_append_dropWhile (p := Char.isDigit) (l := text)
  rw [← parts, List.append_assoc, run_digits digits, run_digits digits]
  refine congrArg (text.takeWhile Char.isDigit ++ ·) ?_
  cases ending : text.dropWhile Char.isDigit with
  | nil => exact run_parted parted
  | cons c fraction =>
    by_cases point : c = '.'
    · rw [point, List.cons_append, run_point, run_point, takeWhile_join parted]
    · have noDigit : c.isDigit = false := by
        simpa [ending] using List.head_dropWhile_not (p := Char.isDigit) (l := text) (by simp [ending])
      have nothing (more : List Char) : run (c :: more) = [] :=
        run_parted (parted_cons noDigit point more)
      rw [List.cons_append, nothing, nothing]

theorem run_front (text : List Char) : run text <+: text := by
  have front : run text <+: text.takeWhile Char.isDigit ++ text.dropWhile Char.isDigit := by
    unfold run
    rw [List.prefix_append_right_inj]
    split
    · rename_i fraction ending
      rw [ending, List.cons_prefix_cons]
      exact ⟨rfl, List.takeWhile_prefix Char.isDigit⟩
    · exact List.nil_prefix
  rwa [List.takeWhile_append_dropWhile] at front

theorem read?_join (parted : Parted rest) (text : List Char) :
    read? (text ++ rest) = (read? text).map fun (n, left) => (n, left ++ rest) := by
  have within : (text ++ rest).drop (run text).length = text.drop (run text).length ++ rest :=
    List.drop_append_of_le_length (run_front text).length_le
  simp only [read?, run_join parted, within, Option.map_map]
  rfl

theorem read?_append (parted : Parted rest) (spelled : read? text = some (n, [])) :
    read? (text ++ rest) = some (n, rest) := by
  rw [read?_join parted, spelled]
  rfl

theorem ofRun?_digits (digits : ∀ c ∈ text, c.isDigit) (present : text ≠ []) :
    ofRun? text = (Binary.word? (Nat.ofDigitChars 10 text 0)).map .integer := by
  have all : text.takeWhile Char.isDigit = text := List.takeWhile_eq_self_iff.mpr digits
  have none : text.dropWhile Char.isDigit = [] := List.dropWhile_eq_nil_iff.mpr digits
  simp only [ofRun?, all, none, List.isEmpty_iff, present, if_false]

theorem run_whole (digits : ∀ c ∈ text, c.isDigit) : run text = text := by
  have front := run_digits digits []
  rwa [List.append_nil, show run [] = [] from rfl, List.append_nil] at front

theorem read?_digits (digits : ∀ c ∈ text, c.isDigit) (present : text ≠ []) :
    read? text = (Binary.word? (Nat.ofDigitChars 10 text 0)).map fun n => (.integer n, []) := by
  simp only [read?, run_whole digits, ofRun?_digits digits present, Option.map_map, List.drop_length]
  rfl

theorem read?_pointless (noPoint : '.' ∉ text) (read : read? text = some (n, rest)) :
    n.isFloat = false := by
  have whole : run text = text.takeWhile Char.isDigit := by
    unfold run
    split
    · rename_i fraction point
      refine absurd ?_ noPoint
      exact (List.dropWhile_sublist _).subset (point ▸ List.mem_cons_self)
    · exact List.append_nil _
  obtain ⟨m, spelled, same⟩ := Option.map_eq_some_iff.mp read
  cases same
  have digits : ∀ c ∈ run text, c.isDigit := whole ▸ fun c => List.mem_takeWhile_imp
  have none : (run text).dropWhile Char.isDigit = [] := List.dropWhile_eq_nil_iff.mpr digits
  simp only [ofRun?, none] at spelled
  split at spelled
  · cases spelled
  · obtain ⟨word, -, rfl⟩ := Option.map_eq_some_iff.mp spelled
    rfl

end ShuntingYard.Decimal
