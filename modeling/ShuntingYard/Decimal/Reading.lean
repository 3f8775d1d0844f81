import ShuntingYard.Number

namespace ShuntingYard.Decimal

-- The run of ASCII digits with at most one point that `text` starts with. It stops at a second
-- point, and a point alone is a run.
def run (text : List Char) : List Char :=
  text.takeWhile Char.isDigit ++
    match text.dropWhile Char.isDigit with
    | '.' :: rest => '.' :: rest.takeWhile Char.isDigit
    | _ => []

-- The number that a run spells: an integer without a point, a float with one. A run without
-- digits spells none, nor does an integer that no word holds.
def ofRun? (run : List Char) : Option Number :=
  let whole := run.takeWhile Char.isDigit
  match run.dropWhile Char.isDigit with
  | [] =>
    if whole.isEmpty then none
    else (Binary.word? (Nat.ofDigitChars 10 whole 0)).map Number.integer
  | _ :: fraction =>
    if whole.isEmpty && fraction.isEmpty then none
    else
      let digits := Nat.ofDigitChars 10 (whole ++ fraction) 0
      some (.float (.ofScientific digits true fraction.length))

def read? (text : List Char) : Option (Number × List Char) :=
  (ofRun? (run text)).map fun n => (n, text.drop (run text).length)

theorem run_ne_nil (read : read? text = some result) : run text ≠ [] := by
  intro empty
  simp [read?, empty, ofRun?] at read

theorem read?_shorter (read : read? (c :: rest) = some (n, left)) : left.length ≤ rest.length := by
  have present := List.length_pos_iff.mpr (run_ne_nil read)
  simp only [read?, Option.map_eq_some_iff, Prod.mk.injEq] at read
  obtain ⟨_, _, _, rfl⟩ := read
  simp only [List.length_drop, List.length_cons]
  omega

end ShuntingYard.Decimal
