import ShuntingYard.Proofs.Yard.Balance

namespace ShuntingYard.Yard

-- The piece at this place cannot be taken in: nobody owns the character, or the parenthesis closes
-- nothing.
def refuses (pieces : List Piece) (i : Nat) : Bool :=
  pieces[i]?.any fun piece => piece.stray?.isSome ||
    piece = .paren .right ∧ opened (pieces.take i) ≤ closed (pieces.take i)

def halt (pieces : List Piece) : Nat :=
  ((List.range pieces.length).find? (refuses pieces)).getD pieces.length

def reach : List Piece → List Held → Nat
  | [], _ => 0
  | piece :: rest, stack =>
    match shift stack piece with
    | .ok (_, next) => reach rest next + 1
    | .error _ => 0

variable {pieces : List Piece} {stack last : List Held} {emitted : List Emission} {i k : Nat}

theorem reach_refused (refused : shift stack piece = .error fault) :
    reach (piece :: rest) stack = 0 := by
  simp only [reach, refused]

theorem reach_shifted (shifted : shift stack piece = .ok (released, next)) :
    reach (piece :: rest) stack = reach rest next + 1 := by
  simp only [reach, shifted]

theorem passes_reach (pieces : List Piece) (stack : List Held) :
    ∃ emitted last, Passes (pieces.take (reach pieces stack)) stack emitted last ∧
      ((∃ piece fault, pieces[reach pieces stack]? = some piece ∧ shift last piece = .error fault) ∨
        reach pieces stack = pieces.length) := by
  induction pieces generalizing stack with
  | nil => exact ⟨[], stack, .nil, .inr rfl⟩
  | cons piece rest ih =>
    cases shifted : shift stack piece with
    | error fault =>
      rw [reach_refused shifted]
      exact ⟨[], stack, .nil, .inl ⟨piece, fault, rfl, shifted⟩⟩
    | ok result =>
      obtain ⟨released, next⟩ := result
      obtain ⟨emitted, last, passed, ending⟩ := ih next
      rw [reach_shifted shifted]
      refine ⟨released ++ emitted, last, .cons shifted passed, ?_⟩
      rcases ending with ⟨stop, fault, here, refused⟩ | whole
      · exact .inl ⟨stop, fault, here, refused⟩
      · exact .inr (by rw [whole, List.length_cons])

theorem Passes.accepts (passed : Passes (pieces.take k) [] emitted last) (before : i < k) :
    Yard.refuses pieces i = false := by
  cases here : pieces[i]? with
  | none => simp only [Yard.refuses, here, Option.any_none]
  | some piece =>
    have listed : piece ∈ pieces.take k :=
      List.mem_of_getElem? ((List.getElem?_take_of_lt before).trans here)
    have clean : piece.stray? = none := List.findSome?_eq_none_iff.mp passed.sound piece listed
    simp only [Yard.refuses, here, Option.any_some, clean, Option.isSome_none, Bool.false_or,
      decide_eq_false_iff_not]
    rintro ⟨rfl, excess⟩
    have early := passed.inTime (List.take_prefix_take_left before)
    rw [List.take_add_one, here, Option.toList_some, closed_append, opened_append,
      closing_counts.1, closing_counts.2] at early
    omega

theorem Passes.refuses (passed : Passes (pieces.take k) [] emitted last)
    (here : pieces[k]? = some piece) (refused : shift last piece = .error fault) :
    Yard.refuses pieces k := by
  have level := passed.height
  rw [Yard.refuses, here]
  rcases shift_refused refused with ⟨c, rfl, -⟩ | ⟨rfl, ground, -⟩
  · rfl
  · rw [ground] at level
    simp only [Yard.height, List.count_nil] at level
    exact decide_eq_true ⟨rfl, by omega⟩

theorem reach_eq_halt (pieces : List Piece) : reach pieces [] = halt pieces := by
  obtain ⟨emitted, last, passed, ending⟩ := passes_reach pieces []
  rcases ending with ⟨piece, fault, here, refused⟩ | whole
  · have inside := (List.getElem?_eq_some_iff.mp here).1
    have first : (List.range pieces.length).find? (refuses pieces) = some (reach pieces []) := by
      rw [List.find?_range_eq_some]
      refine ⟨passed.refuses here refused, List.mem_range.mpr inside, fun j before => ?_⟩
      rw [passed.accepts before]
      rfl
    rw [halt, first, Option.getD_some]
  · have never : (List.range pieces.length).find? (refuses pieces) = none := by
      rw [List.find?_eq_none]
      intro j inside
      rw [passed.accepts (whole ▸ List.mem_range.mp inside)]
      simp
    rw [halt, never, Option.getD_none, whole]

theorem feed_halt (pieces : List Piece) :
    ∃ emitted last, ∃ ops : List Operator, Passes (pieces.take (halt pieces)) [] emitted last ∧
      (feed pieces []).emitted = emitted ++ ops.map .ended ∧
      ((feed pieces []).fault = none → halt pieces = pieces.length) := by
  obtain ⟨emitted, last, passed, ending⟩ := passes_reach pieces []
  rw [reach_eq_halt] at passed ending
  have fed : feed (pieces.take (halt pieces) ++ pieces.drop (halt pieces)) [] = _ := passed.feed
  rw [List.take_append_drop] at fed
  rcases ending with ⟨piece, fault, here, refused⟩ | whole
  · obtain ⟨inside, same⟩ := List.getElem?_eq_some_iff.mp here
    rw [List.drop_eq_getElem_cons inside, same] at fed
    simp only [feed, refused] at fed
    refine ⟨emitted, last, [], passed, by rw [fed]; rfl, fun accepted => ?_⟩
    rw [fed] at accepted
    cases accepted
  · rw [whole, List.drop_length] at fed
    cases drained : drain? last with
    | none =>
      simp only [feed, finish, drained] at fed
      exact ⟨emitted, last, [], passed, by rw [fed]; rfl, fun _ => whole⟩
    | some ops =>
      simp only [feed, finish, drained] at fed
      exact ⟨emitted, last, ops, passed, by rw [fed], fun _ => whole⟩

end ShuntingYard.Yard
