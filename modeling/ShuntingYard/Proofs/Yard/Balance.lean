import ShuntingYard.Proofs.Yard.Passage
import ShuntingYard.Proofs.Yard.Stack

namespace ShuntingYard

def Piece.stray? : Piece → Option Char
  | .stray c => some c
  | _ => none

namespace Yard

def firstStray? (pieces : List Piece) : Option Char := pieces.findSome? Piece.stray?

def opened (pieces : List Piece) : Nat := pieces.count (.paren .left)

def closed (pieces : List Piece) : Nat := pieces.count (.paren .right)

-- No parenthesis is closed before it was opened, and all are closed at the end.
structure Balanced (pieces : List Piece) : Prop where
  inTime : ∀ front, front <+: pieces → closed front ≤ opened front
  atEnd : closed pieces = opened pieces

-- A closing parenthesis finds nothing open, and nothing stray stands before it.
def Overclosed (pieces : List Piece) : Prop :=
  ∃ front rest, pieces = front ++ .paren .right :: rest ∧ firstStray? front = none ∧
    opened front ≤ closed front

def height (stack : List Held) : Nat := stack.count .opening

theorem opened_append (front rest : List Piece) : opened (front ++ rest) = opened front + opened rest :=
  List.count_append

theorem closed_append (front rest : List Piece) : closed (front ++ rest) = closed front + closed rest :=
  List.count_append

theorem closing_counts : closed [.paren .right] = 1 ∧ opened [.paren .right] = 0 := ⟨rfl, rfl⟩

variable {piece : Piece} {pieces front : List Piece} {stack last : List Held}
  {emitted released : List Emission} {fault : ParseFault}

theorem height_waiting (ops : List Operator) (below : List Held) :
    height (ops.map .operator ++ below) = height below := by
  have none : (ops.map Held.operator).count .opening = 0 := by
    rw [List.count_eq_zero]
    simp
  rw [height, List.count_append, none, Nat.zero_add, height]

theorem height_release (arriving : Operator) (stack : List Held) :
    height (release arriving stack).2 = height stack := by
  obtain ⟨parts, -, -⟩ := release_spec arriving stack
  exact (height_waiting _ _).symm.trans (congrArg height parts.symm)

theorem height_toOpening (found : toOpening? stack = some (ops, below)) :
    height stack = height below + 1 := by
  rw [toOpening_spec found, height_waiting]
  simp [height]

theorem height_closed (missing : toOpening? stack = none) : height stack = 0 := by
  fun_induction toOpening? stack with
  | case1 => rfl
  | case2 below => cases missing
  | case3 top below ih =>
    have inner := ih (Option.map_eq_none_iff.mp missing)
    simpa [height] using inner

theorem height_drained (drained : drain? stack = some ops) : height stack = 0 := by
  have whole := height_waiting ops []
  rw [drain_spec drained]
  simpa [height] using whole

theorem height_stuck (stuck : drain? stack = none) : 0 < height stack := by
  fun_induction drain? stack with
  | case1 => cases stuck
  | case2 below => simp [height]
  | case3 top below ih =>
    have inner := ih (Option.map_eq_none_iff.mp stuck)
    simpa [height] using inner

theorem shift_height (shifted : shift stack piece = .ok (released, last)) :
    height last + closed [piece] = height stack + opened [piece] := by
  cases piece with
  | operand n =>
    cases shifted
    rfl
  | operator op =>
    cases shifted
    have same := height_release op stack
    simpa [height, closed, opened] using same
  | paren side =>
    cases side with
    | left =>
      cases shifted
      simp [height, closed, opened]
    | right =>
      simp only [shift] at shifted
      split at shifted
      · rename_i found
        cases shifted
        have fewer := height_toOpening found
        simp [closed, opened, fewer]
      · cases shifted
  | blank =>
    cases shifted
    rfl
  | stray c => cases shifted

theorem shift_sound (shifted : shift stack piece = .ok (released, last)) : piece.stray? = none := by
  cases piece with
  | stray c => cases shifted
  | operand n => rfl
  | operator op => rfl
  | paren side => rfl
  | blank => rfl

theorem shift_refused (refused : shift stack piece = .error fault) :
    (∃ c, piece = .stray c ∧ fault = .stray c) ∨
      (piece = .paren .right ∧ height stack = 0 ∧ fault = .unbalanced) := by
  cases piece with
  | operand n => cases refused
  | operator op => cases refused
  | paren side =>
    cases side with
    | left => cases refused
    | right =>
      simp only [shift] at refused
      split at refused
      · cases refused
      · rename_i missing
        cases refused
        exact .inr ⟨rfl, height_closed missing, rfl⟩
  | blank => cases refused
  | stray c =>
    cases refused
    exact .inl ⟨c, rfl, rfl⟩

theorem Passes.height (passed : Passes pieces stack emitted last) :
    Yard.height last + closed pieces = Yard.height stack + opened pieces := by
  induction passed with
  | nil => rfl
  | @cons stack piece _ _ pieces _ _ shifted _ ih =>
    have step := shift_height shifted
    have closings : closed (piece :: pieces) = closed [piece] + closed pieces := closed_append [piece] pieces
    have openings : opened (piece :: pieces) = opened [piece] + opened pieces := opened_append [piece] pieces
    omega

theorem Passes.sound (passed : Passes pieces stack emitted last) : firstStray? pieces = none := by
  induction passed with
  | nil => rfl
  | cons shifted _ ih => rw [firstStray?, List.findSome?_cons, shift_sound shifted]; exact ih

theorem Passes.split (passed : Passes (front ++ rest) stack emitted last) :
    ∃ before middle, Passes front stack before middle := by
  induction front generalizing stack emitted with
  | nil => exact ⟨[], stack, .nil⟩
  | cons piece front ih =>
    cases passed with
    | cons shifted later =>
      obtain ⟨before, middle, inner⟩ := ih later
      exact ⟨_, middle, .cons shifted inner⟩

theorem Passes.inTime (passed : Passes pieces [] emitted last) (within : front <+: pieces) :
    closed front ≤ opened front := by
  obtain ⟨rest, rfl⟩ := within
  obtain ⟨_, middle, begun⟩ := passed.split
  have level := begun.height
  simp only [Yard.height, List.count_nil] at level
  omega

theorem before_stray (same : front ++ .stray c :: rest = before ++ piece :: behind)
    (clean : firstStray? before = none) (sound : piece.stray? = none) :
    before ++ [piece] <+: front := by
  rcases List.append_eq_append_iff.mp same with ⟨between, rfl, tails⟩ | ⟨between, rfl, tails⟩
  · cases between with
    | nil =>
      cases (List.cons.inj tails).1
      cases sound
    | cons first others =>
      cases (List.cons.inj tails).1
      simp [firstStray?, List.findSome?_append, Piece.stray?] at clean
  · cases between with
    | nil =>
      cases (List.cons.inj tails).1
      cases sound
    | cons first others =>
      cases (List.cons.inj tails).1
      exact ⟨others, by simp⟩

theorem feed_refused (refused : (feed pieces stack).fault = some fault) :
    (∃ front piece rest emitted last, pieces = front ++ piece :: rest ∧
        Passes front stack emitted last ∧ shift last piece = .error fault) ∨
      ∃ emitted last, Passes pieces stack emitted last ∧ drain? last = none ∧
        fault = .unbalanced := by
  induction pieces generalizing stack with
  | nil =>
    cases drained : drain? stack with
    | some final => simp [feed, finish, drained] at refused
    | none =>
      simp only [feed, finish, drained, Option.some.injEq] at refused
      exact .inr ⟨[], stack, .nil, drained, refused.symm⟩
  | cons piece rest ih =>
    cases shifted : shift stack piece with
    | error stop =>
      simp only [feed, shifted, Option.some.injEq] at refused
      exact .inl ⟨[], piece, rest, [], stack, rfl, .nil, refused ▸ shifted⟩
    | ok result =>
      obtain ⟨released, next⟩ := result
      simp only [feed, shifted] at refused
      rcases ih refused with ⟨front, stop, behind, emitted, last, rfl, passed, refusal⟩ |
          ⟨emitted, last, passed, stuck, same⟩
      · exact .inl ⟨piece :: front, stop, behind, _, last, rfl, .cons shifted passed, refusal⟩
      · exact .inr ⟨_, last, .cons shifted passed, stuck, same⟩

theorem feed_balanced (accepted : (feed pieces []).fault = none) :
    firstStray? pieces = none ∧ Balanced pieces := by
  obtain ⟨emitted, last, final, passed, drained, -⟩ := feed_accepted accepted
  have level := passed.height
  rw [height_drained drained] at level
  exact ⟨passed.sound, fun _ within => passed.inTime within, by simpa [height] using level⟩

theorem feed_fault (refused : (feed pieces []).fault = some fault) :
    (∃ c, firstStray? pieces = some c ∧ ¬ Overclosed pieces ∧ fault = .stray c) ∨
      (Overclosed pieces ∧ ¬ Balanced pieces ∧ fault = .unbalanced) ∨
      (firstStray? pieces = none ∧ ¬ Balanced pieces ∧ fault = .unbalanced) := by
  rcases feed_refused refused with ⟨front, piece, rest, emitted, last, rfl, passed, refusal⟩ |
      ⟨emitted, last, passed, stuck, rfl⟩
  · have sound := passed.sound
    rcases shift_refused refusal with ⟨c, rfl, rfl⟩ | ⟨rfl, ground, rfl⟩
    · refine .inl ⟨c, ?_, ?_, rfl⟩
      · simp only [firstStray?, List.findSome?_append, List.findSome?_cons] at sound ⊢
        rw [sound]
        rfl
      · rintro ⟨before, behind, same, clean, excess⟩
        have early := passed.inTime (before_stray same clean rfl)
        rw [closed_append, opened_append, closing_counts.1, closing_counts.2] at early
        omega
    · have level := passed.height
      rw [ground] at level
      simp only [height, List.count_nil] at level
      refine .inr (.inl ⟨⟨front, rest, rfl, sound, by omega⟩, ?_, rfl⟩)
      intro balanced
      have early := balanced.inTime (front ++ [.paren .right]) ⟨rest, by simp⟩
      rw [closed_append, opened_append, closing_counts.1, closing_counts.2] at early
      omega
  · have level := passed.height
    have open_ := height_stuck stuck
    refine .inr (.inr ⟨passed.sound, fun balanced => ?_, rfl⟩)
    have even := balanced.atEnd
    simp only [height, List.count_nil] at level open_
    omega

end Yard
end ShuntingYard
