import ShuntingYard.Piece

namespace ShuntingYard

-- A cursor over a text. It stands in front of the character at `position`, so that a read that
-- fails is undone by moving it back.
structure Scanner where
  source : Array Char
  position : Nat
  deriving DecidableEq

namespace Scanner
variable {s later : Scanner} {wanted : Char → Bool}

def ofString (source : String) : Scanner := ⟨source.toList.toArray, 0⟩

def left (s : Scanner) : Nat := s.source.size - s.position

def isDone (s : Scanner) : Bool := s.source.size ≤ s.position

def peek (s : Scanner) : Option Char := s.source[s.position]?

def next (s : Scanner) : Option Char × Scanner :=
  match s.peek with
  | some c => (some c, { s with position := s.position + 1 })
  | none => (none, s)

-- The character `count` after the next one. It is passed with all before it; where the text is
-- too short, the cursor stands at the end.
def nth : Nat → Scanner → Option Char × Scanner
  | 0, s => s.next
  | count + 1, s =>
    match s.next with
    | (some _, later) => nth count later
    | (none, s) => (none, s)

def moveTo (position : Nat) (s : Scanner) : Bool × Scanner :=
  if s.source.size < position then (false, s) else (true, { s with position })

def view (start : Nat) (s : Scanner) : List Char :=
  (s.source.extract (min start s.position) s.position).toList

def acceptIf (wanted : Char → Bool) (s : Scanner) : Option Char × Scanner :=
  match s.peek with
  | some c => if wanted c then s.next else (none, s)
  | none => (none, s)

theorem next_left (passed : s.next = (some c, later)) : later.left < s.left := by
  unfold next at passed
  split at passed
  · rename_i here
    have within := (Array.getElem?_eq_some_iff.mp here).1
    cases passed
    unfold left
    dsimp only
    omega
  · cases passed

theorem acceptIf_left (accepted : s.acceptIf wanted = (some c, later)) : later.left < s.left := by
  unfold acceptIf at accepted
  split at accepted
  · split at accepted
    · exact next_left accepted
    · cases accepted
  · cases accepted

theorem acceptIf_none (refused : s.acceptIf wanted = (none, later)) : later = s := by
  unfold acceptIf at refused
  split at refused
  · rename_i here
    split at refused
    · simp [next, here] at refused
    · cases refused
      rfl
  · cases refused
    rfl

def skipWhile (wanted : Char → Bool) (s : Scanner) : Bool × Scanner :=
  match _accepted : s.acceptIf wanted with
  | (some _, later) => (true, (later.skipWhile wanted).2)
  | (none, s) => (false, s)
termination_by s.left
decreasing_by exact acceptIf_left _accepted

theorem skipWhile_left_le (wanted : Char → Bool) (s : Scanner) :
    (s.skipWhile wanted).2.left ≤ s.left := by
  fun_induction skipWhile wanted s with
  | case1 s c later accepted ih => exact Nat.le_trans ih (Nat.le_of_lt (acceptIf_left accepted))
  | case2 s later refused => exact acceptIf_none refused ▸ Nat.le_refl _

theorem skipWhile_left (skipped : s.skipWhile wanted = (true, later)) : later.left < s.left := by
  rw [skipWhile] at skipped
  split at skipped
  · rename_i accepted
    cases skipped
    exact Nat.lt_of_le_of_lt (skipWhile_left_le wanted _) (acceptIf_left accepted)
  · cases skipped

theorem skipWhile_none (skipped : s.skipWhile wanted = (false, later)) : later = s := by
  rw [skipWhile] at skipped
  split at skipped
  · cases skipped
  · rename_i refused
    cases skipped
    exact acceptIf_none refused

def takeRest (s : Scanner) : List Char × Scanner :=
  let last := (s.skipWhile fun _ => true).2
  (last.view s.position, last)

-- Skips digits, and one point before, between or behind them unless there was one already.
def skipDecimal (pointSeen : Bool) (s : Scanner) : Scanner :=
  match _skipped : s.skipWhile Char.isDigit with
  | (true, later) => later.skipDecimal pointSeen
  | (false, s) =>
    if pointSeen then s
    else
      match _accepted : s.acceptIf (· == '.') with
      | (some _, later) => later.skipDecimal true
      | (none, s) => s
termination_by s.left
decreasing_by
  · exact skipWhile_left _skipped
  · exact skipWhile_none _skipped ▸ acceptIf_left _accepted

def scanDecimal (s : Scanner) : Option (List Char) × Scanner :=
  let last := s.skipDecimal false
  if last.position = s.position then (none, last) else (some (last.view s.position), last)

-- A run that spells no number is not passed.
def readOperand (s : Scanner) : Option Number × Scanner :=
  match s.scanDecimal with
  | (none, s) => (none, s)
  | (some run, later) =>
    match Decimal.ofRun? run with
    | some n => (some n, later)
    | none => (none, (later.moveTo s.position).2)

-- Passes a character only if it is an operator. Blanks are not even looked up.
def readOperator (directory : Directory σ) (s : Scanner) (state : σ) :
    Option Operator × Scanner × σ :=
  match s.peek with
  | none => (none, s, state)
  | some c =>
    if isBlank c then (none, s, state)
    else
      match directory.operator? c state with
      | (some op, state) => (some op, s.next.2, state)
      | (none, state) => (none, s, state)

end Scanner
end ShuntingYard
