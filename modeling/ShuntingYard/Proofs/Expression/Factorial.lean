import ShuntingYard.Proofs.Engine.BuiltIn

namespace ShuntingYard
open Yard

def enclosedIf (asked : Bool) (text : List Char) : List Char :=
  if asked then '(' :: text ++ [')'] else text

namespace Expression

def isBinary : Expression → Bool
  | binary _ _ _ => true
  | _ => false

def isUnary : Expression → Bool
  | unary _ _ => true
  | _ => false

-- Beside a binary operator only a binary operation may need parentheses.
def leftEnclosed (op : Operator) : Expression → Bool
  | binary c _ _ => !op.yieldsTo c
  | _ => false

def rightEnclosed (op : Operator) : Expression → Bool
  | binary c _ _ => c.yieldsTo op
  | _ => false

-- No power has a factorial to the left of its sign.
def unraised : Expression → Bool
  | literal _ => true
  | unary _ operand => operand.unraised
  | binary op left right =>
    !(op.symbol == '^' && left.isUnary) && (left.unraised && right.unraised)

def top : Expression → Option Operator
  | literal _ => none
  | unary op _ => some op
  | binary op _ _ => some op

end Expression

-- The text of an expression over the built-in operators with the fewest parentheses: those that
-- the ranks of binary operators ask for and those of a binary operation before `!`.
inductive Writes : Expression → List Char → Prop where
  | literal (spelled : Decimal.read? text = some (n, [])) : Writes (.literal n) text
  | binary (known : Arithmetic.operator? symbol = some op) (two : op.arity = 2)
      (left : Writes l before) (right : Writes r behind) :
      Writes (.binary op l r)
        (enclosedIf (l.leftEnclosed op) before ++
          symbol :: enclosedIf (r.rightEnclosed op) behind)
  | unary (known : Arithmetic.operator? symbol = some op) (one : op.arity = 1)
      (operand : Writes t text) : Writes (.unary op t) (enclosedIf t.isBinary text ++ [symbol])

namespace Arithmetic
variable {op arriving : Operator}

theorem bang_stays (listed : op ∈ operators) : ¬ bang.yieldsTo op := by
  have each : ∀ op ∈ operators, ¬ bang.yieldsTo op := by decide
  exact each op listed

theorem yieldsTo_bang (listed : op ∈ operators) (two : op.arity = 2) :
    op.yieldsTo bang ↔ op.symbol ≠ '^' := by
  have each : ∀ op ∈ operators, op.arity = 2 → (op.yieldsTo bang ↔ op.symbol ≠ '^') := by decide
  exact each op listed two

theorem yieldsTo_bang_too (listed : op ∈ operators) (yields : arriving.yieldsTo op) :
    arriving.yieldsTo bang :=
  Operator.yieldsTo_above yields (bang_stays listed)

theorem power_stays (listed : op ∈ operators) (power : op.symbol = '^') {d : Operator}
    (stays : ¬ op.yieldsTo d) : ¬ bang.yieldsTo d := by
  have each : ∀ op ∈ operators, op.symbol = '^' → op = ⟨'^', .right, 3, 2⟩ := by decide
  cases each op listed power
  exact stays

end Arithmetic

open Arithmetic

-- The pieces of an expression's text as the yard reads them. They come out in postorder exactly if
-- no factorial is raised to a power.
structure Takes (t : Expression) (top : Option Operator) (pieces : List Piece)
    (settled : List Token) (waiting : List Operator) : Prop where
  reads : Reads pieces top settled waiting
  cohesive : Cohesive top waiting
  held : ∀ c ∈ top, c ∈ waiting
  bare : top = none → waiting = []
  length : (settled ++ waiting.map Token.operator).length = t.postorder.length
  right : settled ++ waiting.map Token.operator = t.postorder ↔ t.unraised

theorem Takes.literal (n : Number) :
    Takes (.literal n) none [.operand n] [.operand n] [] where
  reads := .operand n
  cohesive := ⟨by simp, by simp⟩
  held := by simp
  bare _ := rfl
  length := rfl
  right := by simp [Expression.postorder, Expression.unraised]

theorem Takes.enclosed (inner : Takes t top pieces settled waiting) :
    Takes t none (.paren .left :: pieces ++ [.paren .right]) (settled ++ waiting.map .operator)
      [] where
  reads := inner.reads.enclosed
  cohesive := ⟨by simp, by simp⟩
  held := by simp
  bare _ := rfl
  length := by simpa using inner.length
  right := by simpa using inner.right

theorem Takes.unary (operand : Takes t top pieces settled waiting) (only : ∀ c ∈ top, c = bang) :
    Takes (.unary bang t) (some bang) (pieces ++ [.operator bang]) settled (bang :: waiting) := by
  have same : ∀ d ∈ waiting, d = bang := by
    cases top with
    | none => simp [operand.bare rfl]
    | some c =>
      cases only c rfl
      exact operand.cohesive.alike bang rfl rfl
  have output : settled ++ (bang :: waiting).map .operator =
      (settled ++ waiting.map .operator) ++ [.operator bang] := by
    rw [← append_same same, List.map_append, List.append_assoc]
    rfl
  refine ⟨operand.reads.repeated (bang_stays (by decide)) only same, .repeated same, by simp,
    by simp, ?_, ?_⟩
  · rw [output, List.length_append, operand.length]
    simp [Expression.postorder]
  · rw [output]
    exact (List.append_left_inj _).trans operand.right

theorem Takes.binary (two : op.arity = 2) (left : Takes l first before settled waiting)
    (right : Takes r second behind later rest) (calm : ¬ (op.symbol = '^' ∧ l.isUnary))
    (yields : ∀ c ∈ first, op.yieldsTo c) (above : ∀ c ∈ second, ¬ c.yieldsTo op) :
    Takes (.binary op l r) (some op) (before ++ [.operator op] ++ behind)
      (settled ++ waiting.map .operator ++ later) (rest ++ [op]) := by
  have arrived := left.reads.overtake (left.cohesive.yields yields) yields
  have output : settled ++ waiting.map .operator ++ later ++ (rest ++ [op]).map .operator =
      (settled ++ waiting.map .operator) ++ (later ++ rest.map .operator) ++ [.operator op] := by
    simp
  have each : (Expression.binary op l r).unraised ↔ l.unraised ∧ r.unraised := by
    have calmly : (op.symbol == '^' && l.isUnary) = false := by simpa using calm
    simp [Expression.unraised, calmly]
  refine ⟨arrived.follow right.reads above, right.cohesive.follow two above (by simp), by simp,
    by simp, ?_, ?_⟩
  · rw [output, List.length_append, List.length_append, left.length, right.length]
    simp [Expression.postorder, Nat.add_assoc]
  · rw [output, Expression.postorder, List.append_left_inj, each, ← left.right, ← right.right]
    constructor
    · intro same
      exact List.append_inj same left.length
    · rintro ⟨sameLeft, sameRight⟩
      rw [sameLeft, sameRight]

theorem Takes.raised (listed : op ∈ operators) (power : op.symbol = '^') (two : op.arity = 2)
    (unary : l.isUnary) (left : Takes l (some bang) before settled waiting)
    (right : Takes r second behind later rest) (above : ∀ c ∈ second, ¬ c.yieldsTo op) :
    Takes (.binary op l r) (some op) (before ++ [.operator op] ++ behind)
      (settled ++ later) (rest ++ op :: waiting) := by
  have same : ∀ d ∈ waiting, d = bang := left.cohesive.alike bang rfl rfl
  have arrived : Reads (before ++ [.operator op]) (some op) (settled ++ [].map .operator)
      (op :: waiting) := by
    refine Reads.arrive left.reads (by simp) ?_ ?_
    · intro d first
      rw [same d (List.mem_of_mem_head? first), yieldsTo_bang listed two]
      exact not_not_intro power
    · intro c isTop d stays
      cases Option.some.inj isTop
      exact power_stays listed power stays
  rw [List.map_nil, List.append_nil] at arrived
  have under {arriving : Operator} (yieldsOp : arriving.yieldsTo op) :
      ∀ d ∈ waiting, arriving.yieldsTo d := by
    intro d waits
    rw [same d waits]
    exact yieldsTo_bang_too listed yieldsOp
  refine ⟨arrived.follow right.reads above, right.cohesive.follow two above under, by simp,
    by simp, ?_, ?_⟩
  · have lengths := left.length
    have others := right.length
    simp only [List.length_append, List.length_map] at lengths others
    simp only [Expression.postorder, List.length_append, List.length_map, List.length_cons,
      List.length_nil]
    omega
  · have raised : (Expression.binary op l r).unraised = false := by
      simp [Expression.unraised, power, unary]
    rw [raised, iff_false_right Bool.false_ne_true]
    intro wrong
    have last := congrArg List.getLast? wrong
    have bangLast : waiting.getLast? = some bang := by
      obtain ⟨d, found⟩ := Option.isSome_iff_exists.mp
        (List.getLast?_isSome.mpr (List.ne_nil_of_mem (left.held bang rfl)))
      rw [found, same d (List.mem_of_getLast? found)]
    simp [Expression.postorder, List.getLast?_append, List.getLast?_cons, bangLast] at last
    rw [← last] at two
    cases two

variable {directory : Directory σ} {s : σ}

def bareTop (asked : Bool) (t : Expression) : Option Operator :=
  if asked then none else t.top

def Taken (directory : Directory σ) (s : σ) (t : Expression) (top : Option Operator)
    (text : List Char) : Prop :=
  ∃ pieces settled waiting, Piece.Spells directory s text pieces ∧ Takes t top pieces settled waiting

theorem Taken.enclosedIf (serves : directory.Serves s Arithmetic.operator?)
    (inner : Taken directory s t t.top text) (asked : Bool) :
    Taken directory s t (bareTop asked t) (ShuntingYard.enclosedIf asked text) := by
  cases asked with
  | false => exact inner
  | true =>
    obtain ⟨pieces, settled, waiting, spelled, takes⟩ := inner
    exact ⟨_, _, _, spelled.enclosed serves, takes.enclosed⟩

theorem Writes.eq_bang (written : Writes (.unary op t) text) : op = bang := by
  cases written with
  | unary known one _ => exact Arithmetic.eq_bang (operator_listed known) one

theorem Writes.bare (written : Writes t text) : ∀ c ∈ bareTop t.isBinary t, c = bang := by
  intro c isTop
  cases t with
  | literal n => cases isTop
  | binary op l r => cases isTop
  | unary op t =>
    cases Option.some.inj isTop
    exact written.eq_bang

theorem Writes.leftBare (written : Writes l before) (listed : op ∈ operators) (two : op.arity = 2)
    (calm : ¬ (op.symbol = '^' ∧ l.isUnary)) : ∀ c ∈ bareTop (l.leftEnclosed op) l, op.yieldsTo c := by
  intro c isTop
  cases l with
  | literal n => cases isTop
  | binary d l r =>
    by_cases yields : op.yieldsTo d
    · simp [bareTop, Expression.leftEnclosed, Expression.top, yields] at isTop
      rwa [← isTop]
    · simp [bareTop, Expression.leftEnclosed, yields] at isTop
  | unary d t =>
    cases Option.some.inj isTop
    rw [written.eq_bang, yieldsTo_bang listed two]
    exact fun power => calm ⟨power, rfl⟩

theorem Writes.rightBare (written : Writes r behind) (listed : op ∈ operators) :
    ∀ c ∈ bareTop (r.rightEnclosed op) r, ¬ c.yieldsTo op := by
  intro c isTop
  cases r with
  | literal n => cases isTop
  | binary d l r =>
    by_cases yields : d.yieldsTo op
    · simp [bareTop, Expression.rightEnclosed, yields] at isTop
    · simp [bareTop, Expression.rightEnclosed, Expression.top, yields] at isTop
      rwa [← isTop]
  | unary d t =>
    cases Option.some.inj isTop
    rw [written.eq_bang]
    exact bang_stays listed

theorem Writes.read (serves : directory.Serves s Arithmetic.operator?) (written : Writes t text) :
    Taken directory s t t.top text := by
  induction written with
  | literal spelled => exact ⟨_, _, _, .operand spelled, .literal _⟩
  | @binary symbol op l before r behind known two leftWritten rightWritten left right =>
    have listed := operator_listed known
    obtain ⟨isSymbol, given⟩ := serves.symbols _ _ known
    obtain ⟨leftPieces, settled, waiting, leftSpelled, leftTakes⟩ :=
      left.enclosedIf serves (l.leftEnclosed op)
    obtain ⟨rightPieces, later, rest, rightSpelled, rightTakes⟩ :=
      right.enclosedIf serves (r.rightEnclosed op)
    have spelled := leftSpelled.join (fun _ => isSymbol.parted)
      (.cons (.operator isSymbol given) rightSpelled)
    have above := rightWritten.rightBare listed
    rw [List.append_cons leftPieces] at spelled
    by_cases raised : op.symbol = '^' ∧ l.isUnary
    · obtain ⟨power, unary⟩ := raised
      have top : bareTop (l.leftEnclosed op) l = some bang := by
        cases l with
        | literal n => cases unary
        | binary d l r => cases unary
        | unary d t => exact congrArg some leftWritten.eq_bang
      rw [top] at leftTakes
      exact ⟨_, _, _, spelled, leftTakes.raised listed power two unary rightTakes above⟩
    · have yields := leftWritten.leftBare listed two raised
      exact ⟨_, _, _, spelled, leftTakes.binary two rightTakes raised yields above⟩
  | @unary symbol op t text known one operandWritten operand =>
    obtain ⟨isSymbol, given⟩ := serves.symbols _ _ known
    obtain ⟨pieces, settled, waiting, spelled, takes⟩ := operand.enclosedIf serves t.isBinary
    have whole := spelled.join (fun _ => isSymbol.parted) (.cons (.operator isSymbol given) .nil)
    cases Arithmetic.eq_bang (operator_listed known) one
    exact ⟨_, _, _, whole, takes.unary operandWritten.bare⟩

-- A factorial raised to a power is misread as the factorial of a power, and nothing else is.
theorem Engine.parse_factorial {e : Engine} (builtIn : e.BuiltIn) (written : Writes t text) :
    ∃ tokens, (e.parse (.ofList text)).1 = .ok ⟨.ofList text, tokens⟩ ∧
      (tokens = t.postorder ↔ t.unraised) := by
  obtain ⟨pieces, settled, waiting, spelled, takes⟩ := written.read builtIn.serves
  exact ⟨_, Directory.parse_reads (e.registry.directory_unheard .parser) spelled takes.reads,
    takes.right⟩

theorem Engine.parse_factorial_power :
    (arithmetic.parse "2^3!").1 = .ok ⟨"2^3!",
      [.operand (.integer 2), .operand (.integer 3), .operator bang,
        .operator ⟨'^', .right, 3, 2⟩]⟩ ∧
    ∃ tokens, (arithmetic.parse "3!^2").1 = .ok ⟨"3!^2", tokens⟩ ∧
      tokens ≠ [.operand (.integer 3), .operator bang, .operand (.integer 2),
        .operator ⟨'^', .right, 3, 2⟩] := by
  have number (n : Int64) (text : List Char)
      (spelled : Decimal.read? text = some (.integer n, [])) :
      Writes (.literal (.integer n)) text := .literal spelled
  have two := number 2 ['2'] (by decide)
  have factorial : Writes (.unary bang _) (_ ++ ['!']) := .unary rfl rfl (number 3 ['3'] (by decide))
  have power : operator? '^' = some ⟨'^', .right, 3, 2⟩ := rfl
  constructor
  · obtain ⟨tokens, parsed, right⟩ := parse_factorial builtIn_arithmetic (.binary power rfl two factorial)
    rw [right.mpr (by decide)] at parsed
    exact parsed
  · obtain ⟨tokens, parsed, right⟩ := parse_factorial builtIn_arithmetic (.binary power rfl factorial two)
    exact ⟨tokens, parsed, fun same => absurd (right.mp same) (by decide)⟩

end ShuntingYard
