import Mathlib.Algebra.GroupWithZero.Nat
import ShuntingYard.Proofs.Program.Progress
import ShuntingYard.Proofs.Program.Reduction

-- The stack of the machine token by token, where what is found for a symbol is fixed.
namespace ShuntingYard

-- What a token makes of the stack. The arguments of an operator lie on top, the last one uppermost.
inductive Token.Moves (find : Char → Option Provider) : Token → List Token → List Token → Prop where
  | operand : Moves find (.operand n) stack (.operand n :: stack)
  | paren : Moves find (.paren side) stack (.paren side :: stack)
  | operator (owned : find op.symbol = some p) (fits : args.length = op.arity)
      (applied : p.operate op args = .ok n) :
      Moves find (.operator op) (args.reverse ++ below) (.operand n :: below)

inductive Stacks (find : Char → Option Provider) : List Token → List Token → Prop where
  | nil : Stacks find [] []
  | step (before : Stacks find front stack) (moves : token.Moves find stack next) :
      Stacks find (front ++ [token]) next

def Token.takes : Token → Nat
  | .operator op => op.arity
  | .operand _ => 0
  | .paren _ => 0

def Token.symbol? : Token → Option Char
  | .operator op => some op.symbol
  | .operand _ => none
  | .paren _ => none

-- How high the tokens stack up, by their number and their arities alone. Below zero there is no
-- stack to speak of: the machine has stopped before.
def height (tokens : List Token) : Int := tokens.length - (tokens.map Token.takes).sum

-- The place of an operator at which the machine stops, with the words for it and the cause. Whether
-- it has a provider counts before its arguments, and their number before what becomes of them.
inductive Breaks (find : Char → Option Provider) (tokens : List Token) (k : Nat) :
    EvalFault → String → Option OperateError → Prop where
  | unowned (here : tokens[k]? = some (.operator op)) (missing : find op.symbol = none) :
      Breaks find tokens k (.noProvider op.symbol)
        s!"no provider found for operator '{op.symbol}'" none
  | low (here : tokens[k]? = some (.operator op)) (owned : find op.symbol = some p)
      (short : height (tokens.take k) < op.arity) :
      Breaks find tokens k (.tooFewOperands op.symbol) s!"not enough operands for '{op.symbol}'" none
  | refused (here : tokens[k]? = some (.operator op)) (owned : find op.symbol = some p)
      (high : op.arity ≤ height (tokens.take k))
      (reached : Stacks find (tokens.take k) (args.reverse ++ below)) (fits : args.length = op.arity)
      (failed : p.operate op args = .error cause) :
      Breaks find tokens k (.failed op.symbol cause) s!"error applying operator '{op.symbol}'"
        (some cause)

variable {find : Char → Option Provider} {token : Token} {tokens front stack next : List Token}
  {op : Operator} {k : Nat}

theorem height_snoc (front : List Token) (token : Token) :
    height (front ++ [token]) = height front + 1 - token.takes := by
  simp only [height, List.length_append, List.length_singleton, List.map_append, List.map_singleton,
    List.sum_append, List.sum_singleton]
  omega

theorem Token.Moves.length (moves : token.Moves find stack next) :
    next.length + token.takes = stack.length + 1 := by
  cases moves with
  | operand => rfl
  | paren => rfl
  | operator owned fits applied =>
    simp only [List.length_cons, List.length_append, List.length_reverse, fits, takes]
    omega

theorem Token.Moves.enough (moves : token.Moves find stack next) : token.takes ≤ stack.length := by
  cases moves with
  | operand => exact Nat.zero_le _
  | paren => exact Nat.zero_le _
  | operator owned fits applied =>
    simp only [List.length_append, List.length_reverse, fits, takes]
    omega

theorem Stacks.before (reached : Stacks find (front ++ [token]) next) :
    ∃ stack, Stacks find front stack ∧ token.Moves find stack next := by
  generalize whole : front ++ [token] = tokens at reached
  cases reached with
  | nil => simp at whole
  | step before moves =>
    obtain ⟨rfl, same⟩ := List.append_inj' whole rfl
    cases same
    exact ⟨_, before, moves⟩

theorem Stacks.height (reached : Stacks find front stack) :
    ShuntingYard.height front = stack.length := by
  induction reached with
  | nil => rfl
  | step _ moves ih =>
    have moved := moves.length
    rw [height_snoc, ih]
    omega

theorem Operator.replaceArguments_moves
    (replaced : op.replaceArguments stack (find op.symbol) = .ok next) :
    Token.Moves find (.operator op) stack next := by
  unfold replaceArguments at replaced
  split at replaced
  · cases replaced
  · rename_i p owned
    split at replaced
    · cases replaced
    · rename_i args below taken
      obtain ⟨top, rfl, fits, same⟩ := takeArguments_spec taken
      rw [List.append_nil] at same
      split at replaced
      · rename_i n applied
        cases replaced
        have moves : Token.Moves find (.operator op) (args.reverse ++ below) (.operand n :: below) :=
          .operator owned (by rw [same, List.length_reverse, fits]) applied
        rwa [same, List.reverse_reverse] at moves
      · cases replaced

namespace Directory
variable {directory : Directory σ} {start s : σ} {rest last : List Token}

def lookAll (directory : Directory σ) (symbols : List Char) (s : σ) : σ :=
  symbols.foldl (fun s c => (directory.find c s).2) s

theorem lookAll_append (directory : Directory σ) (front rest : List Char) (s : σ) :
    directory.lookAll (front ++ rest) s = directory.lookAll rest (directory.lookAll front s) :=
  List.foldl_append

theorem lookAll_reaches (directory : Directory σ) (symbols : List Char) (s : σ) :
    Reaches directory s (directory.lookAll symbols s) := by
  induction symbols generalizing s with
  | nil => exact .refl
  | cons c rest ih => exact (Reaches.find c .refl).trans (ih _)

theorem reduce_moves (fixed : ∀ c, directory.Finds start c (find c))
    (path : Reaches directory start s) (moves : token.Moves find stack next) (rest : List Token) :
    directory.reduce (token :: rest) stack s =
      directory.reduce rest next (directory.lookAll token.symbol?.toList s) := by
  cases moves with
  | operand => rfl
  | paren => rfl
  | @operator p op args n below owned fits applied =>
    simp only [reduce, fixed op.symbol s path, owned, Operator.replaceArguments,
      takeArguments_lying fits, applied]
    rfl

theorem reduce_along (fixed : ∀ c, directory.Finds start c (find c))
    (reached : Stacks find front stack) (rest : List Token) :
    directory.reduce (front ++ rest) [] start =
      directory.reduce rest stack (directory.lookAll (front.filterMap Token.symbol?) start) := by
  induction reached generalizing rest with
  | nil => rfl
  | @step front stack token next _ moves ih =>
    have path := lookAll_reaches directory (front.filterMap Token.symbol?) start
    have symbols : (front ++ [token]).filterMap Token.symbol? =
        front.filterMap Token.symbol? ++ token.symbol?.toList := by
      cases symbol : token.symbol? <;> simp [symbol]
    rw [List.append_assoc, List.singleton_append, ih, reduce_moves fixed path moves, symbols,
      lookAll_append]

theorem reduce_stacks (fixed : ∀ c, directory.Finds start c (find c))
    (reached : Stacks find front stack) :
    ∃ t, Reaches directory start t ∧
      ∀ rest, directory.reduce (front ++ rest) [] start = directory.reduce rest stack t :=
  ⟨_, lookAll_reaches directory _ start, reduce_along fixed reached⟩

theorem stacks_onward (fixed : ∀ c, directory.Finds start c (find c))
    (path : Reaches directory start s) (before : Stacks find front stack)
    (reduced : (directory.reduce rest stack s).1 = .ok last) : Stacks find (front ++ rest) last := by
  fun_induction directory.reduce rest stack s generalizing front with
  | case1 stack s =>
    cases reduced
    rwa [List.append_nil]
  | case2 op rest stack s found next =>
    rename_i replaced ih
    rw [show found.1 = _ from fixed op.symbol s path] at replaced
    have whole := ih (.find op.symbol path) (.step before (Operator.replaceArguments_moves replaced))
      reduced
    rwa [List.append_assoc] at whole
  | case3 => cases reduced
  | case4 n rest stack s ih =>
    have whole := ih path (.step before .operand) reduced
    rwa [List.append_assoc] at whole
  | case5 side rest stack s ih =>
    have whole := ih path (.step before .paren) reduced
    rwa [List.append_assoc] at whole

theorem stacks_reduced (fixed : ∀ c, directory.Finds s c (find c))
    (reduced : (directory.reduce tokens [] s).1 = .ok last) : Stacks find tokens last :=
  stacks_onward fixed .refl .nil reduced

end Directory

namespace Breaks
variable {fault : EvalFault} {words : String} {cause : Option OperateError}

theorem operator (breaks : Breaks find tokens k fault words cause) :
    ∃ op, tokens[k]? = some (.operator op) := by
  cases breaks with
  | unowned here => exact ⟨_, here⟩
  | low here => exact ⟨_, here⟩
  | refused here => exact ⟨_, here⟩

theorem within (breaks : Breaks find tokens k fault words cause) : k ≤ tokens.length := by
  obtain ⟨op, here⟩ := breaks.operator
  exact Nat.le_of_lt (List.getElem?_eq_some_iff.mp here).1

theorem told (breaks : Breaks find tokens k fault words cause) (program : Program) :
    fault.message program = words := by
  cases breaks <;> rfl

theorem cause_kept (breaks : Breaks find tokens k fault words cause) : fault.cause? = cause := by
  cases breaks <;> rfl

theorem stuck (breaks : Breaks find tokens k fault words cause)
    (reached : Stacks find (tokens.take k) stack) :
    ∃ op stack, tokens[k]? = some (.operator op) ∧ Stacks find (tokens.take k) stack ∧
      op.replaceArguments stack (find op.symbol) = .error fault := by
  cases breaks with
  | @unowned op here missing =>
    exact ⟨op, stack, here, reached, by simp only [missing, Operator.replaceArguments]⟩
  | @low op p here owned short =>
    have level := reached.height
    have lacking : takeArguments op.arity [] stack = none := takeArguments_short (by omega)
    exact ⟨op, stack, here, reached, by simp only [owned, Operator.replaceArguments, lacking]⟩
  | @refused op p args below error here owned high lying fits failed =>
    refine ⟨op, _, here, lying, ?_⟩
    simp only [owned, Operator.replaceArguments, takeArguments_lying fits, failed]

end Breaks

theorem Directory.reduce_stuck {directory : Directory σ} {s : σ} {fault : EvalFault}
    (fixed : ∀ c, directory.Finds s c (find c)) (breaks : Breaks find tokens k fault words cause)
    (reached : Stacks find (tokens.take k) stack) :
    directory.reduce tokens [] s =
      (.error fault, directory.lookAll ((tokens.take (k + 1)).filterMap Token.symbol?) s) := by
  obtain ⟨op, stack, here, reached, stuck⟩ := breaks.stuck reached
  have parts : tokens = tokens.take k ++ .operator op :: tokens.drop (k + 1) := by
    obtain ⟨within, same⟩ := List.getElem?_eq_some_iff.mp here
    rw [← same, List.getElem_cons_drop, List.take_append_drop]
  have path := lookAll_reaches directory ((tokens.take k).filterMap Token.symbol?) s
  have reduced := reduce_along fixed reached (.operator op :: tokens.drop (k + 1))
  rw [← parts] at reduced
  rw [reduced, List.take_add_one, here, List.filterMap_append, lookAll_append]
  simp only [reduce, fixed op.symbol _ path, stuck]
  rfl

theorem moves_or_breaks (here : tokens[k]? = some token)
    (reached : Stacks find (tokens.take k) stack) :
    (∃ next, token.Moves find stack next) ∨
      ∃ fault words cause, Breaks find tokens k fault words cause := by
  cases token with
  | operand n => exact .inl ⟨_, .operand⟩
  | paren side => exact .inl ⟨_, .paren⟩
  | operator op =>
    cases owned : find op.symbol with
    | none => exact .inr ⟨_, _, _, .unowned here owned⟩
    | some p =>
      by_cases short : height (tokens.take k) < op.arity
      · exact .inr ⟨_, _, _, .low here owned short⟩
      · have level := reached.height
        let args := (stack.take op.arity).reverse
        have parts : args.reverse ++ stack.drop op.arity = stack := by
          rw [List.reverse_reverse, List.take_append_drop]
        have fits : args.length = op.arity := by
          simp only [args, List.length_reverse, List.length_take]
          omega
        rw [← parts] at reached ⊢
        cases applied : p.operate op args with
        | ok n => exact .inl ⟨_, .operator owned fits applied⟩
        | error cause => exact .inr ⟨_, _, _, .refused here owned (by omega) reached fits applied⟩

theorem stacks_unbroken (within : k ≤ tokens.length)
    (unbroken : ∀ j < k, ∀ fault words cause, ¬ Breaks find tokens j fault words cause) :
    ∃ stack, Stacks find (tokens.take k) stack := by
  induction k with
  | zero => exact ⟨[], .nil⟩
  | succ k ih =>
    obtain ⟨stack, reached⟩ := ih (by omega) fun j before => unbroken j (by omega)
    have here : tokens[k]? = some tokens[k] := List.getElem?_eq_getElem (by omega)
    rcases moves_or_breaks here reached with ⟨next, moves⟩ | ⟨fault, words, cause, breaks⟩
    · rw [List.take_add_one, here]
      exact ⟨next, .step reached moves⟩
    · exact absurd breaks (unbroken k (by omega) fault words cause)

end ShuntingYard
