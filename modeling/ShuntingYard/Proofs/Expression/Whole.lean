import ShuntingYard.Proofs.Arithmetic.Exact
import ShuntingYard.Proofs.Engine.BuiltIn
import ShuntingYard.Proofs.Program.Reduction

namespace ShuntingYard
open Arithmetic Binary

inductive Operation where
  | add
  | subtract
  | multiply

namespace Operation

def operator : Operation → Operator
  | add => ⟨'+', .left, 1, 2⟩
  | subtract => ⟨'-', .left, 1, 2⟩
  | multiply => ⟨'*', .left, 2, 2⟩

def on : Operation → Int → Int → Int
  | add => (· + ·)
  | subtract => (· - ·)
  | multiply => (· * ·)

theorem known (how : Operation) : operator? how.operator.symbol = some how.operator := by
  cases how <;> rfl

theorem left_assoc (how : Operation) : how.operator.assoc = .left := by
  cases how <;> rfl

theorem two (how : Operation) : how.operator.arity = 2 := by
  cases how <;> rfl

end Operation

inductive Whole where
  | literal (value : Nat) (fits : Fits value)
  | binary (how : Operation) (left right : Whole)
  | factorial (operand : Whole)

namespace Whole

def exact : Whole → Int
  | literal value _ => value
  | binary how left right => how.on left.exact right.exact
  | factorial operand => operand.exact.toNat.factorial

-- In postorder.
def subtrees : Whole → List Whole
  | literal value fits => [literal value fits]
  | binary how left right => left.subtrees ++ right.subtrees ++ [binary how left right]
  | factorial operand => operand.subtrees ++ [factorial operand]

-- The first subtree, in this order, whose value no word holds.
def misfit? (t : Whole) : Option Whole := t.subtrees.find? fun u => ¬ Fits u.exact

def symbol? : Whole → Option Char
  | literal _ _ => none
  | binary how _ _ => some how.operator.symbol
  | factorial _ => some bang.symbol

def expression : Whole → Expression
  | literal value _ => .literal (.integer (.ofInt value))
  | binary how left right => .binary how.operator left.expression right.expression
  | factorial operand => .unary bang operand.expression

-- The texts of an expression. The operator is the one left bare at the top, if there is one.
inductive Written : Whole → Option Operator → List Char → Prop where
  | literal (digits : ∀ c ∈ text, c.isDigit) (present : text ≠ [])
      (value : Nat.ofDigitChars 10 text 0 = v) : Written (.literal v fits) none text
  | binary (left : Written l first before) (right : Written r second behind)
      (leftBare : ∀ c ∈ first, how.operator.precedence ≤ c.precedence)
      (rightBare : ∀ c ∈ second, how.operator.precedence < c.precedence) :
      Written (.binary how l r) (some how.operator) (before ++ how.operator.symbol :: behind)
  | factorial (operand : Written t first text) (bare : ∀ c ∈ first, c.arity = 1) :
      Written (.factorial t) (some bang) (text ++ ['!'])
  | enclosed (inner : Written t first text) : Written t none ('(' :: text ++ [')'])
  | blankBefore (blank : isBlank c) (inner : Written t first text) : Written t first (c :: text)
  | blankAfter (blank : isBlank c) (inner : Written t first text) : Written t first (text ++ [c])

theorem Written.renders (written : Written t top text) :
    Renders operator? t.expression top text ∧ ∀ c ∈ top, c ∈ operators := by
  induction written with
  | @literal text v fits digits present value =>
    have spelled : Decimal.read? text = some (.integer (.ofInt v), []) := by
      rw [Decimal.read?_digits digits present, value, word?_fits fits, Option.map_some]
    exact ⟨.literal spelled, by simp⟩
  | @binary l first before r second behind how _ _ leftBare rightBare left right =>
    refine ⟨.binary how.known how.two left.1 right.1 ?_ ?_, ?_⟩
    · intro c isTop
      have lower := leftBare c isTop
      simpa [Operator.yieldsTo, how.left_assoc] using lower
    · intro c isTop yields
      have lower := rightBare c isTop
      cases assoc : c.assoc <;> simp only [Operator.yieldsTo, assoc, decide_eq_true_eq] at yields <;>
        omega
    · intro c isTop
      cases Option.some.inj isTop
      exact operator_listed how.known
  | @factorial t first text _ bare operand =>
    refine ⟨.unary rfl rfl operand.1 ?_, ?_⟩
    · intro c isTop
      exact .inr (eq_bang (operand.2 c isTop) (bare c isTop))
    · intro c isTop
      cases Option.some.inj isTop
      decide
  | enclosed _ inner => exact ⟨.enclosed inner.1, by simp⟩
  | blankBefore blank _ inner => exact ⟨.blankBefore blank inner.1, inner.2⟩
  | blankAfter blank _ inner => exact ⟨.blankAfter blank inner.1, inner.2⟩

variable {t u l r : Whole}

theorem own_subtree (t : Whole) : t ∈ t.subtrees := by
  cases t <;> simp [subtrees]

theorem misfit?_none : t.misfit? = none ↔ ∀ u ∈ t.subtrees, Fits u.exact := by
  simp [misfit?]

theorem misfit?_literal : (literal value fits).misfit? = none := by
  rw [misfit?_none, subtrees, List.forall_mem_singleton]
  exact fits

theorem misfit?_binary (how : Operation) (l r : Whole) : (binary how l r).misfit? =
    l.misfit?.or (r.misfit?.or
      (if Fits (binary how l r).exact then none else some (binary how l r))) := by
  simp [misfit?, subtrees, List.find?_append, List.find?_singleton]

theorem misfit?_factorial (t : Whole) : (factorial t).misfit? =
    t.misfit?.or (if Fits (factorial t).exact then none else some (factorial t)) := by
  simp [misfit?, subtrees, List.find?_append, List.find?_singleton]

theorem misfit?_symbol (first : t.misfit? = some u) : ∃ c, u.symbol? = some c := by
  have misfit : ¬ Fits u.exact := by simpa using List.find?_some first
  cases u with
  | literal value fits => exact absurd fits misfit
  | binary how l r => exact ⟨_, rfl⟩
  | factorial t => exact ⟨_, rfl⟩

end Whole

theorem operate_binary (how : Operation) (m n : Int64) :
    Provider.arithmetic.operate how.operator [.operand (.integer m), .operand (.integer n)] =
      exactly how.operator.symbol (how.on m.toInt n.toInt) := by
  cases how <;> rfl

theorem operate_factorial (n : Int64) :
    Provider.arithmetic.operate bang [.operand (.integer n)] =
      exactly bang.symbol n.toInt.toNat.factorial :=
  wordFactorial_eq n

namespace Whole
open Directory
variable {directory : Directory σ} {start s : σ}

theorem reduces (calculates : directory.Calculates start) (t : Whole)
    (path : Reaches directory start s) (fits : ∀ u ∈ t.subtrees, Fits u.exact) :
    ReducesTo directory start s t.expression.postorder (.integer (.ofInt t.exact)) := by
  induction t generalizing s with
  | literal value fits => exact .operand path
  | binary how l r left right =>
    simp only [subtrees, List.forall_mem_append, List.forall_mem_singleton] at fits
    obtain ⟨⟨leftFits, rightFits⟩, fits⟩ := fits
    refine .binary (left path leftFits) (fun t path => right path rightFits)
      (calculates how.known) how.two ?_
    rw [operate_binary, toInt_ofInt (leftFits l l.own_subtree),
      toInt_ofInt (rightFits r r.own_subtree)]
    exact exactly_fits _ fits
  | factorial t operand =>
    simp only [subtrees, List.forall_mem_append, List.forall_mem_singleton] at fits
    obtain ⟨operandFits, fits⟩ := fits
    refine .unary (operand path operandFits) (calculates rfl) rfl ?_
    rw [operate_factorial, toInt_ofInt (operandFits t t.own_subtree)]
    exact exactly_fits _ fits

theorem overflows (calculates : directory.Calculates start) (t : Whole)
    (path : Reaches directory start s) (first : t.misfit? = some u) (symbol : u.symbol? = some c) :
    FailsWith directory s t.expression.postorder (.failed c (.overflow c)) := by
  induction t generalizing s with
  | literal value fits =>
    rw [misfit?_literal] at first
    cases first
  | binary how l r left right =>
    rw [misfit?_binary] at first
    cases inLeft : l.misfit? with
    | some v =>
      rw [inLeft, Option.some_or] at first
      exact ((left path (inLeft.trans first)).onFront _).onFront _
    | none =>
      have leftFits := misfit?_none.mp inLeft
      have leftReduced := reduces calculates l path leftFits
      rw [inLeft, Option.none_or] at first
      cases inRight : r.misfit? with
      | some v =>
        rw [inRight, Option.some_or] at first
        exact (FailsWith.onBack leftReduced fun t path => right path (inRight.trans first)).onFront _
      | none =>
        have rightFits := misfit?_none.mp inRight
        rw [inRight, Option.none_or] at first
        split at first
        · cases first
        · rename_i misfit
          cases first
          cases symbol
          refine .binary leftReduced (fun t path => reduces calculates r path rightFits)
            (calculates how.known) how.two ?_
          rw [operate_binary, toInt_ofInt (leftFits l l.own_subtree),
            toInt_ofInt (rightFits r r.own_subtree)]
          exact exactly_misfit _ misfit
  | factorial t operand =>
    rw [misfit?_factorial] at first
    cases inside : t.misfit? with
    | some v =>
      rw [inside, Option.some_or] at first
      exact (operand path (inside.trans first)).onFront _
    | none =>
      have fits := misfit?_none.mp inside
      rw [inside, Option.none_or] at first
      split at first
      · cases first
      · rename_i misfit
        cases first
        cases symbol
        refine .unary (reduces calculates t path fits) (calculates rfl) rfl ?_
        rw [operate_factorial, toInt_ofInt (fits t t.own_subtree)]
        exact exactly_misfit _ misfit

end Whole
theorem Engine.calculate_exact {e : Engine} {t : Whole} (builtIn : e.BuiltIn)
    (written : t.Written top text) :
    (t.misfit? = none →
      ∃ n : Int64, n.toInt = t.exact ∧ (e.calculate (.ofList text)).1 = .ok (.integer n)) ∧
    ∀ u, t.misfit? = some u →
      ∃ c, u.symbol? = some c ∧ (e.calculate (.ofList text)).1 =
        .error (.evaluation (.failed c (.overflow c)) ⟨.ofList text, t.expression.postorder⟩) := by
  have parsed := builtIn.parse_renders written.renders.1
  have calculates := builtIn.calculates (.ofList text)
  rw [calculate_parsed parsed]
  constructor
  · intro none
    have fits := Whole.misfit?_none.mp none
    exact ⟨_, toInt_ofInt (fits t t.own_subtree), (Whole.reduces calculates t .refl fits).evaluate⟩
  · intro u first
    obtain ⟨c, symbol⟩ := Whole.misfit?_symbol first
    exact ⟨c, symbol, (Whole.overflows calculates t .refl first symbol).evaluate⟩

theorem Engine.calculate_exact_factorials :
    (arithmetic.calculate "(3-5)!*4!").1 = .ok (.integer 24) ∧
      (arithmetic.calculate "21!-9223372036854775807*2").1 =
        .error (.evaluation (.failed '!' (.overflow '!')) ⟨"21!-9223372036854775807*2",
          [.operand (.integer 21), .operator bang, .operand (.integer 9223372036854775807),
            .operand (.integer 2), .operator ⟨'*', .left, 2, 2⟩,
            .operator ⟨'-', .left, 1, 2⟩]⟩) := by
  have number (value : Nat) (fits : Fits value) :
      (Whole.literal value fits).Written none (Nat.toDigits 10 value) :=
    .literal (fun _ => Nat.isDigit_of_mem_toDigits (by omega) (by omega)) Nat.toDigits_ne_nil
      Nat.ofDigitChars_ten_toDigits
  constructor
  · have inside : Whole.Written (.binary .subtract _ _) _ (_ ++ '-' :: _) :=
      .binary (number 3 (by decide)) (number 5 (by decide)) (by simp) (by simp)
    have left := inside.enclosed.factorial (by simp)
    have right := (number 4 (by decide)).factorial (by simp)
    have whole : Whole.Written (.binary .multiply _ _) _ (_ ++ '*' :: _) :=
      .binary left right (by decide) (by decide)
    obtain ⟨n, same, result⟩ := (calculate_exact builtIn_arithmetic whole).1 (by decide)
    rw [show n = 24 from Int64.toInt_inj.mp same] at result
    exact result
  · have left := (number 21 (by decide)).factorial (by simp)
    have right : Whole.Written (.binary .multiply _ _) _ (_ ++ '*' :: _) :=
      .binary (number 9223372036854775807 (by decide)) (number 2 (by decide)) (by simp) (by simp)
    have whole : Whole.Written (.binary .subtract _ _) _ (_ ++ '-' :: _) :=
      .binary left right (by decide) (by decide)
    obtain ⟨c, symbol, result⟩ := (calculate_exact builtIn_arithmetic whole).2 _ rfl
    cases symbol
    exact result

end ShuntingYard
