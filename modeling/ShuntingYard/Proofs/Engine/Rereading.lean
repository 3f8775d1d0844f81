import Mathlib
import ShuntingYard.Proofs.Engine.Faults
import ShuntingYard.Proofs.Scanner.Reading

namespace ShuntingYard

def Token.Plain : Token → Prop
  | .operand (.integer k) => 0 ≤ k.toInt
  | .operand (.float _) => False
  | .operator op => Arithmetic.operator? op.symbol = some op
  | .paren _ => False

theorem Number.chars_natural {k : Int64} (natural : 0 ≤ k.toInt) :
    ∃ n : Nat, k.toInt = n ∧ (integer k).chars = Nat.toDigits 10 n := by
  obtain ⟨n, value⟩ := Int.eq_ofNat_of_zero_le natural
  refine ⟨n, value, ?_⟩
  rw [chars, value]
  rfl

theorem Decimal.digits_toDigits (n : Nat) : ∀ c ∈ Nat.toDigits 10 n, c.isDigit :=
  fun _ => Nat.isDigit_of_mem_toDigits (by decide) (by decide)

theorem Token.Plain.unspaced {token : Token} (plain : token.Plain) : ' ' ∉ token.chars := by
  cases token with
  | operand n =>
    cases n with
    | integer k =>
      obtain ⟨n, -, written⟩ := Number.chars_natural plain
      rw [chars, written]
      exact fun listed => absurd (Decimal.digits_toDigits n _ listed) (by decide)
    | float x => cases plain
  | operator op =>
    have symbol := Arithmetic.isSymbol plain
    intro listed
    rw [← List.mem_singleton.mp listed] at symbol
    exact absurd symbol.noBlank (by decide)
  | paren side => cases plain

theorem Program.splitOn_text (program : Program) (present : program.tokens ≠ [])
    (plain : ∀ token ∈ program.tokens, token.Plain) :
    program.text.toList.splitOn ' ' = program.tokens.map Token.chars := by
  rw [text, String.toList_ofList, chars]
  refine List.splitOn_intercalate _ ?_ (by simpa using present)
  intro piece listed
  obtain ⟨token, member, rfl⟩ := List.mem_map.mp listed
  exact (plain token member).unspaced

namespace Scanner
variable {directory : Directory σ} {s : σ} {piece : List Char} {a b : Token}

-- Read on its own, from its first character to its last, the piece is this token. An operator is
-- looked for only where no number is found.
inductive Rereads (directory : Directory σ) (s : σ) (piece : List Char) : Token → Prop where
  | operand (read : (ofString (.ofList piece)).readOperand =
        (some n, ⟨piece.toArray, piece.length⟩)) :
      Rereads directory s piece (.operand n)
  | operator (unread : (ofString (.ofList piece)).readOperand = (none, ⟨piece.toArray, 0⟩))
      (read : ∀ t, directory.Reaches s t → ∃ u,
        (ofString (.ofList piece)).readOperator directory t =
          (some op, ⟨piece.toArray, piece.length⟩, u)) :
      Rereads directory s piece (.operator op)

theorem Rereads.unique (one : Rereads directory s piece a) (two : Rereads directory s piece b) :
    a = b := by
  cases one with
  | operand read =>
    cases two with
    | operand again =>
      cases read.symm.trans again
      rfl
    | operator unread => cases read.symm.trans unread
  | operator unread read =>
    cases two with
    | operand again => cases unread.symm.trans again
    | operator _ again =>
      obtain ⟨t, first⟩ := read s .refl
      obtain ⟨u, second⟩ := again s .refl
      cases first.symm.trans second
      rfl

theorem ofString_ofList (piece : List Char) :
    ofString (.ofList piece) = ⟨piece.toArray, 0⟩ := by
  rw [ofString, String.toList_ofList]

theorem rest_piece (piece : List Char) : Scanner.rest ⟨piece.toArray, 0⟩ = piece := rfl

theorem rereads_whole {k : Int64} (natural : 0 ≤ k.toInt) :
    Rereads directory s (Number.integer k).chars (.operand (.integer k)) := by
  obtain ⟨n, value, written⟩ := Number.chars_natural natural
  have digits := Decimal.digits_toDigits n
  have spelled : Decimal.ofRun? (Nat.toDigits 10 n) = some (.integer k) := by
    rw [Decimal.ofRun?_digits digits Nat.toDigits_ne_nil, Nat.ofDigitChars_ten_toDigits, ← value,
      Binary.word?_toInt]
    rfl
  refine .operand ?_
  rw [written, ofString_ofList, readOperand_eq, rest_piece, Decimal.run_whole digits,
    spelled]
  simp [onward]

theorem rereads_symbol (symbol : IsSymbol op.symbol)
    (given : directory.Gives s op.symbol (some op)) :
    Rereads directory s [op.symbol] (.operator op) := by
  refine .operator ?_ fun t path => ?_
  · rw [ofString_ofList, readOperand_eq, rest_piece, Decimal.run_parted symbol.parted]
    rfl
  · obtain ⟨u, found⟩ : ∃ u, directory.operator? op.symbol t = (some op, u) :=
      ⟨_, Prod.ext (given t path) rfl⟩
    refine ⟨u, ?_⟩
    have here : peek ⟨[op.symbol].toArray, 0⟩ = some op.symbol := rfl
    rw [ofString_ofList]
    simp only [readOperator, here, symbol.noBlank, found]
    rfl

end Scanner

namespace Engine
open Scanner
variable {e : Engine} {token : Token} {source : String} {program : Program}

theorem BuiltIn.rereads (builtIn : e.BuiltIn) (plain : token.Plain) :
    Rereads (e.registry.directory .parser) e.state token.chars token := by
  cases token with
  | operand n =>
    cases n with
    | integer k => exact rereads_whole plain
    | float x => cases plain
  | operator op =>
    obtain ⟨symbol, given⟩ := builtIn.serves.symbols op.symbol op plain
    exact rereads_symbol symbol given
  | paren side => cases plain

theorem BuiltIn.parse_plain (builtIn : e.BuiltIn) (noPoint : '.' ∉ source.toList)
    (accepted : (e.parse source).1 = .ok program) (listed : token ∈ program.tokens) :
    token.Plain := by
  have parsed : ((e.registry.directory .parser).parse source e.state).1 = .ok program := accepted
  cases token with
  | operand n =>
    obtain ⟨text, rest, within, read⟩ := Directory.parse_read parsed listed
    have whole := Decimal.read?_pointless (fun point => noPoint (within.subset point)) read
    obtain ⟨m, spelled, same⟩ := Option.map_eq_some_iff.mp read
    cases same
    have worth := (Decimal.run_longest text).isRun.worth
    rw [spelled] at worth
    generalize Decimal.run text = run at worth
    cases worth with
    | @word _ k _ _ value =>
      have natural : 0 ≤ k.toInt := value ▸ Int.natCast_nonneg _
      exact natural
    | float => cases whole
  | operator op => exact (builtIn.listed accepted listed).1
  | paren side => cases Directory.parse_plain parsed _ listed

theorem text_reread (builtIn : e.BuiltIn) :
    let directory := e.registry.directory .parser
    (∀ program : Program, program.tokens ≠ [] → (∀ token ∈ program.tokens, token.Plain) →
      List.Forall₂ (Rereads directory e.state) (program.text.toList.splitOn ' ') program.tokens) ∧
    (∀ source program, '.' ∉ source.toList → (e.parse source).1 = .ok program →
      ∀ token ∈ program.tokens, token.Plain) ∧
    ∀ p q : Program, p.tokens ≠ [] → q.tokens ≠ [] →
      (∀ token ∈ p.tokens, token.Plain) → (∀ token ∈ q.tokens, token.Plain) →
      p.text = q.text → p.tokens = q.tokens := by
  intro directory
  have back : ∀ program : Program, program.tokens ≠ [] → (∀ token ∈ program.tokens, token.Plain) →
      List.Forall₂ (Rereads directory e.state) (program.text.toList.splitOn ' ')
        program.tokens := by
    intro program present plain
    rw [program.splitOn_text present plain, List.forall₂_map_left_iff, List.forall₂_same]
    exact fun token listed => builtIn.rereads (plain token listed)
  refine ⟨back, fun source program noPoint accepted token listed =>
    builtIn.parse_plain noPoint accepted listed, ?_⟩
  intro p q some more plain alsoPlain same
  have first := back p some plain
  rw [same] at first
  have unique : Relator.RightUnique (Rereads directory e.state) := fun _ _ _ => Rereads.unique
  exact unique.forall₂ first (back q more alsoPlain)

theorem text_reread_zeros :
    let directory := arithmetic.registry.directory .parser
    let program : Program := ⟨"007 + 7!", [.operand (.integer 7), .operand (.integer 7),
      .operator ⟨'!', .right, 3, 1⟩, .operator ⟨'+', .left, 1, 2⟩]⟩
    (arithmetic.parse "007 + 7!").1 = .ok program ∧ program.text = "7 7 ! +" ∧
      List.Forall₂ (Rereads directory arithmetic.state) [['7'], ['7'], ['!'], ['+']]
        program.tokens := by
  intro directory program
  have accepted : (arithmetic.parse "007 + 7!").1 = .ok program := by cbv
  have printed : program.text = "7 7 ! +" := by decide
  obtain ⟨back, plain, -⟩ := text_reread builtIn_arithmetic
  have read := back program (by simp [program]) (plain _ program (by decide) accepted)
  have pieces : program.text.toList.splitOn ' ' = [['7'], ['7'], ['!'], ['+']] := by
    rw [printed]
    decide
  exact ⟨accepted, printed, pieces ▸ read⟩

end Engine
end ShuntingYard
