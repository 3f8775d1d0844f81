import ShuntingYard.Provider.Table
import ShuntingYard.Proofs.Registry.Resolution
import ShuntingYard.Proofs.Registry.View
import ShuntingYard.Proofs.Spelling
import ShuntingYard.Proofs.Yard.Reading

namespace ShuntingYard

-- An expression with the operators that hold it together: between two operands, or after one.
inductive Expression where
  | literal (value : Number)
  | binary (op : Operator) (left right : Expression)
  | unary (op : Operator) (operand : Expression)

def Expression.postorder : Expression → List Token
  | literal n => [.operand n]
  | binary op left right => left.postorder ++ right.postorder ++ [.operator op]
  | unary op operand => operand.postorder ++ [.operator op]

-- The infix texts of an expression, where `table` says what the symbols stand for. The operator
-- is the one left bare at the top: there is none if the text is a literal or stands in
-- parentheses. An operand may be bare where the ranks allow it, anything may be parenthesised, and
-- blanks may stand around everything.
inductive Renders (table : Char → Option Operator) :
    Expression → Option Operator → List Char → Prop where
  | literal (spelled : Decimal.read? text = some (n, [])) : Renders table (.literal n) none text
  | binary (known : table symbol = some op) (two : op.arity = 2)
      (left : Renders table l first before) (right : Renders table r second behind)
      (leftBare : ∀ c ∈ first, op.yieldsTo c) (rightBare : ∀ c ∈ second, ¬ c.yieldsTo op) :
      Renders table (.binary op l r) (some op) (before ++ symbol :: behind)
  | unary (known : table symbol = some op) (one : op.arity = 1)
      (operand : Renders table t first text) (bare : ∀ c ∈ first, op.yieldsTo c ∨ c = op) :
      Renders table (.unary op t) (some op) (text ++ [symbol])
  | enclosed (inner : Renders table t first text) : Renders table t none ('(' :: text ++ [')'])
  | blankBefore (blank : isBlank c) (inner : Renders table t first text) :
      Renders table t first (c :: text)
  | blankAfter (blank : isBlank c) (inner : Renders table t first text) :
      Renders table t first (text ++ [c])

structure Directory.Serves (directory : Directory σ) (s : σ) (table : Char → Option Operator) :
    Prop where
  symbols : ∀ c op, table c = some op → IsSymbol c ∧ directory.Gives s c (some op)
  opening : directory.Gives s '(' none
  closing : directory.Gives s ')' none

variable {directory : Directory σ} {s : σ} {table : Char → Option Operator}

theorem Piece.Spells.enclosed (serves : directory.Serves s table)
    (inner : Piece.Spells directory s text pieces) :
    Piece.Spells directory s ('(' :: text ++ [')']) (.paren .left :: pieces ++ [.paren .right]) :=
  .cons (.opening serves.opening) (inner.join closing_parted (.cons (.closing serves.closing) .nil))

theorem Renders.read (serves : directory.Serves s table) (rendered : Renders table t top text) :
    ∃ pieces, Piece.Spells directory s text pieces ∧ Yard.ReadsAs pieces top t.postorder := by
  induction rendered with
  | literal spelled => exact ⟨_, .operand spelled, .operand _⟩
  | binary known two _ _ leftBare rightBare left right =>
    obtain ⟨before, leftSpelled, leftRead⟩ := left
    obtain ⟨behind, rightSpelled, rightRead⟩ := right
    obtain ⟨symbol, given⟩ := serves.symbols _ _ known
    exact ⟨_, leftSpelled.join (fun _ => symbol.parted) (.cons (.operator symbol given) rightSpelled),
      leftRead.binary two rightRead leftBare rightBare⟩
  | unary known one _ bare operand =>
    obtain ⟨pieces, spelled, read⟩ := operand
    obtain ⟨symbol, given⟩ := serves.symbols _ _ known
    exact ⟨_, spelled.join (fun _ => symbol.parted) (.cons (.operator symbol given) .nil),
      read.unary one bare⟩
  | enclosed _ inner =>
    obtain ⟨pieces, spelled, read⟩ := inner
    exact ⟨_, spelled.enclosed serves, read.enclosed⟩
  | blankBefore blank _ inner =>
    obtain ⟨pieces, spelled, read⟩ := inner
    exact ⟨_, .cons (.blank blank) spelled, read.blankBefore⟩
  | blankAfter blank _ inner =>
    obtain ⟨pieces, spelled, read⟩ := inner
    exact ⟨_, spelled.join (fun _ => blank_parted blank) (.cons (.blank blank) .nil),
      read.blankAfter⟩

theorem Directory.parse_reads {view : σ → τ} (unheard : directory.Unheard view)
    (spelled : Piece.Spells directory s text pieces)
    (read : Yard.Reads pieces top settled waiting) :
    (directory.parse (.ofList text) s).1 =
      .ok ⟨.ofList text, settled ++ waiting.map .operator⟩ := by
  obtain ⟨accepted, tokens⟩ := read.finish
  rw [parse_feed unheard, String.toList_ofList, spelled.cut, accepted, tokens]

theorem Directory.parse_renders {view : σ → τ} (unheard : directory.Unheard view)
    (serves : directory.Serves s table) (rendered : Renders table t top text) :
    (directory.parse (.ofList text) s).1 = .ok ⟨.ofList text, t.postorder⟩ := by
  obtain ⟨pieces, spelled, settled, waiting, read, -, same⟩ := rendered.read serves
  rw [parse_reads unheard spelled read, same]

-- The operands are right whatever the table ranks: equal precedence may go with both
-- associativities, and the engine may have been used and switched before.
theorem Engine.parse_rendering {e : Engine} (used : e.Used)
    (unclaimed : ∀ p ∈ e.registry.providers, p.claims '(' = false ∧ p.claims ')' = false)
    (fixed : ∀ c op, table c = some op →
      IsSymbol c ∧ (e.registry.directory .parser).Gives e.state c (some op))
    (rendered : Renders table t top text) :
    (e.parse (.ofList text)).1 = .ok ⟨.ofList text, t.postorder⟩ := by
  have serves : (e.registry.directory .parser).Serves e.state table :=
    { symbols := fixed
      opening := Registry.gives_none used.owned (fun p listed => (unclaimed p listed).1) .parser
      closing := Registry.gives_none used.owned (fun p listed => (unclaimed p listed).2) .parser }
  exact Directory.parse_renders (e.registry.directory_unheard .parser) serves rendered

def Table.mixed : Table where
  claims := ['*', '@']
  requires := none
  enabled := true
  entries := [('*', ⟨'*', .left, 2, 2⟩, .first), ('@', ⟨'@', .right, 2, 2⟩, .last)]

def Engine.mixed : Engine := .start ⟨[Table.mixed.provider], by simp⟩ true

theorem Engine.mixed_fixed (c : Char) (op : Operator)
    (known : mixed.registry.operatorOf [true] c = some op) :
    IsSymbol c ∧ (mixed.registry.directory .parser).Gives mixed.state c (some op) := by
  have ranked : mixed.registry.Ranked fun _ => 0 := by
    intro p listed c claims d required
    cases List.mem_singleton.mp listed
    cases required
  have faithful : mixed.registry.Faithful [true] mixed.state := mixed.registry.faithful_start true
  refine ⟨?_, known ▸ Registry.gives_operatorOf ranked faithful .parser c⟩
  by_cases star : c = '*'
  · rw [star]
    decide
  · by_cases monkey : c = '@'
    · rw [monkey]
      decide
    · have unclaimed : mixed.registry.operatorOf [true] c = none := by
        simp [Registry.operatorOf, Registry.owner, Registry.ownerWithin, mixed, start,
          Table.provider, Table.mixed, star, monkey]
      rw [unclaimed] at known
      cases known

theorem Engine.parse_rendering_mixed :
    (Engine.mixed.parse "2@3* 4@(5)").1 = .ok ⟨"2@3* 4@(5)",
      [.operand (.integer 2), .operand (.integer 3), .operator ⟨'@', .right, 2, 2⟩,
        .operand (.integer 4), .operand (.integer 5), .operator ⟨'@', .right, 2, 2⟩,
        .operator ⟨'*', .left, 2, 2⟩]⟩ := by
  have number (n : Int64) (text : List Char)
      (spelled : Decimal.read? text = some (.integer n, [])) :
      Renders (mixed.registry.operatorOf [true]) (.literal (.integer n)) none text :=
    .literal spelled
  have left : Renders (mixed.registry.operatorOf [true]) _ _ (['2'] ++ '@' :: ['3']) :=
    .binary rfl rfl (number 2 _ (by decide)) (number 3 _ (by decide)) (by simp) (by simp)
  have five := (number 5 ['5'] (by decide)).enclosed
  have right : Renders (mixed.registry.operatorOf [true]) _ _ ([' ', '4'] ++ '@' :: _) :=
    .binary rfl rfl (.blankBefore (by decide) (number 4 _ (by decide))) five (by simp) (by simp)
  have whole : Renders (mixed.registry.operatorOf [true]) _ _ (_ ++ '*' :: _) :=
    .binary rfl rfl left right (by decide) (by decide)
  exact parse_rendering ⟨_, _, [], rfl⟩ (by decide) mixed_fixed whole

end ShuntingYard
