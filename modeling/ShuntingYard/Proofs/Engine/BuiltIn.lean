import ShuntingYard.Proofs.Expression.Rendering

namespace ShuntingYard

namespace Arithmetic

def symbols : List Char := ['+', '-', '*', '/', '%', '^', '!']

def operators : List Operator := symbols.filterMap operator?

theorem symbol_listed (known : operator? c = some op) : c ∈ symbols := by
  unfold operator? at known
  split at known <;> first | decide | cases known

theorem operator_listed (known : operator? c = some op) : op ∈ operators :=
  List.mem_filterMap.mpr ⟨c, symbol_listed known, known⟩

theorem isSymbol (known : operator? c = some op) : IsSymbol c := by
  unfold operator? at known
  split at known <;> first | decide | cases known

theorem symbol_eq (known : operator? c = some op) : op.symbol = c := by
  unfold operator? at known
  split at known <;> cases known <;> rfl

def bang : Operator := ⟨'!', .right, 3, 1⟩

theorem eq_bang (listed : op ∈ operators) (one : op.arity = 1) : op = bang := by
  have each : ∀ op ∈ operators, op.arity = 1 → op = bang := by decide
  exact each op listed one

end Arithmetic

def Directory.Calculates (directory : Directory σ) (start : σ) : Prop :=
  ∀ ⦃c op⦄, Arithmetic.operator? c = some op → directory.Finds start c (some .arithmetic)

-- An engine that knows the built-in operators only, as any use may have left it. Nothing can switch
-- these off.
def Engine.BuiltIn (e : Engine) : Prop :=
  ∃ actions, (∀ place on, .switch place on ∉ actions) ∧ e = after actions arithmetic

namespace Engine
variable {e : Engine}

theorem builtIn_arithmetic : BuiltIn arithmetic := ⟨[], by simp, rfl⟩

theorem ranked_arithmetic : arithmetic.registry.Ranked fun _ => 0 := by
  intro p listed c claims d required
  cases List.mem_singleton.mp listed
  cases required

theorem BuiltIn.registry_eq (builtIn : BuiltIn e) : e.registry = arithmetic.registry := by
  obtain ⟨actions, -, rfl⟩ := builtIn
  exact after_registry actions arithmetic

theorem BuiltIn.faithful (builtIn : BuiltIn e) : arithmetic.registry.Faithful [true] e.state := by
  obtain ⟨actions, quiet, rfl⟩ := builtIn
  exact after_upheld (Registry.faithful_kept ranked_arithmetic [true]).upheld
    (fun place on switched => absurd switched (quiet place on))
    (arithmetic.registry.faithful_start true)

theorem owner_arithmetic (c : Char) : arithmetic.registry.owner [true] c =
    if (Arithmetic.operator? c).isSome then some 0 else none := by
  rw [Registry.owner_eq ranked_arithmetic, Registry.claimant]
  by_cases known : (Arithmetic.operator? c).isSome <;>
    simp [arithmetic, start, Provider.arithmetic, Provider.arithmeticWith, known]

theorem operatorOf_arithmetic (c : Char) :
    arithmetic.registry.operatorOf [true] c = Arithmetic.operator? c := by
  rw [Registry.operatorOf, owner_arithmetic]
  cases known : Arithmetic.operator? c with
  | none => rfl
  | some op => exact known

theorem BuiltIn.serves (builtIn : BuiltIn e) :
    (e.registry.directory .parser).Serves e.state Arithmetic.operator? := by
  have given := Registry.gives_operatorOf ranked_arithmetic builtIn.faithful .parser
  simp only [operatorOf_arithmetic] at given
  rw [builtIn.registry_eq]
  exact
    { symbols := fun c op known => ⟨Arithmetic.isSymbol known, known ▸ given c⟩
      opening := given '('
      closing := given ')' }

theorem BuiltIn.calculates (builtIn : BuiltIn e) (source : String) :
    (e.registry.directory .evaluator).Calculates (e.parse source).2.state := by
  intro c op known
  have same := builtIn.registry_eq
  have kept := Registry.faithful_kept ranked_arithmetic [true]
  have faithful : arithmetic.registry.Faithful [true] (e.parse source).2.state :=
    parse_upheld (same ▸ kept.upheld) source builtIn.faithful
  have found := Registry.finds_owner ranked_arithmetic faithful .evaluator c
  rw [owner_arithmetic, known] at found
  rw [same]
  exact found

theorem calculate_parsed (parsed : (e.parse source).1 = .ok program) :
    (e.calculate source).1 =
      ((e.registry.directory .evaluator).evaluate program (e.parse source).2.state).1 := by
  simp only [calculate, parsed]
  rfl

theorem BuiltIn.parse_renders (builtIn : BuiltIn e)
    (rendered : Renders Arithmetic.operator? t top text) :
    (e.parse (.ofList text)).1 = .ok ⟨.ofList text, t.postorder⟩ :=
  Directory.parse_renders (e.registry.directory_unheard .parser) builtIn.serves rendered

end Engine
end ShuntingYard
