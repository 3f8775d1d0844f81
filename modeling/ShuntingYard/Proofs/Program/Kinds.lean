import Mathlib.Data.List.Induction
import ShuntingYard.Proofs.Arithmetic.Kinds
import ShuntingYard.Proofs.Program.Stacking

namespace ShuntingYard
namespace Kind

def push? (stack : List Kind) : Token → Option (List Kind)
  | .operand n => some (n.kind :: stack)
  | .operator op =>
    if op.arity ≤ stack.length then
      some (ofResult op.symbol (stack.take op.arity) :: stack.drop op.arity)
    else none
  | .paren _ => none

theorem push?_operator {op : Operator} {args : List Kind} (fits : args.length = op.arity)
    (below : List Kind) :
    push? (args ++ below) (.operator op) = some (ofResult op.symbol args :: below) := by
  simp [push?, ← fits]

def stack? (tokens : List Token) : Option (List Kind) := tokens.foldlM push? []

theorem stack?_snoc (front : List Token) (token : Token) :
    stack? (front ++ [token]) = (stack? front).bind fun stack => push? stack token := by
  simp [stack?, List.foldlM_append]

end Kind

def Program.kind? (p : Program) : Option Kind :=
  match Kind.stack? p.tokens with
  | some [kind] => some kind
  | _ => none

variable {find : Char → Option Provider} {op : Operator} {token : Token}
  {args tokens stack next : List Token} {ns : List Number} {n : Number} {side : Side}

theorem Operator.operands_ok (checked : op.operands args = .ok ns) :
    args = ns.map .operand ∧ ns.length = op.arity := by
  unfold operands at checked
  split at checked
  · rename_i fits
    suffices same : args = ns.map .operand from ⟨same, by rw [← fits, same, List.length_map]⟩
    clear fits
    induction args generalizing ns with
    | nil =>
      cases checked
      rfl
    | cons token args ih =>
      rw [List.mapM_cons] at checked
      cases token with
      | operand m =>
        simp only [bind, Except.bind, pure, Except.pure] at checked
        split at checked
        · cases checked
        · rename_i ms others
          cases checked
          rw [List.map_cons, ih others]
      | operator other => cases checked
      | paren side => cases checked
  · cases checked

def Selective (find : Char → Option Provider) : Prop :=
  ∀ c p op args n side, find c = some p → p.operate op args = .ok n → .paren side ∉ args

theorem Token.Moves.paren_kept (selective : Selective find) (moves : Token.Moves find token stack next)
    (lying : .paren side ∈ stack) : .paren side ∈ next := by
  cases moves with
  | operand => exact List.mem_cons_of_mem _ lying
  | paren => exact List.mem_cons_of_mem _ lying
  | operator owned fits applied =>
    have among := List.mem_append.mp lying
    refine List.mem_cons_of_mem _ (among.resolve_left fun argument => ?_)
    exact selective _ _ _ _ _ side owned applied (List.mem_reverse.mp argument)

theorem Stacks.paren_kept (selective : Selective find) (reached : Stacks find tokens stack)
    (listed : .paren side ∈ tokens) : .paren side ∈ stack := by
  induction reached with
  | nil => cases listed
  | @step front stack token next before moves ih =>
    rcases List.mem_append.mp listed with earlier | now
    · exact moves.paren_kept selective (ih earlier)
    · cases List.mem_singleton.mp now
      cases moves
      exact List.mem_cons_self

theorem Provider.arithmetic_applied (operated : Provider.arithmetic.operate op args = .ok n) :
    ∃ ns, args = ns.map .operand ∧ ns.length = op.arity ∧
      Arithmetic.apply Float.pow op.symbol ns = .ok n := by
  cases checked : op.operands args with
  | error cause =>
    simp [Provider.arithmetic, Provider.arithmeticWith, checked, bind, Except.bind] at operated
  | ok ns =>
    obtain ⟨same, fits⟩ := Operator.operands_ok checked
    refine ⟨ns, same, fits, ?_⟩
    simpa [Provider.arithmetic, Provider.arithmeticWith, checked, bind, Except.bind] using operated

def Arithmetical (find : Char → Option Provider) : Prop :=
  ∀ c p, find c = some p → p = .arithmetic

theorem Arithmetical.selective (only : Arithmetical find) : Selective find := by
  intro c p op args n side owned operated argument
  rw [only c p owned] at operated
  obtain ⟨ns, rfl, -, -⟩ := Provider.arithmetic_applied operated
  simp at argument

namespace Kind
variable {kinds next : List Kind} {token : Token}

theorem push?_integer (integers : ∀ kind ∈ kinds, kind = .integer)
    (literal : ∀ n, token = .operand n → n.kind = .integer)
    (undivided : ∀ op, token = .operator op → op.symbol ≠ '/') (pushed : push? kinds token = some next) :
    ∀ kind ∈ next, kind = .integer := by
  cases token with
  | operand n =>
    cases pushed
    exact List.forall_mem_cons.mpr ⟨literal n rfl, integers⟩
  | operator op =>
    simp only [push?] at pushed
    split at pushed
    · cases pushed
      have noFloat : .float ∉ kinds.take op.arity := fun among => by
        cases integers .float (List.mem_of_mem_take among)
      refine List.forall_mem_cons.mpr ⟨?_, fun kind below => integers kind (List.mem_of_mem_drop below)⟩
      simp [ofResult, joint, undivided op rfl, noFloat]
    · cases pushed
  | paren side => cases pushed

theorem stack?_integer (literals : ∀ n, .operand n ∈ tokens → n.kind = .integer)
    (undivided : ∀ op, .operator op ∈ tokens → op.symbol ≠ '/') (stacked : stack? tokens = some kinds) :
    ∀ kind ∈ kinds, kind = .integer := by
  induction tokens using List.reverseRecOn generalizing kinds with
  | nil =>
    cases stacked
    simp
  | append_singleton front token ih =>
    rw [stack?_snoc, Option.bind_eq_some_iff] at stacked
    obtain ⟨before, earlier, pushed⟩ := stacked
    have integers := ih (fun n listed => literals n (List.mem_append_left _ listed))
      (fun op listed => undivided op (List.mem_append_left _ listed)) earlier
    refine push?_integer integers (fun n same => literals n ?_) (fun op same => undivided op ?_) pushed
    · simp [same]
    · simp [same]

theorem stack?_stacks (only : Arithmetical find) (reached : Stacks find tokens stack)
    (known : ∀ op, .operator op ∈ tokens → Arithmetic.operator? op.symbol = some op)
    (plain : ∀ side, .paren side ∉ tokens) :
    ∃ ns : List Number, stack = ns.map .operand ∧ stack? tokens = some (ns.map Number.kind) := by
  induction reached with
  | nil => exact ⟨[], rfl, rfl⟩
  | @step front stack token next before moves ih =>
    obtain ⟨ns, same, kinds⟩ := ih (fun op listed => known op (List.mem_append_left _ listed))
      fun side listed => plain side (List.mem_append_left _ listed)
    rw [stack?_snoc, kinds, Option.bind_some]
    cases moves with
    | @operand n => exact ⟨n :: ns, by rw [List.map_cons, same], rfl⟩
    | @paren side => exact absurd (List.mem_append_right _ (List.mem_singleton.mpr rfl)) (plain side)
    | @operator p op args n below owned fits applied =>
      rw [only _ p owned] at applied
      obtain ⟨ms, rfl, enough, computed⟩ := Provider.arithmetic_applied applied
      have builtIn := known op (List.mem_append_right _ (List.mem_singleton.mpr rfl))
      obtain ⟨tops, others, rfl, front, rfl⟩ := List.map_eq_append_iff.mp same.symm
      obtain rfl : tops = ms.reverse := by
        refine List.map_injective_iff.mpr (fun m n alike => ?_) (front.trans List.map_reverse.symm)
        cases alike
        rfl
      have result := Arithmetic.apply_kind builtIn enough computed
      refine ⟨n :: others, rfl, ?_⟩
      rw [List.map_append, List.map_reverse, push?_operator (by simpa using enough),
        ofResult_reverse, List.map_cons, result]

end Kind
end ShuntingYard
