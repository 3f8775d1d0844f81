import ShuntingYard.Engine
import ShuntingYard.Provider.Table
import ShuntingYard.Proofs.Program.Kinds

-- A parenthesis in a program is never used up: it can neither be an argument of an operator nor
-- the value that is left.
namespace ShuntingYard

namespace Provider

-- Turns an operator down wherever one of its arguments is no operand.
def Strict (p : Provider) : Prop :=
  ∀ op args, ∀ token ∈ args, token.isOperand = false → ∃ cause, p.operate op args = .error cause

-- Before anything else, the arguments are checked against an operator. It need not be the one that
-- is to be applied, nor have its arity.
def ChecksFirst (p : Provider) : Prop :=
  ∀ op args, ∃ (against : Operator) (apply : List Number → Except OperateError Number),
    p.operate op args = (against.operands args).bind apply

end Provider

variable {token : Token} {args tokens stack last : List Token} {side : Side} {op : Operator}
  {p : Provider} {found : Option Provider} {program : Program}

theorem Operator.operands_refused (listed : token ∈ args) (noOperand : token.isOperand = false) :
    ∃ cause, op.operands args = .error cause := by
  cases checked : op.operands args with
  | error cause => exact ⟨cause, rfl⟩
  | ok ns =>
    obtain ⟨rfl, -⟩ := operands_ok checked
    obtain ⟨n, -, rfl⟩ := List.mem_map.mp listed
    cases noOperand

theorem Provider.ChecksFirst.strict (checks : p.ChecksFirst) : p.Strict := by
  intro op args token listed noOperand
  obtain ⟨against, apply, same⟩ := checks op args
  obtain ⟨cause, refused⟩ := against.operands_refused listed noOperand
  exact ⟨cause, by rw [same, refused]; rfl⟩

theorem Provider.arithmetic_strict : Provider.arithmetic.Strict :=
  ChecksFirst.strict fun op _ => ⟨op, Arithmetic.apply Float.pow op.symbol, rfl⟩

theorem Table.provider_strict (t : Table) : t.provider.Strict := by
  have strict (rule : Rule) (op : Operator) (args : List Token) :
      ∀ token ∈ args, token.isOperand = false → ∃ cause, rule.apply op args = .error cause := by
    intro token listed noOperand
    obtain ⟨cause, refused⟩ := op.operands_refused listed noOperand
    cases rule with
    | arithmetic c =>
      simp only [Rule.apply]
      split
      · exact Provider.arithmetic_strict _ args token listed noOperand
      · exact ⟨_, rfl⟩
    | _ => exact ⟨cause, by simp only [Rule.apply, refused]; rfl⟩
  intro op args
  simp only [provider]
  split
  · exact strict _ op args
  · exact strict _ op args

theorem selective_of_strict (strict : ∀ p, found = some p → p.Strict) :
    Selective fun _ => found := by
  intro _ p op args n side owned applied among
  obtain ⟨cause, refused⟩ := strict p owned op args _ among rfl
  cases refused.symm.trans applied

namespace Directory
variable {directory : Directory σ} {s : σ}

theorem reduce_paren (strict : ∀ c s p, (directory.find c s).1 = some p → p.Strict)
    (reduced : (directory.reduce tokens stack s).1 = .ok last)
    (present : .paren side ∈ stack ∨ .paren side ∈ tokens) : .paren side ∈ last := by
  fun_induction directory.reduce tokens stack s with
  | case1 =>
    cases reduced
    exact present.resolve_right List.not_mem_nil
  | case2 op rest stack s found next =>
    rename_i replaced ih
    have moves : Token.Moves (fun _ => found.1) (.operator op) stack next :=
      Operator.replaceArguments_moves replaced
    refine ih reduced (present.imp ?_ ?_)
    · exact moves.paren_kept (selective_of_strict (strict op.symbol s))
    · exact fun listed => (List.mem_cons.mp listed).resolve_left (by simp)
  | case3 => cases reduced
  | case4 n rest stack s ih => exact ih reduced (by simpa using present)
  | case5 other rest stack s ih =>
    refine ih reduced ?_
    simp only [List.mem_cons] at present ⊢
    tauto

theorem evaluate_paren (strict : ∀ c s p, (directory.find c s).1 = some p → p.Strict)
    (listed : .paren side ∈ program.tokens) :
    ∃ fault, (directory.evaluate program s).1 = .error (.evaluation fault program) := by
  unfold evaluate
  dsimp only
  split
  · rename_i reduced
    have left := reduce_paren strict reduced (.inr listed)
    simp at left
  · exact ⟨_, rfl⟩
  · exact ⟨_, rfl⟩

end Directory

namespace Engine

theorem parenthesis_fatal (e : Engine) :
    ((∀ p ∈ e.registry.providers, p.Strict) → ∀ program side, .paren side ∈ program.tokens →
      ∃ fault, (e.evaluate program).1 = .error (.evaluation fault program)) ∧
    ∀ p : Provider, p.ChecksFirst → p.Strict := by
  refine ⟨fun strict program side listed => ?_, fun p => Provider.ChecksFirst.strict⟩
  have found c s p (owned : ((e.registry.directory .evaluator).find c s).1 = some p) : p.Strict := by
    obtain ⟨place, -, holder⟩ := Option.bind_eq_some_iff.mp owned
    exact strict p (List.mem_of_getElem? holder)
  exact Directory.evaluate_paren found listed

def constant : Provider := Table.provider ⟨['#'], none, true, [('#', ⟨'#', .left, 1, 0⟩, .zero)]⟩

def constantFirst : Registry := ⟨[constant, .arithmetic], by simp⟩

theorem parenthesis_fatal_constant :
    let e := start constantFirst true
    let sum : Program := ⟨"handmade", [.paren .right, .operator ⟨'#', .left, 1, 0⟩,
      .operator ⟨'+', .left, 1, 2⟩]⟩
    let alone : Program := ⟨"handmade", [.paren .left, .operator ⟨'#', .left, 1, 0⟩]⟩
    (∀ p ∈ e.registry.providers, p.Strict) ∧
      (.paren .right ∈ sum.tokens ∧ .paren .left ∈ alone.tokens) ∧
      (∃ fault, (e.evaluate sum).1 = .error (.evaluation fault sum)) ∧
      ∃ fault, (e.evaluate alone).1 = .error (.evaluation fault alone) := by
  intro e sum alone
  have strict : ∀ p ∈ e.registry.providers, p.Strict := by
    intro p listed
    have either : p = constant ∨ p = .arithmetic := by simpa [e, start, constantFirst] using listed
    rcases either with rfl | rfl
    · exact Table.provider_strict _
    · exact Provider.arithmetic_strict
  have right : .paren .right ∈ sum.tokens := List.mem_cons_self
  have left : .paren .left ∈ alone.tokens := List.mem_cons_self
  obtain ⟨fatal, -⟩ := parenthesis_fatal e
  exact ⟨strict, ⟨right, left⟩, fatal strict sum _ right, fatal strict alone _ left⟩

end Engine
end ShuntingYard
