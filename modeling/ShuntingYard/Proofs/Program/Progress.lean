import ShuntingYard.Proofs.Course
import ShuntingYard.Proofs.Program.Reduction

-- Where the machine comes to, and what it has on its stack there.
namespace ShuntingYard

namespace Directory

inductive ComesTo (directory : Directory σ) (tokens : List Token) (s : σ) (op : Operator)
    (stack : List Token) (t : σ) : Prop where
  | intro (parts : tokens = front ++ .operator op :: rest)
      (reduced : directory.reduce front [] s = (.ok stack, t))

inductive StopsAt (directory : Directory σ) (tokens : List Token) (s : σ) (op : Operator)
    (fault : EvalFault) : Prop where
  | intro (comes : directory.ComesTo tokens s op stack t)
      (stuck : op.replaceArguments stack (directory.find op.symbol t).1 = .error fault)

end Directory

variable {op : Operator} {ns : List Number} {args below stack tokens : List Token}

theorem takeArguments_split (taken : takeArguments count [] (pushed ns) = some (args, below)) :
    ∃ front back, ns = front ++ back ∧ back.length = count ∧ args = back.map .operand ∧
      below = pushed front := by
  obtain ⟨top, parts, fits, rfl⟩ := takeArguments_spec taken
  have lying : ns.map .operand = below.reverse ++ top.reverse := by
    rw [← List.reverse_append, ← parts, pushed, List.reverse_reverse]
  obtain ⟨front, back, rfl, kept, cut⟩ := List.map_eq_append_iff.mp lying
  refine ⟨front, back, rfl, ?_, ?_, ?_⟩
  · have size := congrArg List.length cut
    rw [List.length_map, List.length_reverse, fits] at size
    exact size
  · rw [cut, List.append_nil]
  · rw [pushed, kept, List.reverse_reverse]

theorem Operator.operands_numbers (fits : ns.length = op.arity) :
    op.operands (ns.map .operand) = .ok ns := by
  unfold operands
  rw [List.length_map, if_pos fits]
  clear fits
  induction ns with
  | nil => rfl
  | cons n ns ih =>
    rw [List.map_cons, List.mapM_cons, ih]
    rfl

theorem Operator.replaceArguments_numbers
    (replaced : op.replaceArguments (pushed ns) found = .ok stack) : ∃ ms, stack = pushed ms := by
  cases found with
  | none => cases replaced
  | some p =>
    unfold replaceArguments at replaced
    dsimp only at replaced
    split at replaced
    · cases replaced
    · rename_i taken
      obtain ⟨front, -, -, -, -, rfl⟩ := takeArguments_split taken
      split at replaced
      · rename_i n applied
        cases replaced
        exact ⟨front ++ [n], (pushed_append front [n]).symm⟩
      · cases replaced

namespace Directory
variable {directory : Directory σ} {s t : σ} {fault : EvalFault} {program : Program} {error : Error}

theorem ComesTo.listed (comes : directory.ComesTo tokens s op stack t) : .operator op ∈ tokens := by
  obtain ⟨rfl, -⟩ := comes
  exact List.mem_append_right _ List.mem_cons_self

theorem ComesTo.works (comes : directory.ComesTo tokens s op stack t) : directory.Works s t := by
  cases comes with
  | @intro front rest parts reduced =>
    have worked : directory.Works s _ := works_reduce front [] s
    rwa [reduced] at worked

theorem reduce_fault (failed : (directory.reduce tokens stack s).1 = .error fault) :
    ∃ front op rest middle t, tokens = front ++ .operator op :: rest ∧
      directory.reduce front stack s = (.ok middle, t) ∧
      op.replaceArguments middle (directory.find op.symbol t).1 = .error fault := by
  fun_induction directory.reduce tokens stack s with
  | case1 => cases failed
  | case2 op rest stack s found next =>
    rename_i replaced ih
    obtain ⟨front, last, behind, middle, t, rfl, reduced, stuck⟩ := ih failed
    refine ⟨.operator op :: front, last, behind, middle, t, rfl, ?_, stuck⟩
    rw [reduce, replaced, ← reduced]
  | case3 op rest stack s found fault =>
    rename_i stuck
    cases failed
    exact ⟨[], op, rest, stack, s, rfl, rfl, stuck⟩
  | case4 n rest stack s ih =>
    obtain ⟨front, last, behind, middle, t, rfl, reduced, stuck⟩ := ih failed
    exact ⟨.operand n :: front, last, behind, middle, t, rfl, reduced, stuck⟩
  | case5 side rest stack s ih =>
    obtain ⟨front, last, behind, middle, t, rfl, reduced, stuck⟩ := ih failed
    exact ⟨.paren side :: front, last, behind, middle, t, rfl, reduced, stuck⟩

theorem evaluate_error (failed : (directory.evaluate program s).1 = .error error) :
    error = .evaluation .notReduced program ∨
      ∃ op fault, error = .evaluation fault program ∧
        directory.StopsAt program.tokens s op fault := by
  unfold evaluate at failed
  dsimp only at failed
  split at failed
  · cases failed
  · cases failed
    exact .inl rfl
  · rename_i fault reduced
    cases failed
    obtain ⟨front, op, rest, stack, t, parts, begun, stuck⟩ := reduce_fault reduced
    exact .inr ⟨op, fault, rfl, .intro (.intro parts begun) stuck⟩

theorem reduce_numbers (plain : ∀ token ∈ tokens, token.isParen = false)
    (begun : stack = pushed ns) (reduced : directory.reduce tokens stack s = (.ok last, t)) :
    ∃ ms, last = pushed ms := by
  fun_induction directory.reduce tokens stack s generalizing ns with
  | case1 stack s =>
    cases reduced
    exact ⟨ns, begun⟩
  | case2 op rest stack s found next =>
    rename_i replaced ih
    rw [begun] at replaced
    obtain ⟨ms, same⟩ := Operator.replaceArguments_numbers replaced
    exact ih (List.forall_mem_cons.mp plain).2 same reduced
  | case3 => cases reduced
  | case4 n rest stack s ih =>
    have next : .operand n :: stack = pushed (ns ++ [n]) := by
      rw [begun, pushed_append]
      rfl
    exact ih (List.forall_mem_cons.mp plain).2 next reduced
  | case5 side rest stack s ih => cases (List.forall_mem_cons.mp plain).1

theorem ComesTo.numbers (comes : directory.ComesTo tokens s op stack t)
    (plain : ∀ token ∈ tokens, token.isParen = false) : ∃ ns, stack = pushed ns := by
  obtain ⟨rfl, reduced⟩ := comes
  have begun : [] = pushed [] := rfl
  exact reduce_numbers (List.forall_mem_append.mp plain).1 begun reduced

end Directory
end ShuntingYard
