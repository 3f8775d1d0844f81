import Mathlib.Data.List.Basic
import ShuntingYard.Proofs.Directory

namespace ShuntingYard

def Operator.outcome (op : Operator) (args : List Number) :
    Option Provider → Except EvalFault Number
  | none => .error (.noProvider op.symbol)
  | some p => (p.operate op (args.map .operand)).mapError (.failed op.symbol)

-- Numbers as they lie on a stack, the last one on top.
def pushed (args : List Number) : List Token := (args.map .operand).reverse

theorem pushed_append (front back : List Number) : pushed (front ++ back) = pushed back ++ pushed front := by
  rw [pushed, List.map_append, List.reverse_append, pushed, pushed]

theorem pushed_injective (same : pushed ms = pushed ns) : ms = ns := by
  refine List.map_injective_iff.mpr ?_ (List.reverse_injective same)
  intro m n alike
  cases alike
  rfl

theorem takeArguments_top (top args below : List Token) :
    takeArguments top.length args (top ++ below) = some (top.reverse ++ args, below) := by
  induction top generalizing args with
  | nil => rfl
  | cons token top ih =>
    simp only [List.length_cons, List.cons_append, takeArguments, ih, List.reverse_cons,
      List.append_assoc, List.nil_append]

theorem takeArguments_lying {args : List Token} (fits : args.length = count) (below : List Token) :
    takeArguments count [] (args.reverse ++ below) = some (args, below) := by
  simpa [← fits] using takeArguments_top args.reverse [] below

theorem takeArguments_pushed (args : List Number) (below : List Token) :
    takeArguments args.length [] (pushed args ++ below) = some (args.map .operand, below) :=
  takeArguments_lying (List.length_map _) below

theorem takeArguments_spec (taken : takeArguments count args stack = some (all, below)) :
    ∃ top, stack = top ++ below ∧ top.length = count ∧ all = top.reverse ++ args := by
  fun_induction takeArguments count args stack with
  | case1 args stack =>
    cases taken
    exact ⟨[], rfl, rfl, rfl⟩
  | case2 count args top below ih =>
    obtain ⟨others, parts, fits, same⟩ := ih taken
    exact ⟨top :: others, by rw [parts, List.cons_append], by rw [List.length_cons, fits],
      by simp [same]⟩
  | case3 => cases taken

theorem takeArguments_short (short : stack.length < count) :
    takeArguments count args stack = none := by
  induction stack generalizing count args with
  | nil =>
    cases count with
    | zero => simp at short
    | succ count => rfl
  | cons top below ih =>
    cases count with
    | zero => simp at short
    | succ count => exact ih (Nat.lt_of_succ_lt_succ short)

theorem Operator.replaceArguments_pushed {op : Operator} (fits : args.length = op.arity)
    (below : List Token) (found : Option Provider) :
    op.replaceArguments (pushed args ++ below) found =
      (op.outcome args found).map fun n => .operand n :: below := by
  cases found with
  | none => rfl
  | some p =>
    simp only [replaceArguments, outcome, ← fits, takeArguments_pushed]
    cases p.operate op (args.map .operand) <;> rfl

namespace Directory
variable {directory : Directory σ} {start s : σ} {op : Operator} {p : Provider}

theorem reduce_operator (finds : directory.Finds start op.symbol found)
    (path : Reaches directory start s) (fits : args.length = op.arity) :
    directory.reduce (.operator op :: rest) (pushed args ++ stack) s =
      match op.outcome args found with
      | .ok n => directory.reduce rest (.operand n :: stack) (directory.find op.symbol s).2
      | .error fault => (.error fault, (directory.find op.symbol s).2) := by
  simp only [reduce, finds s path, Operator.replaceArguments_pushed fits]
  cases op.outcome args found <;> rfl

-- The tokens come down to the number, whatever lies below them and whatever comes after them.
def ReducesTo (directory : Directory σ) (start s : σ) (tokens : List Token) (n : Number) : Prop :=
  ∃ t, Reaches directory start t ∧ ∀ rest stack,
    directory.reduce (tokens ++ rest) stack s = directory.reduce rest (.operand n :: stack) t

def ReducesAll (directory : Directory σ) (start s : σ) (tokens : List Token)
    (args : List Number) : Prop :=
  ∃ t, Reaches directory start t ∧ ∀ rest stack,
    directory.reduce (tokens ++ rest) stack s = directory.reduce rest (pushed args ++ stack) t

def FailsWith (directory : Directory σ) (s : σ) (tokens : List Token) (fault : EvalFault) : Prop :=
  ∀ rest stack, (directory.reduce (tokens ++ rest) stack s).1 = .error fault

theorem ReducesTo.one (reduced : ReducesTo directory start s tokens n) :
    ReducesAll directory start s tokens [n] := reduced

theorem ReducesAll.nil (path : Reaches directory start s) : ReducesAll directory start s [] [] :=
  ⟨s, path, fun _ _ => rfl⟩

theorem ReducesAll.append (front : ReducesAll directory start s before ms)
    (back : ∀ t, Reaches directory start t → ReducesAll directory start t behind ns) :
    ReducesAll directory start s (before ++ behind) (ms ++ ns) := by
  obtain ⟨t, path, frontReduced⟩ := front
  obtain ⟨u, path, backReduced⟩ := back t path
  refine ⟨u, path, fun rest stack => ?_⟩
  rw [List.append_assoc, frontReduced, backReduced, pushed_append, List.append_assoc]

theorem ReducesAll.apply (operands : ReducesAll directory start s tokens args)
    (finds : directory.Finds start op.symbol found) (fits : args.length = op.arity)
    (applied : op.outcome args found = .ok n) :
    ReducesTo directory start s (tokens ++ [.operator op]) n := by
  obtain ⟨t, path, reduced⟩ := operands
  refine ⟨_, .find op.symbol path, fun rest stack => ?_⟩
  rw [List.append_assoc, reduced, List.singleton_append, reduce_operator finds path fits, applied]

theorem ReducesTo.operand (path : Reaches directory start s) :
    ReducesTo directory start s [.operand n] n := ⟨s, path, fun _ _ => rfl⟩

theorem ReducesTo.binary (left : ReducesTo directory start s before m)
    (right : ∀ t, Reaches directory start t → ReducesTo directory start t behind n)
    (finds : directory.Finds start op.symbol (some p)) (two : op.arity = 2)
    (applied : p.operate op [.operand m, .operand n] = .ok k) :
    ReducesTo directory start s (before ++ behind ++ [.operator op]) k := by
  have outcome : op.outcome [m, n] (some p) = .ok k := congrArg (Except.mapError _) applied
  exact (left.one.append fun t path => (right t path).one).apply finds two.symm outcome

theorem ReducesTo.unary (operand : ReducesTo directory start s tokens n)
    (finds : directory.Finds start op.symbol (some p)) (one : op.arity = 1)
    (applied : p.operate op [.operand n] = .ok k) :
    ReducesTo directory start s (tokens ++ [.operator op]) k := by
  have outcome : op.outcome [n] (some p) = .ok k := congrArg (Except.mapError _) applied
  exact operand.one.apply finds one.symm outcome

theorem FailsWith.onFront (failed : FailsWith directory s tokens fault) (more : List Token) :
    FailsWith directory s (tokens ++ more) fault := by
  intro rest stack
  rw [List.append_assoc]
  exact failed _ stack

theorem FailsWith.after (front : ReducesAll directory start s tokens args)
    (failed : ∀ t, Reaches directory start t → FailsWith directory t more fault) :
    FailsWith directory s (tokens ++ more) fault := by
  obtain ⟨t, path, reduced⟩ := front
  intro rest stack
  rw [List.append_assoc, reduced]
  exact failed t path rest _

theorem FailsWith.onBack (front : ReducesTo directory start s tokens n)
    (failed : ∀ t, Reaches directory start t → FailsWith directory t more fault) :
    FailsWith directory s (tokens ++ more) fault := .after front.one failed

theorem FailsWith.apply (operands : ReducesAll directory start s tokens args)
    (finds : directory.Finds start op.symbol found) (fits : args.length = op.arity)
    (failed : op.outcome args found = .error fault) :
    FailsWith directory s (tokens ++ [.operator op]) fault := by
  obtain ⟨t, path, reduced⟩ := operands
  intro rest stack
  rw [List.append_assoc, reduced, List.singleton_append, reduce_operator finds path fits, failed]

theorem FailsWith.binary (left : ReducesTo directory start s before m)
    (right : ∀ t, Reaches directory start t → ReducesTo directory start t behind n)
    (finds : directory.Finds start op.symbol (some p)) (two : op.arity = 2)
    (failed : p.operate op [.operand m, .operand n] = .error cause) :
    FailsWith directory s (before ++ behind ++ [.operator op]) (.failed op.symbol cause) := by
  have outcome : op.outcome [m, n] (some p) = .error (.failed op.symbol cause) :=
    congrArg (Except.mapError _) failed
  exact .apply (left.one.append fun t path => (right t path).one) finds two.symm outcome

theorem FailsWith.unary (operand : ReducesTo directory start s tokens n)
    (finds : directory.Finds start op.symbol (some p)) (one : op.arity = 1)
    (failed : p.operate op [.operand n] = .error cause) :
    FailsWith directory s (tokens ++ [.operator op]) (.failed op.symbol cause) := by
  have outcome : op.outcome [n] (some p) = .error (.failed op.symbol cause) :=
    congrArg (Except.mapError _) failed
  exact .apply operand.one finds one.symm outcome

theorem ReducesTo.evaluate {program : Program}
    (reduced : ReducesTo directory start s program.tokens n) :
    (directory.evaluate program s).1 = .ok n := by
  obtain ⟨t, -, result⟩ := reduced
  have whole := result [] []
  rw [List.append_nil] at whole
  simp only [Directory.evaluate, whole, reduce]

theorem FailsWith.evaluate {program : Program} (failed : FailsWith directory s program.tokens fault) :
    (directory.evaluate program s).1 = .error (.evaluation fault program) := by
  have whole := failed [] []
  rw [List.append_nil] at whole
  simp only [Directory.evaluate, whole]

end Directory
end ShuntingYard
