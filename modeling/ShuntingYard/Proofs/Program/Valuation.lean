import ShuntingYard.Proofs.Program.Tree

namespace ShuntingYard

namespace Tree
variable {find : Char → Option Provider} {op : Operator} {t : Tree} {ts : List Tree}
  {ns : List Number}

theorem values_iff : ts.mapM (value? find) = some ns ↔
    List.Forall₂ (fun t n => t.value? find = some n) ts ns := by
  induction ts generalizing ns with
  | nil => cases ns <;> simp
  | cons t ts ih =>
    rw [List.mapM_cons, List.forall₂_cons_left_iff]
    simp only [← ih, Option.bind_eq_bind, Option.bind_eq_some_iff, Option.pure_def,
      Option.some.injEq]
    constructor
    · rintro ⟨n, has, ms, later, rfl⟩
      exact ⟨n, ms, has, later, rfl⟩
    · rintro ⟨n, ms, has, later, rfl⟩
      exact ⟨n, has, ms, later, rfl⟩

theorem values_length (values : ts.mapM (value? find) = some ns) : ns.length = ts.length :=
  (values_iff.mp values).length_eq.symm

theorem values_split (values : ts.mapM (value? find) = some ns) (enough : op.arity ≤ ns.length) :
    ∃ front operands below args, ts = front ++ List.ofFn operands ∧ ns = below ++ args ∧
      args.length = op.arity ∧ front.mapM (value? find) = some below ∧
        (List.ofFn (n := op.arity) operands).mapM (value? find) = some args := by
  have each := values_iff.mp values
  have lengths := values_length values
  let kept := ns.length - op.arity
  obtain ⟨operands, same⟩ : ∃ operands : Fin op.arity → Tree, List.ofFn operands = ts.drop kept :=
    exists_operands _ (by simp only [List.length_drop, kept]; omega)
  refine ⟨ts.take kept, operands, ns.take kept, ns.drop kept, ?_, ?_, ?_, ?_, ?_⟩
  · rw [same, List.take_append_drop]
  · rw [List.take_append_drop]
  · simp only [List.length_drop, kept]
    omega
  · exact values_iff.mpr (List.forall₂_take kept each)
  · rw [same]
    exact values_iff.mpr (List.forall₂_drop kept each)

theorem values_snoc (values : ts.mapM (value? find) = some ns) (has : t.value? find = some n) :
    (ts ++ [t]).mapM (value? find) = some (ns ++ [n]) := by
  rw [List.mapM_append, values, List.mapM_cons, has]
  rfl

theorem has_value (values : ts.mapM (value? find) = some ns) (listed : t ∈ ts) :
    ∃ n, t.value? find = some n := by
  induction values_iff.mp values with
  | nil => cases listed
  | cons has later ih =>
    rcases List.mem_cons.mp listed with rfl | inRest
    · exact ⟨_, has⟩
    · exact ih (values_iff.mpr later) inRest

theorem faultless (has : t.value? find = some n) : ∀ u ∈ t.subtrees, u.fault? find = none := by
  induction t generalizing n with
  | number m =>
    intro u listed
    cases List.mem_singleton.mp listed
    rfl
  | apply op operands ih =>
    rw [value?_apply, Option.bind_eq_some_iff] at has
    obtain ⟨args, values, applied⟩ := has
    rw [subtrees_apply]
    intro u listed
    rcases List.mem_append.mp listed with inside | here
    · obtain ⟨t, operand, within⟩ := List.mem_flatMap.mp inside
      obtain ⟨m, has⟩ := has_value values operand
      obtain ⟨i, rfl⟩ := List.mem_ofFn.mp operand
      exact ih i has u within
    · cases List.mem_singleton.mp here
      simp only [fault?, values, Option.bind_some]
      cases outcome : op.outcome args (find op.symbol) with
      | ok m => rfl
      | error fault => simp [outcome, Except.toOption] at applied

end Tree

namespace Directory
open ShuntingYard.Tree
variable {directory : Directory σ} {start s : σ} {find : Char → Option Provider} {op : Operator}
  {ts : List Tree} {ns : List Number} {tokens stack : List Token}

structure Settles (directory : Directory σ) (start : σ) (find : Char → Option Provider)
    (t : Tree) : Prop where
  value : ∀ {s n}, Reaches directory start s → t.value? find = some n →
    ReducesTo directory start s t.postorder n
  fault : ∀ {s}, Reaches directory start s → t.value? find = none →
    ∃ fault, t.firstFault? find = some fault ∧ FailsWith directory s t.postorder fault

theorem settles_values (each : ∀ t ∈ ts, Settles directory start find t)
    (path : Reaches directory start s) (values : ts.mapM (value? find) = some ns) :
    ReducesAll directory start s (ts.flatMap postorder) ns := by
  induction ts generalizing s ns with
  | nil =>
    cases values
    exact .nil path
  | cons t ts ih =>
    obtain ⟨first, others⟩ := List.forall_mem_cons.mp each
    obtain ⟨n, ms, has, later, rfl⟩ := List.forall₂_cons_left_iff.mp (values_iff.mp values)
    rw [List.flatMap_cons]
    exact (first.value path has).one.append fun u further =>
      ih others further (values_iff.mpr later)

theorem settles_fault (each : ∀ t ∈ ts, Settles directory start find t)
    (path : Reaches directory start s) (missing : ts.mapM (value? find) = none) :
    ∃ fault, (ts.flatMap subtrees).findSome? (fault? find) = some fault ∧
      FailsWith directory s (ts.flatMap postorder) fault := by
  induction ts generalizing s with
  | nil => cases missing
  | cons t ts ih =>
    obtain ⟨first, others⟩ := List.forall_mem_cons.mp each
    rw [List.flatMap_cons, List.flatMap_cons, List.findSome?_append]
    cases has : t.value? find with
    | none =>
      obtain ⟨fault, earliest, failed⟩ := first.fault path has
      rw [firstFault?] at earliest
      exact ⟨fault, by rw [earliest]; rfl, failed.onFront _⟩
    | some n =>
      have clean : t.subtrees.findSome? (fault? find) = none :=
        List.findSome?_eq_none_iff.mpr (faultless has)
      have later : ts.mapM (value? find) = none := by
        cases values : ts.mapM (value? find) with
        | none => rfl
        | some ns => simp [List.mapM_cons, has, values] at missing
      obtain ⟨fault, earliest, -⟩ := ih others path later
      refine ⟨fault, by rw [clean, earliest]; rfl, .onBack (first.value path has) ?_⟩
      intro u further
      obtain ⟨also, same, failed⟩ := ih others further later
      rw [earliest] at same
      cases same
      exact failed

theorem settles (fixed : ∀ c, directory.Finds start c (find c)) (t : Tree) :
    Settles directory start find t := by
  induction t with
  | number n =>
    refine ⟨fun path has => ?_, fun _ missing => by cases missing⟩
    cases has
    exact .operand path
  | apply op operands ih =>
    have each : ∀ t ∈ List.ofFn operands, Settles directory start find t :=
      List.forall_mem_ofFn_iff.mpr ih
    have fits {args : List Number}
        (values : (List.ofFn operands).mapM (value? find) = some args) :
        args.length = op.arity := by
      rw [values_length values, List.length_ofFn]
    refine ⟨fun path has => ?_, fun path missing => ?_⟩
    · rw [value?_apply, Option.bind_eq_some_iff] at has
      obtain ⟨args, values, applied⟩ := has
      rw [postorder_apply]
      refine (settles_values each path values).apply (fixed op.symbol) (fits values) ?_
      cases outcome : op.outcome args (find op.symbol) with
      | ok m => simpa [outcome, Except.toOption] using applied
      | error fault => simp [outcome, Except.toOption] at applied
    · rw [postorder_apply, firstFault?, subtrees_apply, List.findSome?_append]
      cases values : (List.ofFn operands).mapM (value? find) with
      | none =>
        obtain ⟨fault, earliest, failed⟩ := settles_fault each path values
        exact ⟨fault, by rw [earliest]; rfl, failed.onFront _⟩
      | some args =>
        cases outcome : op.outcome args (find op.symbol) with
        | ok m => simp [value?_apply, values, outcome, Except.toOption] at missing
        | error fault =>
          refine ⟨fault, ?_, .apply (settles_values each path values) (fixed op.symbol)
            (fits values) outcome⟩
          have clean : ((List.ofFn operands).flatMap subtrees).findSome? (fault? find) = none := by
            rw [List.findSome?_eq_none_iff]
            intro u inside
            obtain ⟨t, operand, within⟩ := List.mem_flatMap.mp inside
            obtain ⟨m, has⟩ := has_value values operand
            exact faultless has u within
          simp [clean, fault?, values, outcome]

theorem reduce_short (directory : Directory σ) (short : ns.length < op.arity)
    (rest : List Token) (s : σ) :
    ∃ fault, (directory.reduce (.operator op :: rest) (pushed ns) s).1 = .error fault := by
  have missing : takeArguments op.arity [] (pushed ns) = none :=
    takeArguments_short (by simpa [pushed] using short)
  simp only [reduce]
  cases (directory.find op.symbol s).1 with
  | none => exact ⟨_, rfl⟩
  | some p => exact ⟨.tooFewOperands op.symbol, by simp only [Operator.replaceArguments, missing]⟩

theorem reduce_trees (fixed : ∀ c, directory.Finds start c (find c))
    (plain : ∀ token ∈ tokens, token.isParen = false) (path : Reaches directory start s)
    (values : ts.mapM (value? find) = some ns)
    (ran : (directory.reduce tokens (pushed ns) s).1 = .ok stack) :
    ∃ (us : List Tree) (ms : List Number), us.mapM (value? find) = some ms ∧
      us.flatMap postorder = ts.flatMap postorder ++ tokens ∧ stack = pushed ms := by
  induction tokens generalizing ts ns s with
  | nil =>
    cases ran
    exact ⟨ts, ns, values, by simp, rfl⟩
  | cons token tokens ih =>
    obtain ⟨here, others⟩ := List.forall_mem_cons.mp plain
    cases token with
    | paren side => cases here
    | operand n =>
      have more := values_snoc values (t := .number n) rfl
      have moved : pushed (ns ++ [n]) = .operand n :: pushed ns := pushed_append ns [n]
      rw [reduce, ← moved] at ran
      obtain ⟨us, ms, results, flat, rfl⟩ := ih others path more ran
      exact ⟨us, ms, results, by simp [flat, postorder], rfl⟩
    | operator op =>
      by_cases enough : op.arity ≤ ns.length
      · obtain ⟨front, operands, below, args, rfl, rfl, fits, fronts, applied⟩ :=
          values_split values enough
        rw [pushed_append, reduce_operator (fixed op.symbol) path fits] at ran
        cases outcome : op.outcome args (find op.symbol) with
        | error fault => simp [outcome] at ran
        | ok n =>
          have has : (apply op operands).value? find = some n := by
            simp [value?_apply, applied, outcome, Except.toOption]
          have moved : pushed (below ++ [n]) = .operand n :: pushed below := pushed_append below [n]
          simp only [outcome, ← moved] at ran
          obtain ⟨us, ms, results, flat, rfl⟩ :=
            ih others (.find op.symbol path) (values_snoc fronts has) ran
          exact ⟨us, ms, results, by simp [flat, postorder_apply], rfl⟩
      · obtain ⟨fault, stuck⟩ := directory.reduce_short (Nat.lt_of_not_le enough) tokens s
        rw [stuck] at ran
        cases ran

end Directory

end ShuntingYard
