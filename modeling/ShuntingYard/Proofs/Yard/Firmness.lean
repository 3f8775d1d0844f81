import ShuntingYard.Proofs.Yard.Moment

namespace ShuntingYard

theorem Operator.precedence_le {arriving top : Operator} (stays : ¬ arriving.yieldsTo top) :
    top.precedence ≤ arriving.precedence := by
  cases side : arriving.assoc <;>
    simp only [yieldsTo, side, decide_eq_true_eq] at stays <;> omega

namespace Yard
-- Each operator that waits was put on a stack where it found nothing to yield to. An open
-- parenthesis hides all that lies below it.
inductive Firm : List Held → Prop where
  | empty : Firm []
  | opening : Firm below → Firm (.opening :: below)
  | operator : Firm below → Rests top below → Firm (.operator top :: below)

variable {directory : Directory σ} {m : Moment σ} {source : String} {s : σ} {a b : Operator}
  {stack later below between : List Held} {ops : List Operator}

theorem Firm.suffix (firm : Firm stack) (tail : below <:+ stack) : Firm below := by
  induction firm with
  | empty => exact List.eq_nil_of_suffix_nil tail ▸ .empty
  | opening inner ih =>
    rcases List.suffix_cons_iff.mp tail with rfl | deeper
    · exact .opening inner
    · exact ih deeper
  | operator inner rests ih =>
    rcases List.suffix_cons_iff.mp tail with rfl | deeper
    · exact .operator inner rests
    · exact ih deeper

theorem Firm.shift (firm : Firm stack) (shifted : shift stack piece = .ok (released, later)) :
    Firm later := by
  cases piece with
  | operand n =>
    cases shifted
    exact firm
  | operator arriving =>
    cases shifted
    obtain ⟨parts, -, rests⟩ := release_spec arriving stack
    have kept : Firm (release arriving stack).2 := firm.suffix ⟨_, parts.symm⟩
    exact .operator kept rests
  | paren side =>
    cases side with
    | left =>
      cases shifted
      exact .opening firm
    | right =>
      cases found : toOpening? stack with
      | none => simp [Yard.shift, found] at shifted
      | some result =>
        simp only [Yard.shift, found] at shifted
        cases shifted
        have reopened : result.2 <:+ stack := by
          rw [toOpening_spec found]
          exact (List.suffix_cons ..).trans (List.suffix_append ..)
        exact firm.suffix reopened
  | blank =>
    cases shifted
    exact firm
  | stray c => cases shifted

theorem Leads.firm (path : Leads directory (.begin source s) m) : Firm m.stack := by
  induction path with
  | refl => exact .empty
  | step _ shifted ih => exact ih.shift shifted

-- Neighbours are as they were when the upper one was pushed. From them it goes down the stack,
-- because what does not yield to an operator does not yield past it either.
theorem Firm.stays (firm : Firm (.operator b :: (between ++ .operator a :: below)))
    (level : .opening ∉ between) : ¬ b.yieldsTo a := by
  induction between generalizing b with
  | nil =>
    cases firm with
    | operator _ rests => exact rests
  | cons held between ih =>
    obtain ⟨noOpening, deeper⟩ := List.ne_and_not_mem_of_not_mem_cons level
    cases held with
    | opening => exact absurd rfl noOpening
    | operator top =>
      cases firm with
      | operator inner rests =>
        intro yields
        exact rests (Operator.yieldsTo_above yields (ih inner deeper))

theorem Firm.release (firm : Firm (ops.map .operator ++ below))
    (bottom : below = [] ∨ ∃ deeper, below = .opening :: deeper) (arriving : Operator) :
    release arriving (ops.map .operator ++ below) =
      (ops.filter arriving.yieldsTo,
        (ops.filter fun op => !arriving.yieldsTo op).map .operator ++ below) := by
  induction ops with
  | nil =>
    rcases bottom with rfl | ⟨deeper, rfl⟩
    · rfl
    · rfl
  | cons top ops ih =>
    have inner : Firm (ops.map .operator ++ below) := firm.suffix (List.suffix_cons ..)
    by_cases yields : arriving.yieldsTo top
    · simp [Yard.release, yields, ih inner]
    -- Were there one further down, the operator would yield to this one as well.
    · have others : ∀ op ∈ ops, ¬ arriving.yieldsTo op := by
        intro op listed further
        obtain ⟨front, back, rfl⟩ := List.append_of_mem listed
        have apart : Firm (.operator top ::
            (front.map .operator ++ .operator op :: (back.map .operator ++ below))) := by
          simpa using firm
        exact yields (Operator.yieldsTo_above further (apart.stays (by simp)))
      have none : ops.filter arriving.yieldsTo = [] := List.filter_eq_nil_iff.mpr others
      have all : (ops.filter fun op => !arriving.yieldsTo op) = ops :=
        List.filter_eq_self.mpr fun op listed => by simpa using others op listed
      simp [Yard.release, yields, none, all]

theorem waiting_part (stack : List Held) :
    ∃ (ops : List Operator) (below : List Held), stack = ops.map .operator ++ below ∧
      (below = [] ∨ ∃ deeper, below = .opening :: deeper) := by
  induction stack with
  | nil => exact ⟨[], [], rfl, .inl rfl⟩
  | cons held stack ih =>
    cases held with
    | opening => exact ⟨[], _, rfl, .inr ⟨stack, rfl⟩⟩
    | operator top =>
      obtain ⟨ops, below, parts, bottom⟩ := ih
      exact ⟨top :: ops, below, congrArg (.operator top :: ·) parts, bottom⟩

theorem waiting_order (path : Leads directory (.begin source s) m) (tail : stack <:+ m.stack) :
    (∀ held ∈ stack, held = .opening ∨
      ∃ op c t, held = .operator op ∧ Creates directory (.begin source s) c t op) ∧
    (∀ above b between a below,
      stack = above ++ .operator b :: (between ++ .operator a :: below) → .opening ∉ between →
        a.precedence ≤ b.precedence ∧ b.yieldsTo a = false) ∧
    ∃ (ops : List Operator) (below : List Held), stack = ops.map .operator ++ below ∧
      (below = [] ∨ ∃ deeper, below = .opening :: deeper) ∧
      ∀ arriving : Operator, shift stack (.operator arriving) =
        .ok ((ops.filter arriving.yieldsTo).map .overtaken,
          .operator arriving ::
            ((ops.filter fun op => !arriving.yieldsTo op).map .operator ++ below)) := by
  have firm : Firm stack := path.firm.suffix tail
  refine ⟨?_, ?_, ?_⟩
  · intro held listed
    cases held with
    | opening => exact .inl rfl
    | operator op =>
      obtain ⟨c, t, created⟩ := path.created (.inl (tail.subset listed))
      exact .inr ⟨op, c, t, rfl, created⟩
  · intro above b between a below parts level
    have stays : ¬ b.yieldsTo a := (firm.suffix ⟨above, parts.symm⟩).stays level
    exact ⟨Operator.precedence_le stays, by simpa using stays⟩
  · obtain ⟨ops, below, parts, bottom⟩ := waiting_part stack
    refine ⟨ops, below, parts, bottom, fun arriving => ?_⟩
    rw [parts] at firm ⊢
    simp only [shift, firm.release bottom]

def mixed : Provider where
  claims c := c = '<' ∨ c = '>' ∨ c = '*'
  create
    | '<' => some ⟨'<', .left, 1, 2⟩
    | '>' => some ⟨'>', .right, 1, 2⟩
    | '*' => some ⟨'*', .left, 2, 2⟩
    | _ => none
  operate op _ := .error (.unsupported op.symbol)

theorem waiting_order_reopened :
    let directory := Directory.fixed fun c => if mixed.claims c then some mixed else none
    let times : Operator := ⟨'*', .left, 2, 2⟩
    let greater : Operator := ⟨'>', .right, 1, 2⟩
    Leads directory (.begin ">()*" ()) ⟨[], [.operator times, .operator greater], [], ()⟩ ∧
      (∃ c s, Creates directory (.begin ">()*" ()) c s greater) ∧
      greater.precedence ≤ times.precedence ∧ times.yieldsTo greater = false := by
  intro directory times greater
  have text : ">()*".toList = ['>', '(', ')', '*'] := by decide
  have path : Leads directory (.begin ">()*" ())
      ⟨[], [.operator times, .operator greater], [], ()⟩ := by
    have one : Leads directory (.begin ">()*" ()) ⟨['(', ')', '*'], [.operator greater], [], ()⟩ :=
      .step (by rw [Moment.begin, text]; exact .refl)
        (show shift [] (Piece.next directory '>' ['(', ')', '*'] ()).piece =
          .ok ([], [.operator greater]) by rfl)
    have two : Leads directory (.begin ">()*" ())
        ⟨[')', '*'], [.opening, .operator greater], [], ()⟩ :=
      .step one
        (show shift _ (Piece.next directory '(' [')', '*'] ()).piece = .ok ([], _) by rfl)
    have three : Leads directory (.begin ">()*" ()) ⟨['*'], [.operator greater], [], ()⟩ :=
      .step two (show shift _ (Piece.next directory ')' ['*'] ()).piece = .ok ([], _) by rfl)
    exact .step three (show shift _ (Piece.next directory '*' [] ()).piece = .ok ([], _) by rfl)
  obtain ⟨entries, order, -⟩ := waiting_order path List.suffix_rfl
  have created := entries (.operator greater) (by simp)
  exact ⟨path, by simpa using created, order [] times [] greater [] rfl (by simp)⟩

end Yard
end ShuntingYard
