import ShuntingYard.Scanner
import ShuntingYard.Proofs.Decimal.Longest

-- What the loops of a scanner come to, told by the text that is still to come.
namespace ShuntingYard.Scanner
variable {s later : Scanner} {wanted : Char → Bool} {c : Char} {text : List Char}

def rest (s : Scanner) : List Char := s.source.toList.drop s.position

def onward (count : Nat) (s : Scanner) : Scanner := { s with position := s.position + count }

@[simp] theorem onward_zero (s : Scanner) : s.onward 0 = s := rfl

@[simp] theorem onward_onward (m n : Nat) (s : Scanner) :
    (s.onward m).onward n = s.onward (m + n) := by
  simp only [onward, Nat.add_assoc]

@[simp] theorem rest_onward (count : Nat) (s : Scanner) :
    (s.onward count).rest = s.rest.drop count := by
  simp only [rest, onward, List.drop_drop]

theorem peek_eq (s : Scanner) : s.peek = s.rest.head? := by
  rw [rest, List.head?_drop, Array.getElem?_toList, peek]

theorem position_lt (ahead : s.rest ≠ []) : s.position < s.source.size := by
  simpa [rest] using ahead

theorem next_nil (ended : s.rest = []) : s.next = (none, s) := by
  simp only [next, peek_eq, ended, List.head?_nil]

theorem next_cons (ahead : s.rest = c :: text) : s.next = (some c, s.onward 1) := by
  simp only [next, peek_eq, ahead, List.head?_cons, onward]

theorem view_onward (count : Nat) (s : Scanner) :
    (s.onward count).view s.position = s.rest.take count := by
  have start : min s.position (s.position + count) = s.position :=
    Nat.min_eq_left (Nat.le_add_right ..)
  simp only [view, onward, start, rest, Array.toList_extract, List.extract_eq_take_drop,
    Nat.add_sub_cancel_left]

theorem acceptIf_some (accepted : s.acceptIf wanted = (some c, later)) :
    ∃ text, s.rest = c :: text ∧ wanted c ∧ later = s.onward 1 := by
  rw [acceptIf, peek_eq] at accepted
  cases ahead : s.rest with
  | nil => simp [ahead] at accepted
  | cons d text =>
    simp only [ahead, List.head?_cons, next_cons ahead] at accepted
    split at accepted
    · cases accepted
      exact ⟨text, rfl, ‹_›, rfl⟩
    · cases accepted

theorem acceptIf_refused (refused : s.acceptIf wanted = (none, later)) :
    s.rest.takeWhile wanted = [] := by
  rw [acceptIf, peek_eq] at refused
  cases ahead : s.rest with
  | nil => rfl
  | cons d text =>
    simp only [ahead, List.head?_cons, next_cons ahead] at refused
    split at refused
    · cases refused
    · exact List.takeWhile_cons_of_neg ‹_›

theorem skipWhile_eq (wanted : Char → Bool) (s : Scanner) :
    s.skipWhile wanted =
      (!(s.rest.takeWhile wanted).isEmpty, s.onward (s.rest.takeWhile wanted).length) := by
  fun_induction skipWhile wanted s with
  | case1 s c later accepted ih =>
    obtain ⟨text, ahead, yes, rfl⟩ := acceptIf_some accepted
    rw [ih, rest_onward, ahead, List.takeWhile_cons_of_pos yes, List.drop_one, List.tail_cons,
      onward_onward, List.length_cons, Nat.add_comm 1]
    rfl
  | case2 s later refused =>
    rw [acceptIf_refused refused, acceptIf_none refused]
    rfl

def pending (pointSeen : Bool) (text : List Char) : List Char :=
  if pointSeen then text.takeWhile Char.isDigit else Decimal.run text

theorem pending_digits (pointSeen : Bool) (text : List Char) :
    pending pointSeen text = text.takeWhile Char.isDigit ++
      pending pointSeen (text.drop (text.takeWhile Char.isDigit).length) := by
  have digits : ∀ c ∈ text.takeWhile Char.isDigit, c.isDigit := fun _ => List.mem_takeWhile_imp
  obtain ⟨behind, parts⟩ := List.takeWhile_prefix Char.isDigit (l := text)
  generalize text.takeWhile Char.isDigit = front at digits parts ⊢
  subst parts
  rw [List.drop_left, pending, pending]
  split
  · exact List.takeWhile_append_of_pos digits
  · exact Decimal.run_digits digits behind

theorem skipDecimal_eq (pointSeen : Bool) (s : Scanner) :
    s.skipDecimal pointSeen = s.onward (pending pointSeen s.rest).length := by
  fun_induction skipDecimal pointSeen s with
  | case1 pointSeen s later skipped ih =>
    rw [skipWhile_eq] at skipped
    obtain ⟨-, rfl⟩ := Prod.mk.inj skipped
    rw [ih, onward_onward, rest_onward, pending_digits pointSeen s.rest, List.length_append]
  | case2 s later skipped =>
    rw [skipWhile_none skipped]
    rw [skipWhile_eq] at skipped
    have none : s.rest.takeWhile Char.isDigit = [] := by
      simpa using (Prod.mk.inj skipped).1
    simp [pending, none]
  | case3 pointSeen s same skipped unseen c later accepted ih =>
    cases skipWhile_none skipped
    obtain ⟨text, ahead, point, rfl⟩ := acceptIf_some accepted
    cases beq_iff_eq.mp point
    rw [ih, onward_onward, rest_onward, ahead]
    simp [pending, unseen, Decimal.run_point, Nat.add_comm]
  | case4 pointSeen s same skipped unseen later refused =>
    cases skipWhile_none skipped
    have parted : Decimal.Parted s.rest := by
      rw [skipWhile_eq] at skipped
      have noDigits : s.rest.takeWhile Char.isDigit = [] := by simpa using (Prod.mk.inj skipped).1
      have noPoint := acceptIf_refused refused
      intro c first
      obtain ⟨text, ahead⟩ := List.head?_eq_some_iff.mp first
      simpa [ahead] using And.intro noDigits noPoint
    rw [acceptIf_none refused]
    simp [pending, unseen, Decimal.run_parted parted]

theorem scanDecimal_eq (s : Scanner) : s.scanDecimal =
    if Decimal.run s.rest = [] then (none, s)
    else (some (Decimal.run s.rest), s.onward (Decimal.run s.rest).length) := by
  have last : s.skipDecimal false = s.onward (Decimal.run s.rest).length := skipDecimal_eq false s
  have front := List.prefix_iff_eq_take.mp (Decimal.run_front s.rest)
  unfold scanDecimal
  simp only [last, view_onward, ← front]
  by_cases none : Decimal.run s.rest = []
  · simp [none]
  · simp [none, onward]

theorem readOperand_eq (s : Scanner) : s.readOperand =
    match Decimal.ofRun? (Decimal.run s.rest) with
    | some n => (some n, s.onward (Decimal.run s.rest).length)
    | none => (none, s) := by
  unfold readOperand
  rw [scanDecimal_eq]
  by_cases empty : Decimal.run s.rest = []
  · simp [empty, Decimal.ofRun?]
  · have within : s.position < s.source.size := by
      refine position_lt fun ended => empty ?_
      rw [ended]
      rfl
    simp only [empty, if_false]
    cases Decimal.ofRun? (Decimal.run s.rest) with
    | some n => rfl
    | none => simp [moveTo, onward, Nat.not_lt_of_lt within]

theorem next_scanned (directory : Directory σ) (ahead : s.rest = c :: text) (t : σ) :
    Piece.next directory c text t =
      match s.readOperand with
      | (some n, later) => ⟨.operand n, later.rest, t⟩
      | (none, same) =>
        match same.readOperator directory t with
        | (some op, later, u) => ⟨.operator op, later.rest, u⟩
        | (none, _, u) => ⟨if isBlank c then .blank else Piece.ofSymbol c none, text, u⟩ := by
  rw [readOperand_eq, Piece.next, Decimal.read?, ahead]
  cases Decimal.ofRun? (Decimal.run (c :: text)) with
  | some n => simp only [Option.map_some, rest_onward, ahead]
  | none =>
    simp only [Option.map_none, readOperator, peek_eq, ahead, List.head?_cons, next_cons ahead]
    cases blank : isBlank c with
    | true => rfl
    | false =>
      rcases directory.operator? c t with ⟨_ | op, u⟩
      · rfl
      · simp [rest_onward, ahead, Piece.ofSymbol]

-- The longest run is taken in whole or not at all. The only runs that spell no number are a point
-- alone and an integer that no word holds.
theorem number_read (s : Scanner) :
    ∃ run, (∀ cs, Decimal.LongestRun s.rest cs ↔ cs = run) ∧
      s.scanDecimal = (if run = [] then (none, s) else (some run, s.onward run.length)) ∧
      ((∃ k, s.readOperand.1 = some (.integer k)) ↔
        run ≠ [] ∧ '.' ∉ run ∧ Nat.ofDigitChars 10 run 0 ≤ Int64.maxValue.toInt) ∧
      (∀ k, s.readOperand.1 = some (.integer k) → k.toInt = Nat.ofDigitChars 10 run 0) ∧
      ((∃ x, s.readOperand.1 = some (.float x)) ↔ '.' ∈ run ∧ ∃ c ∈ run, c.isDigit) ∧
      (∀ x, s.readOperand.1 = some (.float x) → ∃ whole fraction, run = whole ++ '.' :: fraction ∧
        x = .ofScientific (Nat.ofDigitChars 10 (whole ++ fraction) 0) true fraction.length) ∧
      (s.readOperand.1 = none ↔
        run = [] ∨ run = ['.'] ∨ '.' ∉ run ∧ Int64.maxValue.toInt < Nat.ofDigitChars 10 run 0) ∧
      s.readOperand.2 = if s.readOperand.1.isSome then s.onward run.length else s := by
  have longest := Decimal.run_longest s.rest
  have read := readOperand_eq s
  have worth := longest.isRun.worth
  have only : ∀ cs, Decimal.LongestRun s.rest cs ↔ cs = Decimal.run s.rest :=
    fun cs => ⟨fun also => also.unique longest, fun same => same ▸ longest⟩
  refine ⟨_, only, scanDecimal_eq s, ?_⟩
  generalize Decimal.run s.rest = run at read worth ⊢
  generalize Decimal.ofRun? run = n at read worth
  have answer : s.readOperand = (n, if n.isSome then s.onward run.length else s) := by
    rw [read]
    cases n <;> rfl
  rw [answer]
  cases worth with
  | empty => simp
  | point => simp
  | @word run k present pointless value =>
    have fits : (Nat.ofDigitChars 10 run 0 : Int) ≤ Int64.maxValue.toInt := value ▸ k.toInt_le
    have noPoint : run ≠ ['.'] := by
      rintro rfl
      exact pointless List.mem_cons_self
    simp [present, pointless, value, fits, noPoint]
  | beyond pointless large =>
    simp [pointless, large]
  | @float _ whole fraction parts digit =>
    have point : '.' ∈ run := by simp [parts]
    have more : run ≠ ['.'] := by
      rintro rfl
      simp at digit
    have value : ∃ front back, run = front ++ '.' :: back ∧
        Float.ofScientific (Nat.ofDigitChars 10 (whole ++ fraction) 0) true fraction.length =
          .ofScientific (Nat.ofDigitChars 10 (front ++ back) 0) true back.length :=
      ⟨whole, fraction, parts, rfl⟩
    simpa [point, more, List.ne_nil_of_mem point] using ⟨digit, value⟩

end ShuntingYard.Scanner
