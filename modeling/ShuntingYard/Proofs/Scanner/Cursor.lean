import ShuntingYard.Scanner.Request
import ShuntingYard.Proofs.Registry.Settling
import ShuntingYard.Proofs.Scanner.Reading

namespace ShuntingYard.Scanner

def Answer.refuses : Answer → Bool
  | count _ => false
  | flag holds => !holds
  | char c => c.isNone
  | chars _ => false
  | text _ => false
  | run cs => cs.isNone
  | operand n => n.isNone
  | operator op => op.isNone

-- The cursor has gone on within its text, and not at all if it refused.
def Goes (s : Scanner) (refused : Bool) (later : Scanner) : Prop :=
  ∃ count ≤ s.rest.length, later = s.onward count ∧ (refused → count = 0)

-- All lookups that the requests lead to come to an end. From one that does not there is no answer
-- to any request behind it.
def Returns (r : Registry) : List Request → Scanner → Registry.State → Prop
  | [], _, _ => True
  | request :: rest, s, t =>
    (request = .readOperator → ∀ c, s.peek = some c → isBlank c = false →
      ∃ found, r.Ends (.lookup .parser c) t found) ∧
    let later := (s.perform (r.directory .parser) request t).2
    Returns r rest later.1 later.2

variable {directory : Directory σ} {s later : Scanner} {t : σ} {request : Request}
  {requests further : List Request}

theorem length_rest (s : Scanner) : s.rest.length = s.source.size - s.position := by
  rw [rest, List.length_drop, Array.length_toList]

theorem view_eq (start : Nat) (s : Scanner) :
    s.view start = (s.source.toList.take s.position).drop (min start s.position) := by
  rw [view, Array.toList_extract, List.extract_eq_take_drop, List.drop_take]

theorem view_drop (start : Nat) (s : Scanner) :
    s.view start = (s.source.toList.take s.position).drop start := by
  rw [view_eq]
  by_cases behind : start ≤ s.position
  · rw [Nat.min_eq_left behind]
  · have short : (s.source.toList.take s.position).length ≤ s.position := List.length_take_le ..
    have ahead : s.position ≤ start := Nat.le_of_not_le behind
    rw [Nat.min_eq_right ahead, List.drop_of_length_le short,
      List.drop_of_length_le (short.trans ahead)]

theorem Goes.stays (s : Scanner) (refused : Bool) : s.Goes refused s :=
  ⟨0, Nat.zero_le _, rfl, fun _ => rfl⟩

theorem next_goes (s : Scanner) : s.Goes s.next.1.isNone s.next.2 := by
  cases ahead : s.rest with
  | nil =>
    rw [next_nil ahead]
    exact .stays s _
  | cons c text =>
    rw [next_cons ahead]
    exact ⟨1, by simp [ahead], rfl, by simp⟩

theorem nth_eq (count : Nat) (s : Scanner) :
    s.nth count = (s.rest[count]?, s.onward (min (count + 1) s.rest.length)) := by
  induction count generalizing s with
  | zero =>
    cases ahead : s.rest with
    | nil => simp [nth, next_nil ahead]
    | cons c text => simp [nth, next_cons ahead]
  | succ count ih =>
    cases ahead : s.rest with
    | nil => simp [nth, next_nil ahead]
    | cons c text => simp [nth, next_cons ahead, ih, ahead, Nat.add_comm 1]

theorem nth_goes (count : Nat) (s : Scanner) :
    ∃ passed ≤ s.rest.length, (s.nth count).2 = s.onward passed ∧
      ((s.nth count).1.isNone → passed = s.rest.length) := by
  rw [nth_eq]
  refine ⟨_, Nat.min_le_right .., rfl, fun none => ?_⟩
  have short : s.rest.length ≤ count := by simpa using none
  exact Nat.min_eq_right (Nat.le_succ_of_le short)

theorem acceptIf_goes (wanted : Char → Bool) (s : Scanner) :
    s.Goes (s.acceptIf wanted).1.isNone (s.acceptIf wanted).2 := by
  rcases answered : s.acceptIf wanted with ⟨_ | c, later⟩
  · rw [acceptIf_none answered]
    exact .stays s _
  · obtain ⟨text, ahead, -, rfl⟩ := acceptIf_some answered
    exact ⟨1, by simp [ahead], rfl, by simp⟩

theorem skipWhile_goes (wanted : Char → Bool) (s : Scanner) :
    s.Goes (!(s.skipWhile wanted).1) (s.skipWhile wanted).2 := by
  rw [skipWhile_eq]
  exact ⟨_, (List.takeWhile_sublist wanted).length_le, rfl, by simp⟩

theorem scanDecimal_goes (s : Scanner) : s.Goes s.scanDecimal.1.isNone s.scanDecimal.2 := by
  rw [scanDecimal_eq]
  split
  · exact .stays s _
  · exact ⟨_, (Decimal.run_front s.rest).length_le, rfl, by simp⟩

theorem readOperand_goes (s : Scanner) : s.Goes s.readOperand.1.isNone s.readOperand.2 := by
  rw [readOperand_eq]
  split
  · exact ⟨_, (Decimal.run_front s.rest).length_le, rfl, by simp⟩
  · exact .stays s _

theorem readOperator_goes (directory : Directory σ) (s : Scanner) (t : σ) :
    s.Goes (s.readOperator directory t).1.isNone (s.readOperator directory t).2.1 := by
  unfold readOperator
  cases ahead : s.rest with
  | nil =>
    rw [peek_eq, ahead]
    exact .stays s _
  | cons c text =>
    rw [peek_eq, ahead, next_cons ahead]
    dsimp only [List.head?_cons]
    split
    · exact .stays s _
    · split
      · exact ⟨1, by simp [ahead], rfl, by simp⟩
      · exact .stays s _

theorem perform_goes (directory : Directory σ) (still : ∀ n, request ≠ .moveTo n) (s : Scanner)
    (t : σ) :
    ∃ count ≤ s.rest.length, (s.perform directory request t).2.1 = s.onward count ∧
      ((s.perform directory request t).1.refuses → count =
        match request with
        | .nth _ => s.rest.length
        | _ => 0) := by
  cases request with
  | moveTo n => exact absurd rfl (still n)
  | nth count => exact nth_goes count s
  | next => exact next_goes s
  | accept c => exact acceptIf_goes _ s
  | acceptAny wanted => exact acceptIf_goes _ s
  | skipAll wanted => exact skipWhile_goes _ s
  | skipBlanks => exact skipWhile_goes _ s
  | takeRest =>
    obtain ⟨count, within, same, -⟩ := skipWhile_goes (fun _ => true) s
    exact ⟨count, within, same, by simp [perform, Answer.refuses]⟩
  | scanDecimal => exact scanDecimal_goes s
  | readOperand => exact readOperand_goes s
  | readOperator => exact readOperator_goes directory s t
  | _ => exact Goes.stays s _

theorem moveTo_eq (n : Nat) (s : Scanner) :
    s.moveTo n = if n ≤ s.source.size then (true, { s with position := n }) else (false, s) := by
  unfold moveTo
  by_cases within : n ≤ s.source.size
  · rw [if_pos within, if_neg (Nat.not_lt_of_le within)]
  · rw [if_neg within, if_pos (Nat.lt_of_not_le within)]

theorem onward_within (short : count ≤ s.rest.length) (within : s.position ≤ s.source.size) :
    (s.onward count).position ≤ s.source.size := by
  rw [length_rest] at short
  simp only [onward]
  omega

theorem perform_within (directory : Directory σ) (request : Request)
    (within : s.position ≤ s.source.size) (t : σ) :
    (s.perform directory request t).2.1.source = s.source ∧
      (s.perform directory request t).2.1.position ≤ s.source.size := by
  by_cases moving : ∃ n, request = .moveTo n
  · obtain ⟨n, rfl⟩ := moving
    simp only [perform, moveTo_eq]
    split
    · exact ⟨rfl, ‹_›⟩
    · exact ⟨rfl, within⟩
  · have still : ∀ n, request ≠ .moveTo n := fun n same => moving ⟨n, same⟩
    obtain ⟨count, short, moved, -⟩ := perform_goes directory still s t
    rw [moved]
    exact ⟨rfl, onward_within short within⟩

theorem performAll_within (directory : Directory σ) (requests : List Request)
    (within : s.position ≤ s.source.size) (t : σ) :
    (performAll directory requests s t).2.1.source = s.source ∧
      (performAll directory requests s t).2.1.position ≤ s.source.size := by
  induction requests generalizing s t with
  | nil => exact ⟨rfl, within⟩
  | cons request rest ih =>
    obtain ⟨same, first⟩ := perform_within directory request within t
    rw [← same] at first
    obtain ⟨also, last⟩ := ih first (s.perform directory request t).2.2
    exact ⟨also.trans same, same ▸ last⟩

theorem performAll_append (directory : Directory σ) (requests further : List Request)
    (s : Scanner) (t : σ) : performAll directory (requests ++ further) s t =
      let first := performAll directory requests s t
      let second := performAll directory further first.2.1 first.2.2
      (first.1 ++ second.1, second.2) := by
  induction requests generalizing s t with
  | nil => rfl
  | cons request rest ih => simp only [List.cons_append, performAll, ih]

section Replay
variable {r : Registry} {base t u : Registry.State}

theorem returns_append : Returns r (requests ++ further) s t ↔
    Returns r requests s t ∧
      let first := performAll (r.directory .parser) requests s t
      Returns r further first.2.1 first.2.2 := by
  induction requests generalizing s t with
  | nil => simp [Returns, performAll]
  | cons request rest ih => simp only [List.cons_append, Returns, performAll, ih, and_assoc]

theorem returns_ranked (ranked : r.Ranked rank) (requests : List Request) (s : Scanner)
    (t : Registry.State) : Returns r requests s t := by
  induction requests generalizing s t with
  | nil => trivial
  | cons request rest ih =>
    exact ⟨fun _ c _ _ => ⟨_, Registry.lookup_ends ranked .parser c t⟩, ih _ _⟩

theorem perform_silent (directory : Directory σ) (other : request ≠ .readOperator) (s : Scanner) :
    ∃ answer later, ∀ t, s.perform directory request t = (answer, later, t) := by
  cases request with
  | readOperator => exact absurd rfl other
  | _ => exact ⟨_, _, fun _ => rfl⟩

theorem perform_alike (one : r.Follows base t) (two : r.Follows base u)
    (ends : request = .readOperator → ∀ c, s.peek = some c → isBlank c = false →
      ∃ found, r.Ends (.lookup .parser c) t found) :
    let first := s.perform (r.directory .parser) request t
    let second := s.perform (r.directory .parser) request u
    first.1 = second.1 ∧ first.2.1 = second.2.1 ∧
      r.Follows base first.2.2 ∧ r.Follows base second.2.2 := by
  intro first second
  by_cases reading : request = .readOperator
  · subst reading
    have ends := ends rfl
    simp only [first, second, perform, readOperator]
    cases here : s.peek with
    | none => exact ⟨rfl, rfl, one, two⟩
    | some c =>
      dsimp only
      cases blank : isBlank c with
      | true => exact ⟨rfl, rfl, one, two⟩
      | false =>
        obtain ⟨found, ended⟩ := ends c here blank
        obtain ⟨answers, -⟩ := ended.told one
        obtain ⟨same, early⟩ := one.lookup answers
        obtain ⟨also, late⟩ := two.lookup answers
        have created : ((r.directory .parser).operator? c t).1 =
            ((r.directory .parser).operator? c u).1 := by
          simp only [Directory.operator?, Registry.directory, same, also]
        have left : r.Follows base ((r.directory .parser).operator? c t).2 := early
        have right : r.Follows base ((r.directory .parser).operator? c u).2 := late
        generalize (r.directory .parser).operator? c t = early at created left ⊢
        generalize (r.directory .parser).operator? c u = late at created right ⊢
        obtain ⟨op, t⟩ := early
        obtain ⟨_, u⟩ := late
        cases created
        cases op <;> exact ⟨rfl, rfl, left, right⟩
  · obtain ⟨answer, later, performed⟩ := perform_silent (r.directory .parser) reading s
    have left : first = (answer, later, t) := performed t
    have right : second = (answer, later, u) := performed u
    rw [left, right]
    exact ⟨rfl, rfl, one, two⟩

theorem performAll_alike (one : r.Follows base t) (two : r.Follows base u)
    (returns : Returns r requests s t) :
    let first := performAll (r.directory .parser) requests s t
    let second := performAll (r.directory .parser) requests s u
    first.1 = second.1 ∧ r.Follows base first.2.2 := by
  induction requests generalizing s t u with
  | nil => exact ⟨rfl, one⟩
  | cons request rest ih =>
    obtain ⟨ends, onward⟩ := returns
    obtain ⟨answer, moved, early, late⟩ := perform_alike one two ends
    obtain ⟨answers, last⟩ := ih early late onward
    rw [moved] at answers
    refine ⟨?_, last⟩
    simp only [performAll, answer, moved] at answers ⊢
    rw [answers]

theorem performAll_again (within : s.position ≤ s.source.size) (between : List Request) :
    let back := (performAll (r.directory .parser) (between ++ [.moveTo s.position]) s t).2
    back.1 = s ∧ ∀ further, Returns r (between ++ .moveTo s.position :: further) s t →
      (performAll (r.directory .parser) further back.1 back.2).1 =
        (performAll (r.directory .parser) further s t).1 := by
  intro back
  obtain ⟨same, -⟩ := performAll_within (r.directory .parser) between within t
  have returned : back.1 = s := by
    simp only [back, performAll_append, performAll, perform, moveTo_eq, same, if_pos within]
  refine ⟨returned, fun further returns => ?_⟩
  have split : between ++ .moveTo s.position :: further =
      (between ++ [.moveTo s.position]) ++ further := by simp
  rw [split, returns_append] at returns
  obtain ⟨-, later⟩ := performAll_alike (.refl r t) (.refl r t) returns.1
  obtain ⟨answers, -⟩ := performAll_alike later (.refl r t) returns.2
  rw [returned] at answers ⊢
  exact answers

end Replay

end ShuntingYard.Scanner
