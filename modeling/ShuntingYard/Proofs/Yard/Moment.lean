import ShuntingYard.Proofs.Course
import ShuntingYard.Proofs.Decimal.Continuation
import ShuntingYard.Proofs.Yard.Stack

namespace ShuntingYard

theorem Emission.token_plain (emission : Emission) : emission.token.isParen = false := by
  cases emission <;> rfl

namespace Piece
variable {directory : Directory σ} {c : Char} {rest : List Char} {s : σ} {op : Operator}

theorem next_suffix (directory : Directory σ) (c : Char) (rest : List Char) (s : σ) :
    (next directory c rest s).rest <:+ c :: rest := by
  unfold next
  split
  · rename_i read
    obtain ⟨m, -, same⟩ := Option.map_eq_some_iff.mp read
    rw [← (Prod.mk.inj same).2]
    exact List.drop_suffix _ _
  · split <;> exact List.suffix_cons c rest

theorem next_operator (cut : (next directory c rest s).piece = .operator op) :
    Decimal.read? (c :: rest) = none ∧ isBlank c = false ∧
      (directory.operator? c s).1 = some op := by
  unfold next at cut
  split at cut
  · cases cut
  · rename_i unread
    split at cut
    · cases cut
    · rename_i noBlank
      refine ⟨unread, by simpa using noBlank, ?_⟩
      cases found : (directory.operator? c s).1 with
      | some other =>
        simp only [found, ofSymbol] at cut
        cases cut
        rfl
      | none =>
        simp only [found, ofSymbol] at cut
        split at cut
        · cases cut
        · split at cut <;> cases cut

theorem next_read (cut : (next directory c rest s).piece = .operand n) :
    ∃ left, Decimal.read? (c :: rest) = some (n, left) := by
  unfold next at cut
  split at cut
  · rename_i read
    cases cut
    exact ⟨_, read⟩
  · split at cut
    · cases cut
    · simp only [ofSymbol] at cut
      split at cut
      · cases cut
      · split at cut
        · cases cut
        · split at cut <;> cases cut

end Piece

namespace Yard

-- Where the reading of a text stands between two pieces: the text that is left, the stack, what has
-- left the yard, latest first, and the state behind the directory.
structure Moment (σ : Type) where
  text : List Char
  stack : List Held
  emitted : List Emission
  state : σ

def Moment.run (directory : Directory σ) (m : Moment σ) : Outcome × σ :=
  Yard.run directory m.text m.stack m.emitted m.state

def Moment.begin (source : String) (s : σ) : Moment σ := ⟨source.toList, [], [], s⟩

inductive Leads (directory : Directory σ) (start : Moment σ) : Moment σ → Prop where
  | refl : Leads directory start start
  | step (path : Leads directory start ⟨c :: rest, stack, emitted, s⟩)
      (shifted : shift stack (Piece.next directory c rest s).piece = .ok (released, later)) :
      Leads directory start
        ⟨(Piece.next directory c rest s).rest, later, released.reverse ++ emitted,
          directory.record (released.filterMap Emission.event?)
            (Piece.next directory c rest s).state⟩

variable {directory : Directory σ} {start m n : Moment σ} {s : σ} {op : Operator} {c : Char}

theorem Leads.trans (one : Leads directory start m) (two : Leads directory m n) :
    Leads directory start n := by
  induction two with
  | refl => exact one
  | step _ shifted ih => exact .step ih shifted

theorem Leads.run (path : Leads directory start m) : start.run directory = m.run directory := by
  induction path with
  | refl => rfl
  | step _ shifted ih =>
    rw [ih]
    unfold Moment.run
    rw [Yard.run]
    simp only [shifted]

theorem Leads.suffix (path : Leads directory start m) : m.text <:+ start.text := by
  induction path with
  | refl => exact List.suffix_rfl
  | step _ _ ih => exact (Piece.next_suffix directory _ _ _).trans ih

theorem works_onward (directory : Directory σ) (c : Char) (rest : List Char) (stack : List Held)
    (emitted : List Emission) (s : σ) :
    directory.Works (Piece.next directory c rest s).state
      (Moment.run directory ⟨c :: rest, stack, emitted, s⟩).2 := by
  unfold Moment.run
  rw [Yard.run]
  dsimp only
  split
  · exact .refl
  · rename_i released later _
    have told := Directory.works_record directory _ (Directory.events_plain released)
      (Piece.next directory c rest s).state
    exact told.trans (Directory.works_run _ _ _ _)

theorem leads_to_end (accepted : (start.run directory).1.fault = none) :
    ∃ m last, Leads directory start m ∧ m.text = [] ∧ finish m.stack = .ok last ∧
      (start.run directory).1.emitted = m.emitted.reverse ++ last := by
  obtain ⟨text, stack, emitted, s⟩ := start
  unfold Moment.run at accepted ⊢
  fun_induction Yard.run directory text stack emitted s with
  | case1 stack emitted s last finished => exact ⟨_, last, .refl, rfl, finished, rfl⟩
  | case2 => cases accepted
  | case3 => cases accepted
  | case4 stack emitted s c rest next released later shifted =>
    rename_i ih
    obtain ⟨m, last, path, ending, finished, output⟩ := ih accepted
    exact ⟨m, last, (Leads.step .refl shifted).trans path, ending, finished, output⟩

def Moment.Holds (m : Moment σ) (op : Operator) : Prop :=
  .operator op ∈ m.stack ∨ .operator op ∈ m.emitted.map Emission.token

theorem shift_holds (shifted : shift stack piece = .ok (released, later))
    (held : .operator op ∈ later ∨ .operator op ∈ released.map Emission.token) :
    .operator op ∈ stack ∨ piece = .operator op := by
  cases piece with
  | operand n =>
    cases shifted
    simpa [Emission.token] using held
  | operator arriving =>
    cases shifted
    obtain ⟨parts, -, -⟩ := release_spec arriving stack
    rw [map_overtaken] at held
    rw [parts]
    simp only [List.mem_cons, List.mem_append, List.mem_map, Held.operator.injEq,
      Token.operator.injEq, Piece.operator.injEq] at held ⊢
    rcases held with (same | below) | above
    · exact .inr same.symm
    · exact .inl (.inr below)
    · exact .inl (.inl above)
  | paren side =>
    cases side with
    | left =>
      cases shifted
      simpa using held
    | right =>
      cases found : toOpening? stack with
      | none => simp [shift, found] at shifted
      | some result =>
        simp only [shift, found] at shifted
        cases shifted
        rw [map_closed] at held
        rw [toOpening_spec found]
        simp only [List.mem_append, List.mem_map, List.mem_cons, Held.operator.injEq,
          Token.operator.injEq] at held ⊢
        rcases held with below | above
        · exact .inl (.inr (.inr below))
        · exact .inl (.inl above)
  | blank =>
    cases shifted
    simpa using held
  | stray c => cases shifted

theorem shift_read (shifted : shift stack piece = .ok (released, later))
    (left : .read value ∈ released) : piece = .operand value := by
  cases piece with
  | operand m =>
    cases shifted
    cases List.mem_singleton.mp left
    rfl
  | operator arriving =>
    cases shifted
    simp at left
  | paren side =>
    cases side with
    | left =>
      cases shifted
      simp at left
    | right =>
      simp only [shift] at shifted
      split at shifted
      · cases shifted
        simp at left
      · cases shifted
  | blank =>
    cases shifted
    simp at left
  | stray c => cases shifted

inductive Creates (directory : Directory σ) (start : Moment σ) (c : Char) (s : σ) (op : Operator) :
    Prop where
  | intro (path : Leads directory start ⟨c :: rest, stack, emitted, s⟩)
      (unread : Decimal.read? (c :: rest) = none) (noBlank : isBlank c = false)
      (created : (directory.operator? c s).1 = some op)

theorem Creates.from_text (created : Creates directory start c s op) : c ∈ start.text := by
  obtain ⟨path, -, -, -⟩ := created
  exact path.suffix.subset List.mem_cons_self

theorem Leads.created (path : Leads directory (.begin source s) m) (held : m.Holds op) :
    ∃ c u, Creates directory (.begin source s) c u op := by
  induction path with
  | refl => simp [Moment.Holds, Moment.begin] at held
  | @step c rest stack emitted u released later path shifted ih =>
    simp only [Moment.Holds, List.map_append, List.map_reverse, List.mem_append,
      List.mem_reverse] at held ih
    have origin : (.operator op ∈ stack ∨ .operator op ∈ emitted.map Emission.token) ∨
        (Piece.next directory c rest u).piece = .operator op := by
      rcases held with waiting | left | earlier
      · exact (shift_holds shifted (.inl waiting)).imp_left .inl
      · exact (shift_holds shifted (.inr left)).imp_left .inl
      · exact .inl (.inr earlier)
    rcases origin with before | now
    · exact ih before
    · obtain ⟨unread, noBlank, created⟩ := Piece.next_operator now
      exact ⟨c, u, .intro path unread noBlank created⟩

theorem Leads.read (path : Leads directory (.begin source s) m)
    (left : .read value ∈ m.emitted) :
    ∃ text rest, text <:+ source.toList ∧ Decimal.read? text = some (value, rest) := by
  induction path with
  | refl => simp [Moment.begin] at left
  | @step c rest stack emitted u released later path shifted ih =>
    simp only [List.mem_append, List.mem_reverse] at left
    rcases left with now | before
    · obtain ⟨behind, read⟩ := Piece.next_read (shift_read shifted now)
      exact ⟨c :: rest, behind, path.suffix, read⟩
    · exact ih before

end Yard

namespace Directory
open Yard
variable {directory : Directory σ} {source : String} {s : σ} {program : Program} {op : Operator}

theorem parse_run (accepted : (directory.parse source s).1 = .ok program) :
    ((Moment.begin source s).run directory).1.fault = none ∧
      program.tokens = ((Moment.begin source s).run directory).1.emitted.map Emission.token := by
  unfold parse at accepted
  dsimp only at accepted
  split at accepted
  · rename_i sound
    cases accepted
    exact ⟨sound, rfl⟩
  · cases accepted

theorem works_ended (directory : Directory σ) (source : String) (s : σ) :
    Works directory ((Moment.begin source s).run directory).2 (directory.parse source s).2 := by
  unfold parse
  dsimp only
  split
  · exact .note _ rfl .refl
  · exact .refl

theorem parse_plain (accepted : (directory.parse source s).1 = .ok program) :
    ∀ token ∈ program.tokens, token.isParen = false := by
  intro token listed
  rw [(parse_run accepted).2] at listed
  obtain ⟨emission, -, rfl⟩ := List.mem_map.mp listed
  exact emission.token_plain

theorem parse_created (accepted : (directory.parse source s).1 = .ok program)
    (listed : .operator op ∈ program.tokens) :
    ∃ c u, Creates directory (.begin source s) c u op := by
  obtain ⟨sound, tokens⟩ := parse_run accepted
  obtain ⟨m, last, path, -, finished, output⟩ := leads_to_end sound
  refine path.created ?_
  rw [tokens, output, List.map_append, List.map_reverse, List.mem_append, List.mem_reverse] at listed
  refine listed.symm.imp_left fun atEnd => ?_
  cases drained : drain? m.stack with
  | none => simp [finish, drained] at finished
  | some ops =>
    simp only [finish, drained] at finished
    cases finished
    rw [map_ended] at atEnd
    rw [drain_spec drained]
    simpa using atEnd

theorem parse_read (accepted : (directory.parse source s).1 = .ok program)
    (listed : .operand n ∈ program.tokens) :
    ∃ text rest, text <:+ source.toList ∧ Decimal.read? text = some (n, rest) := by
  obtain ⟨sound, tokens⟩ := parse_run accepted
  obtain ⟨m, last, path, -, finished, output⟩ := leads_to_end sound
  refine path.read ?_
  have released : .read n ∈ m.emitted.reverse ++ last := by
    rw [tokens, output] at listed
    obtain ⟨emission, left, same⟩ := List.mem_map.mp listed
    cases emission <;> cases same
    exact left
  have ended : .read n ∉ last := by
    unfold finish at finished
    split at finished <;> cases finished
    simp
  exact List.mem_reverse.mp ((List.mem_append.mp released).resolve_right ended)

end Directory
end ShuntingYard
