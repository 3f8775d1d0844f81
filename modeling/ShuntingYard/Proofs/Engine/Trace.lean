import Mathlib
import ShuntingYard.Proofs.Engine.Parsing
import ShuntingYard.Proofs.Registry.Lookup
import ShuntingYard.Proofs.Yard.Trace

namespace ShuntingYard

def Event.isTrace : Event → Bool
  | operandRead _ => true
  | operatorReleased _ => true
  | _ => false

def Token.role : Token → String
  | operand _ => "operand"
  | operator _ => "operator"
  | paren _ => "parenthesis"

def History.told (history : History) : List Event :=
  history.reverse.filter fun event => !event.isLookup

namespace Directory
variable {directory : Directory σ} {told : σ → List Event}

-- All that has been noted about expressions so far, in order. Lookups add nothing to it.
structure Tells (directory : Directory σ) (told : σ → List Event) : Prop where
  found : ∀ c s, told (directory.find c s).2 = told s
  noted : ∀ event s, event.isLookup = false → told (directory.note event s) = told s ++ [event]

theorem Tells.recorded (tells : directory.Tells told) (events : List Event)
    (plain : ∀ event ∈ events, event.isLookup = false) (s : σ) :
    told (directory.record events s) = told s ++ events := by
  induction events generalizing s with
  | nil => exact (List.append_nil _).symm
  | cons event rest ih =>
    obtain ⟨first, others⟩ := List.forall_mem_cons.mp plain
    have onward : told (directory.record (event :: rest) s) = _ :=
      ih others (directory.note event s)
    rw [onward, tells.noted event s first, List.append_assoc, List.singleton_append]

theorem Tells.next (tells : directory.Tells told) (c : Char) (rest : List Char) (s : σ) :
    told (Piece.next directory c rest s).state = told s := by
  unfold Piece.next
  split
  · rfl
  · split
    · rfl
    · exact tells.found c s

theorem run_told (tells : directory.Tells told) (text : List Char) (stack : List Held)
    (emitted : List Emission) (s : σ) :
    ∃ later, (Yard.run directory text stack emitted s).1.emitted = emitted.reverse ++ later ∧
      told (Yard.run directory text stack emitted s).2 =
        told s ++ later.filterMap Emission.event? := by
  fun_induction Yard.run directory text stack emitted s with
  | case1 stack emitted s last finished =>
    have silent : last.filterMap Emission.event? = [] := by
      unfold Yard.finish at finished
      split at finished <;> cases finished
      simp [Emission.event?]
    exact ⟨last, rfl, by rw [silent, List.append_nil]⟩
  | case2 stack emitted s => exact ⟨[], by simp, by simp⟩
  | case3 stack emitted s c rest next => exact ⟨[], by simp, by simpa using tells.next c rest s⟩
  | case4 stack emitted s c rest next released later shifted =>
    rename_i ih
    obtain ⟨more, output, onward⟩ := ih
    have same : told next.state = told s := tells.next c rest s
    refine ⟨released ++ more, by simpa using output, ?_⟩
    rw [onward, tells.recorded _ (events_plain released), same, List.append_assoc,
      List.filterMap_append]

end Directory

theorem events_lines (emitted : List Emission) :
    (emitted.filterMap Emission.event?).filterMap Event.line? =
      (emitted.filterMap Emission.noticed?).map
        fun token => s!"TRACE {token.role} {token.text}" := by
  induction emitted with
  | nil => rfl
  | cons emission rest ih =>
    cases emission with
    | read n => exact congrArg (_ :: ·) ih
    | overtaken op => exact congrArg (_ :: ·) ih
    | closed op => exact ih
    | ended op => exact ih

theorem events_trace (emitted : List Emission) :
    ∀ event ∈ emitted.filterMap Emission.event?, event.isTrace := by
  intro event noted
  obtain ⟨emission, -, told⟩ := List.mem_filterMap.mp noted
  cases emission <;> cases told <;> rfl

theorem records_trace {records : List Event} {emitted : List Emission}
    (noted : (records.filter fun event => !event.isLookup) = emitted.filterMap Emission.event?) :
    records.filter Event.isTrace = emitted.filterMap Emission.event? ∧
      ∀ program, .parsed program ∉ records := by
  have all := events_trace emitted
  rw [← noted] at all ⊢
  refine ⟨?_, fun program listed => ?_⟩
  · rw [← List.filter_eq_self.mpr all, List.filter_filter]
    refine (List.filter_congr fun event _ => ?_).symm
    cases event <;> rfl
  · cases all _ (List.mem_filter.mpr ⟨listed, rfl⟩)

namespace Registry
variable {r : Registry} {s : State}

theorem tells (r : Registry) (client : Client) :
    (r.directory client).Tells fun s => s.history.told where
  found c s := by
    let heard (t : State) : Prop := t.history.told = s.history.told
    show heard (r.lookup client c s).2
    refine lookupWithin_keeps ?_ ?_ _ client c rfl
    · intro event t lookup same
      show History.told (event :: t.history) = s.history.told
      rw [← show t.history.told = _ from same]
      simp [History.told, lookup]
    · intro client c answer t _ same
      show (t.remember client c answer).history.told = s.history.told
      rw [State.history_remember]
      exact same
  noted event s plain := by
    show History.told (event :: s.history) = s.history.told ++ [event]
    simp [History.told, plain]

theorem history_kept (r : Registry) (s : State) : r.Kept fun t => s.history <:+ t.history :=
  kept_of_remembered (fun event _ suffix => suffix.trans (List.suffix_cons event _))
    fun client c answer t _ suffix => by rwa [State.history_remember]

theorem run_records (r : Registry) (client : Client) (source : String) (s : State) :
    let ran := Yard.run (r.directory client) source.toList [] [] s
    ∃ records : List Event, ran.2.history = records.reverse ++ s.history ∧
      (records.filter fun event => !event.isLookup) = ran.1.emitted.filterMap Emission.event? := by
  intro ran
  obtain ⟨later, output, told⟩ := Directory.run_told (r.tells client) source.toList [] [] s
  have path : (r.directory client).Works s ran.2 := Directory.works_run source.toList [] [] s
  obtain ⟨new, grown⟩ := (r.history_kept s).upheld.works path List.suffix_rfl
  refine ⟨new.reverse, by rw [List.reverse_reverse, grown], ?_⟩
  rw [List.reverse_nil, List.nil_append] at output
  rw [show ran.1.emitted = later from output]
  have history : ran.2.history.told = s.history.told ++ _ := told
  rw [← grown, History.told, List.reverse_append, List.filter_append] at history
  exact List.append_cancel_left history

theorem parse_records (r : Registry) (client : Client) (source : String) (s : State) :
    let parsed := (r.directory client).parse source s
    ∃ records : List Event,
      parsed.2.history =
        (records ++ parsed.1.toOption.toList.map Event.parsed).reverse ++ s.history ∧
      (records.filter fun event => !event.isLookup) =
        (Yard.run (r.directory client) source.toList [] [] s).1.emitted.filterMap
          Emission.event? := by
  intro parsed
  obtain ⟨records, grown, noted⟩ := r.run_records client source s
  refine ⟨records, ?_, noted⟩
  unfold parsed Directory.parse
  dsimp only
  split
  · rw [List.reverse_append]
    exact congrArg (_ :: ·) grown
  · exact grown.trans (by simp [Except.toOption])

end Registry

namespace Engine
variable {e : Engine} {source : String}

theorem parse_traced (e : Engine) (source : String) :
    let directory := e.registry.directory .parser
    let pieces := directory.piecesOf source e.state
    let emitted := (Yard.run directory source.toList [] [] e.state).1.emitted
    let read := (pieces.take (Yard.halt pieces)).filterMap Piece.token?
    let trace := emitted.filterMap Emission.noticed?
    ∃ records : List Event, (e.parse source).2.state.history = records.reverse ++ e.state.history ∧
      (records.filter Event.isTrace).filterMap Event.line? =
        trace.map (fun token => s!"TRACE {token.role} {token.text}") ∧
      trace = Yard.traced read ∧
      trace.filter Token.isOperand = read.filter Token.isOperand ∧
      (∀ program, (e.parse source).1 = .ok program →
        program.tokens = emitted.map Emission.token ∧ program.tokens = Yard.sorted read ∧
        read = e.lexed source ∧ trace.Sublist program.tokens ∧
        trace.filter Token.isOperand = program.tokens.filter Token.isOperand ∧
        (∃ earlier, records = earlier ++ [.parsed program] ∧ ∀ other, .parsed other ∉ earlier) ∧
        (Event.parsed program).line? = some s!"DEBUG parsed '{source}' as '{program.text}'") ∧
      ∀ error, (e.parse source).1 = .error error → ∀ other, .parsed other ∉ records := by
  intro directory pieces emitted read trace
  have unheard := e.registry.directory_unheard .parser
  have output : emitted = (Yard.feed pieces []).emitted :=
    congrArg Yard.Outcome.emitted (Yard.run_feed unheard source.toList [] [] rfl)
  have spelt : trace = Yard.traced read := by
    rw [← Yard.feed_traced pieces, ← output]
  obtain ⟨earlier, grown, noted⟩ := e.registry.parse_records .parser source e.state
  obtain ⟨traced, unparsed⟩ := records_trace noted
  refine ⟨_, grown, ?_, spelt, spelt ▸ Yard.traced_operands pieces, ?_, ?_⟩
  · rw [List.filter_append, traced]
    have silent (result : Option Program) :
        (result.toList.map Event.parsed).filter Event.isTrace = [] := by
      cases result <;> rfl
    rw [silent, List.append_nil]
    exact events_lines emitted
  · intro program accepted
    have parsed : (directory.parse source e.state).1 = .ok program := accepted
    obtain ⟨sound, tokens⟩ := Directory.fed_of_parsed unheard parsed
    rw [← show emitted = _ from output] at tokens
    have whole : read = e.lexed source := by
      obtain ⟨-, -, -, -, -, toEnd⟩ := Yard.feed_halt pieces
      exact congrArg (·.filterMap Piece.token?) (List.take_of_length_le (toEnd sound).ge)
    have order : program.tokens = Yard.sorted read := by
      rw [tokens, whole, output]
      exact Yard.feed_sorted sound
    have among : trace.Sublist program.tokens := by
      rw [spelt, order]
      exact Yard.traced_sublist read
    have operands := Yard.noticed_operands emitted
    rw [← tokens] at operands
    have named : program.source = source := by
      cases parsed.symm.trans (Directory.parse_fed unheard sound)
      rfl
    refine ⟨tokens, order, whole, among, operands, ⟨earlier, by rw [parsed]; rfl, unparsed⟩, ?_⟩
    rw [Event.line?, named]
  · intro error refused other listed
    have failed : (directory.parse source e.state).1 = .error error := refused
    rw [failed] at listed
    simp [Except.toOption] at listed
    exact unparsed other listed

theorem parse_traced_grouped :
    let program : Program := ⟨"8-2*3+(4-5)", [.operand (.integer 8), .operand (.integer 2),
      .operand (.integer 3), .operator ⟨'*', .left, 2, 2⟩, .operator ⟨'-', .left, 1, 2⟩,
      .operand (.integer 4), .operand (.integer 5), .operator ⟨'-', .left, 1, 2⟩,
      .operator ⟨'+', .left, 1, 2⟩]⟩
    (arithmetic.parse program.source).1 = .ok program ∧
      (∃ records : List Event,
        (arithmetic.parse program.source).2.state.history = records.reverse ∧
        (records.filter Event.isTrace).filterMap Event.line? =
          ["TRACE operand 8", "TRACE operand 2", "TRACE operand 3", "TRACE operator *",
            "TRACE operator -", "TRACE operand 4", "TRACE operand 5"] ∧
        ∃ earlier, records = earlier ++ [.parsed program] ∧ ∀ other, .parsed other ∉ earlier) ∧
      (arithmetic.parse "8-2*3+4)").1 = .error (.parse .unbalanced "8-2*3+4)") ∧
      ∃ records : List Event, (arithmetic.parse "8-2*3+4)").2.state.history = records.reverse ∧
        (records.filter Event.isTrace).filterMap Event.line? =
          ["TRACE operand 8", "TRACE operand 2", "TRACE operand 3", "TRACE operator *",
            "TRACE operator -", "TRACE operand 4"] ∧
        ∀ other, .parsed other ∉ records := by
  intro program
  have accepted : (arithmetic.parse "8-2*3+(4-5)").1 = .ok program := by cbv
  have refused : (arithmetic.parse "8-2*3+4)").1 = .error (.parse .unbalanced "8-2*3+4)") := by cbv
  have one : (Yard.run (arithmetic.registry.directory .parser) "8-2*3+(4-5)".toList [] []
      arithmetic.state).1.emitted.filterMap Emission.noticed? =
        [.operand (.integer 8), .operand (.integer 2), .operand (.integer 3),
          .operator ⟨'*', .left, 2, 2⟩, .operator ⟨'-', .left, 1, 2⟩, .operand (.integer 4),
          .operand (.integer 5)] := by
    cbv
  have other : (Yard.run (arithmetic.registry.directory .parser) "8-2*3+4)".toList [] []
      arithmetic.state).1.emitted.filterMap Emission.noticed? =
        [.operand (.integer 8), .operand (.integer 2), .operand (.integer 3),
          .operator ⟨'*', .left, 2, 2⟩, .operator ⟨'-', .left, 1, 2⟩, .operand (.integer 4)] := by
    cbv
  obtain ⟨records, history, lines, -, -, success, -⟩ := parse_traced arithmetic "8-2*3+(4-5)"
  obtain ⟨-, -, -, -, -, last, -⟩ := success program accepted
  obtain ⟨others, alsoHistory, alsoLines, -, -, -, failure⟩ := parse_traced arithmetic "8-2*3+4)"
  refine ⟨accepted, ⟨records, history.trans (List.append_nil _), ?_, last⟩, refused, others,
    alsoHistory.trans (List.append_nil _), ?_, failure _ refused⟩
  · rw [lines, one]
    decide
  · rw [alsoLines, other]
    decide

end Engine
end ShuntingYard
