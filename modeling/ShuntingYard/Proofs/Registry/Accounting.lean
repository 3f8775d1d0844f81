import Mathlib.Data.List.Nodup
import ShuntingYard.Proofs.Registry.Frozen
import ShuntingYard.Proofs.Registry.Resolution

namespace ShuntingYard

namespace Event

def request? : Event → Option Char
  | requested c => some c
  | _ => none

def isResolution : Event → Bool
  | resolved _ _ => true
  | _ => false

theorem request_plain {event : Event} (plain : event.isLookup = false) : event.request? = none := by
  cases event <;> first | rfl | cases plain

theorem isResolution_quiet {event : Event} (quiet : event.isSearch = false) :
    event.isResolution = false := by
  cases event <;> first | rfl | cases quiet

end Event

namespace History

def requests (history : History) : List Char := history.reverse.filterMap Event.request?

def resolutions (history : History) : List Event := history.reverse.filter Event.isResolution

theorem requests_cons (event : Event) (history : History) :
    requests (event :: history) = history.requests ++ event.request?.toList := by
  cases told : event.request? <;> simp [requests, told]

theorem requests_silent (silent : event.request? = none) (history : History) :
    requests (event :: history) = history.requests := by
  rw [requests_cons, silent, Option.toList_none, List.append_nil]

theorem resolutions_cons (event : Event) (history : History) :
    resolutions (event :: history) =
      history.resolutions ++ if event.isResolution then [event] else [] := by
  cases told : event.isResolution <;> simp [resolutions, told]

end History

def Provider.takes (p : Provider) (c : Char) : Bool := p.enabled && p.claims c

namespace Registry

-- No provider requires anything: each one decides by the symbol alone.
def Unbound (r : Registry) : Prop := ∀ p ∈ r.providers, p.requires = none

theorem Unbound.ranked {r : Registry} (unbound : r.Unbound) : r.Ranked fun _ => 0 := by
  intro p listed c _ d required
  simp [unbound p listed] at required

def State.symbols (s : State) : List Char := s.history.requests.eraseDups

structure Accounted (r : Registry) (s : State) : Prop where
  shares : s.Shares
  on : s.enabled = r.providers.map Provider.enabled
  memo : s.memo.reverse = s.symbols.map fun c => (c, r.providers.findIdx? (·.takes c))
  resolutions : s.history.resolutions =
    s.symbols.map fun c => .resolved c (r.providers.any (·.takes c))
  questions : ∀ i < r.providers.length, s.history.questions i =
    s.symbols.countP fun c => (r.providers.take i).all fun p => !p.takes c

variable {r : Registry} {s : State} {client : Client} {c : Char} {providers : List Provider}
  {inner : Char → State → Option Nat × State}

def asking (providers : List Provider) (c : Char) : List Nat :=
  (List.range providers.length).filter fun i => (providers.take i).all fun p => !p.takes c

theorem asking_cons (p : Provider) (rest : List Provider) (c : Char) :
    asking (p :: rest) c = 0 :: if p.takes c then [] else (asking rest c).map (· + 1) := by
  unfold asking
  rw [List.length_cons, List.range_succ_eq_map, List.filter_cons_of_pos rfl, List.filter_map]
  cases taken : p.takes c <;> simp [Function.comp_def, taken]

theorem count_asking (within : i < providers.length) (c : Char) :
    (asking providers c).count i = if (providers.take i).all fun p => !p.takes c then 1 else 0 := by
  have once : (asking providers c).Nodup := List.nodup_range.filter _
  rw [once.count]
  simp only [asking, List.mem_filter, List.mem_range, within, true_and]

def questioning (c : Char) (place : Nat) (places : List Nat) : History :=
  (places.map fun i => .asked (place + i) c).reverse

theorem search_unbound (unbound : ∀ p ∈ providers, p.requires = none)
    (on : ∀ entry ∈ providers.zipIdx place, s.isEnabled entry.2 = entry.1.enabled) :
    search inner c providers place s =
      ((providers.findIdx? (·.takes c)).map (place + ·),
        { s with history := questioning c place (asking providers c) ++ s.history }) := by
  induction providers generalizing place s with
  | nil => rfl
  | cons p rest ih =>
    rw [List.zipIdx_cons] at on
    obtain ⟨free, othersFree⟩ := List.forall_mem_cons.mp unbound
    obtain ⟨first, others⟩ := List.forall_mem_cons.mp on
    have willed : willing inner p place c s = (p.takes c, s.note (.asked place c)) := by
      have enabled : (s.note (.asked place c)).isEnabled place = p.enabled := first
      unfold willing Provider.takes
      dsimp only
      rw [enabled, free]
      cases p.enabled && p.claims c <;> rfl
    have later : search inner c rest (place + 1) (s.note (.asked place c)) = _ :=
      ih othersFree others
    unfold search
    dsimp only
    rw [willed, later, List.findIdx?_cons, asking_cons]
    cases taken : p.takes c with
    | true => simp [questioning, State.note]
    | false =>
      simp [questioning, State.note, Function.comp_def, Nat.add_assoc, Nat.add_comm 1]

theorem questioning_requests (c : Char) (place : Nat) (places : List Nat) (history : History) :
    History.requests (questioning c place places ++ history) = history.requests := by
  simp [History.requests, questioning, List.filterMap_map, Function.comp_def, Event.request?]

theorem questioning_resolutions (c : Char) (place : Nat) (places : List Nat) (history : History) :
    History.resolutions (questioning c place places ++ history) = history.resolutions := by
  simp [History.resolutions, questioning, List.filter_map, Function.comp_def, Event.isResolution]

theorem questioning_questions (c : Char) (places : List Nat) (history : History) (i : Nat) :
    History.questions (questioning c 0 places ++ history) i =
      history.questions i + places.count i := by
  simp [History.questions, questioning, List.countP_append, List.countP_map, List.count,
    Function.comp_def, Nat.add_comm]

theorem symbols_requested (c : Char) (s : State) : (s.note (.requested c)).symbols =
    if c ∈ s.symbols then s.symbols else s.symbols ++ [c] := by
  simp only [State.symbols, State.note, History.requests_cons, List.eraseDups_append,
    List.mem_eraseDups]
  split <;> rename_i asked <;> simp [List.removeAll, asked, Event.request?, List.eraseDups_cons]

theorem Accounted.unknown_iff (accounted : r.Accounted s) :
    s.memo.answer? c = none ↔ c ∉ s.symbols := by
  rw [Memo.answer?, List.lookup_eq_none_iff]
  constructor
  · intro apart listed
    have entry : (c, r.providers.findIdx? (·.takes c)) ∈ s.memo.reverse := by
      rw [accounted.memo]
      exact List.mem_map_of_mem listed
    simpa using apart _ (List.mem_reverse.mp entry)
  · intro unlisted entry remembered
    rw [← List.mem_reverse, accounted.memo] at remembered
    obtain ⟨d, listed, rfl⟩ := List.mem_map.mp remembered
    rw [bne_iff_ne]
    rintro rfl
    exact unlisted listed

theorem Accounted.isOn (accounted : r.Accounted s) :
    ∀ entry ∈ r.providers.zipIdx 0, s.isEnabled entry.2 = entry.1.enabled := by
  rintro ⟨p, i⟩ listed
  have here : r.providers[i]? = some p := List.mk_mem_zipIdx_iff_getElem?.mp listed
  rw [State.isEnabled, accounted.on, List.getD_eq_getElem?_getD, List.getElem?_map, here]
  rfl

theorem settle_unbound (unbound : r.Unbound) (accounted : r.Accounted s)
    (unknown : s.memo.answer? c = none) (client : Client) :
    (settle client c (search inner c r.providers 0 (s.note (.requested c)))).2 =
      { s with
        memo := (c, r.providers.findIdx? (·.takes c)) :: s.memo
        history := .resolved c (r.providers.any (·.takes c)) ::
          (questioning c 0 (asking r.providers c) ++ .requested c :: s.history) } := by
  have searched : search inner c r.providers 0 (s.note (.requested c)) = _ :=
    search_unbound unbound accounted.isOn
  have own : s.own = none := accounted.shares
  rw [searched]
  simp only [settle, State.remember, State.note, own, Nat.zero_add, Option.map_id', Memo.remember,
    unknown, List.findIdx?_isSome]

theorem Accounted.note (accounted : r.Accounted s) (quiet : event.isSearch = false)
    (same : (s.note event).symbols = s.symbols) : r.Accounted (s.note event) := by
  have resolutions : (s.note event).history.resolutions = s.history.resolutions := by
    rw [State.note, History.resolutions_cons, Event.isResolution_quiet quiet]
    exact List.append_nil _
  refine ⟨accounted.shares, accounted.on, ?_, ?_, fun i within => ?_⟩
  · rw [same]
    exact accounted.memo
  · rw [same, resolutions]
    exact accounted.resolutions
  · rw [same, (State.Unsearched.note event quiet s).questions]
    exact accounted.questions i within

theorem Accounted.settle (unbound : r.Unbound) (accounted : r.Accounted s)
    (unknown : s.memo.answer? c = none) (client : Client) : r.Accounted
      (settle client c (search inner c r.providers 0 (s.note (.requested c)))).2 := by
  rw [settle_unbound unbound accounted unknown]
  -- All that the columns need of the history are the symbols in it.
  generalize ended : ({ s with memo := _, history := _ } : State) = t
  have history : t.history = .resolved c (r.providers.any (·.takes c)) ::
      (questioning c 0 (asking r.providers c) ++ .requested c :: s.history) := by rw [← ended]
  have symbols : t.symbols = s.symbols ++ [c] := by
    have requested := symbols_requested c s
    rw [if_neg (accounted.unknown_iff.mp unknown)] at requested
    rw [← requested, State.symbols, State.symbols, history, History.requests_cons,
      questioning_requests]
    exact congrArg List.eraseDups (List.append_nil _)
  refine ⟨?_, ?_, ?_, ?_, fun i within => ?_⟩
  · rw [← ended]
    exact accounted.shares
  · rw [← ended]
    exact accounted.on
  · rw [symbols, ← ended, List.reverse_cons, accounted.memo, List.map_append]
    rfl
  · rw [history, symbols, History.resolutions_cons, questioning_resolutions,
      History.resolutions_cons, accounted.resolutions, List.map_append]
    simp [Event.isResolution]
  · have before : History.questions (.requested c :: s.history) i = _ :=
      accounted.questions i within
    have after : t.history.questions i =
        History.questions (.requested c :: s.history) i + (asking r.providers c).count i := by
      rw [history]
      exact questioning_questions c (asking r.providers c) (.requested c :: s.history) i
    rw [after, before, count_asking within, symbols, List.countP_append, List.countP_singleton]

theorem Accounted.right (accounted : r.Accounted s) :
    s.Remembers fun c answer => answer = r.providers.findIdx? (·.takes c) := by
  intro client c answer known
  rw [accounted.shares.memoOf client .parser, Memo.answer?, List.lookup_eq_some_iff] at known
  obtain ⟨later, earlier, parts, -⟩ := known
  have entry : (c, answer) ∈ s.memo.reverse := by
    rw [List.mem_reverse, show s.memo = _ from parts]
    simp
  rw [accounted.memo] at entry
  obtain ⟨d, -, same⟩ := List.mem_map.mp entry
  cases same
  rfl

theorem asks (unbound : r.Unbound) (client : Client) :
    (r.directory client).Asks fun s => s.history.requests where
  found c s := by
    show (r.lookup client c s).2.history.requests = s.history.requests ++ [c]
    have requested : (s.note (.requested c)).history.requests = s.history.requests ++ [c] :=
      History.requests_cons _ _
    unfold lookup
    cases known : (s.memoOf client).answer? c with
    | some answer =>
      rw [lookupWithin_hit known]
      exact requested
    | none =>
      let heard (t : State) : Prop := t.history.requests = s.history.requests ++ [c]
      have searched : heard (search (r.lookupWithin r.providers.length .parser) c r.providers 0
          (s.note (.requested c))).2 :=
        search_keeps r.providers
          (fun place t same => (History.requests_silent rfl t.history).trans same)
          (fun p listed d _ required => by cases (unbound p listed).symm.trans required) 0 requested
      rw [lookupWithin_miss known, settle, State.history_remember]
      exact (History.requests_silent rfl _).trans searched
  noted event s plain := History.requests_silent (Event.request_plain plain) s.history

end Registry
end ShuntingYard
