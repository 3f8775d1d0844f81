import ShuntingYard.Provider

namespace ShuntingYard

structure Registry where
  providers : List Provider
  nonempty : providers ≠ []

def Registry.ofProviders : List Provider → Except Error Registry
  | [] => .error .noProviders
  | first :: rest => .ok ⟨first :: rest, by simp⟩

-- Answers by symbol, misses included: the place of the provider that owns the symbol.
abbrev Memo := List (Char × Option Nat)

namespace Memo

def answer? (memo : Memo) (c : Char) : Option (Option Nat) := memo.lookup c

-- An answer once remembered stays: a later one for the same symbol is dropped.
def remember (memo : Memo) (c : Char) (answer : Option Nat) : Memo :=
  match memo.answer? c with
  | some _ => memo
  | none => (c, answer) :: memo

end Memo

inductive Client where
  | parser
  | evaluator
  deriving DecidableEq

namespace Registry

-- What changes about a registry: which providers are switched on, the answers remembered for the
-- parser, those for the evaluator where it does not share the parser's, and the history.
structure State where
  enabled : List Bool
  memo : Memo
  own : Option Memo
  history : History
  deriving DecidableEq

namespace State

def note (event : Event) (s : State) : State := { s with history := event :: s.history }

def memoOf (s : State) : Client → Memo
  | .parser => s.memo
  | .evaluator => s.own.getD s.memo

def remember (client : Client) (c : Char) (answer : Option Nat) (s : State) : State :=
  match client, s.own with
  | .evaluator, some own => { s with own := some (own.remember c answer) }
  | _, _ => { s with memo := s.memo.remember c answer }

def isEnabled (s : State) (provider : Nat) : Bool := s.enabled.getD provider false

def switch (provider : Nat) (on : Bool) (s : State) : State :=
  { s with enabled := s.enabled.set provider on }

end State

def start (r : Registry) (shared : Bool) : State where
  enabled := r.providers.map Provider.enabled
  memo := []
  own := if shared then none else some []
  history := []

-- Asks one provider. Its requirement is looked up last, only where all else is met.
def willing (inner : Char → State → Option Nat × State) (provider : Provider) (place : Nat)
    (c : Char) (s : State) : Bool × State :=
  let asked := s.note (.asked place c)
  if asked.isEnabled place && provider.claims c then
    match provider.requires with
    | none => (true, asked)
    | some required =>
      let answer := inner required asked
      (answer.1.isSome, answer.2)
  else (false, asked)

def search (inner : Char → State → Option Nat × State) (c : Char) :
    List Provider → Nat → State → Option Nat × State
  | [], _, s => (none, s)
  | provider :: rest, place, s =>
    let asked := willing inner provider place c s
    if asked.1 then (some place, asked.2) else search inner c rest (place + 1) asked.2

-- A requirement is looked up while the lookup that needs it is still open, and always for the
-- parser. `depth` bounds how many lookups may be open at once.
def lookupWithin (r : Registry) : Nat → Client → Char → State → Option Nat × State
  | 0, _, _, s => (none, s)
  | depth + 1, client, c, s =>
    let requested := s.note (.requested c)
    match (requested.memoOf client).answer? c with
    | some answer => (answer, requested)
    | none =>
      let found := search (r.lookupWithin depth .parser) c r.providers 0 requested
      let resolved := (found.2.note (.resolved c found.1.isSome)).remember client c found.1
      (((resolved.memoOf client).answer? c).getD found.1, resolved)

-- The place of the provider that owns the symbol. Were more lookups open at once than this
-- allows, one provider would be waiting for itself.
def lookup (r : Registry) (client : Client) (c : Char) (s : State) : Option Nat × State :=
  r.lookupWithin (r.providers.length + 1) client c s

def directory (r : Registry) (client : Client) : Directory State where
  find c s :=
    let found := r.lookup client c s
    (found.1.bind fun place => r.providers[place]?, found.2)
  note := State.note

end Registry
end ShuntingYard
