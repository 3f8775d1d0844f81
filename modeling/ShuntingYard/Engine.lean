import ShuntingYard.Conversion
import ShuntingYard.Program.Evaluate
import ShuntingYard.Registry
import ShuntingYard.Yard

namespace ShuntingYard

-- A parser and an evaluator over one registry, with the program parsed last.
structure Engine where
  registry : Registry
  state : Registry.State
  current : Option Program

namespace Engine

def start (registry : Registry) (shared : Bool) : Engine := ⟨registry, registry.start shared, none⟩

def arithmetic : Engine := start ⟨[.arithmetic], by simp⟩ true

def parse (e : Engine) (source : String) : Except Error Program × Engine :=
  let parsed := (e.registry.directory .parser).parse source e.state
  (parsed.1, { e with state := parsed.2 })

def evaluate (e : Engine) (program : Program) : Except Error Number × Engine :=
  let evaluated := (e.registry.directory .evaluator).evaluate program e.state
  (evaluated.1, { e with state := evaluated.2 })

def calculate (e : Engine) (source : String) : Except Error Number × Engine :=
  let parsed := e.parse source
  match parsed.1 with
  | .ok program => parsed.2.evaluate program
  | .error error => (.error error, parsed.2)

def calculateAs (e : Engine) (t : Target) (source : String) : Except Error t.Value × Engine :=
  let calculated := e.calculate source
  (calculated.1.bind fun n => n.convert t, calculated.2)

def calculateAs? (e : Engine) (t : Target) (source : String) : Option t.Value × Engine :=
  let calculated := e.calculateAs t source
  match calculated.1 with
  | .ok value => (some value, calculated.2)
  | .error error =>
    let state := calculated.2.state.note (.gaveUp source error)
    (none, { calculated.2 with state })

def remembered (e : Engine) (client : Client) : Nat := (e.state.memoOf client).length

def questions (e : Engine) (provider : Nat) : Nat := e.state.history.questions provider

inductive Action where
  | parse (source : String)
  | evaluate
  | run (program : Program)
  | lookup (symbol : Char)
  | create (symbol : Char)
  | switch (provider : Nat) (on : Bool)
  | countProviders
  deriving DecidableEq

inductive Answer where
  | program (result : Except Error Program)
  -- nothing while there is no program to evaluate
  | value (result : Option (Except Error Number))
  | provider (place : Option Nat)
  | operator (op : Option Operator)
  | switched (on : Bool)
  | count (providers : Nat)

def perform (e : Engine) : Action → Answer × Engine
  | .parse source =>
    let parsed := e.parse source
    match parsed.1 with
    | .ok program => (.program (.ok program), { parsed.2 with current := some program })
    | .error error => (.program (.error error), parsed.2)
  | .evaluate =>
    match e.current with
    | some program =>
      let evaluated := e.evaluate program
      (.value (some evaluated.1), evaluated.2)
    | none => (.value none, e)
  | .run program =>
    let evaluated := e.evaluate program
    (.value (some evaluated.1), evaluated.2)
  | .lookup symbol =>
    let found := e.registry.lookup .parser symbol e.state
    (.provider found.1, { e with state := found.2 })
  | .create symbol =>
    let created := (e.registry.directory .parser).operator? symbol e.state
    (.operator created.1, { e with state := created.2 })
  | .switch provider on => (.switched on, { e with state := e.state.switch provider on })
  | .countProviders => (.count e.registry.providers.length, e)

end Engine
end ShuntingYard
