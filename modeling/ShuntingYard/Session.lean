import ShuntingYard.Engine

namespace ShuntingYard

-- The command line: it answers one expression, or a session of lines. Whether a history of earlier
-- lines is on disk is all that one session leaves to the next.
namespace Session

def evaluateLine (e : Engine) (line : String) : String × Engine :=
  let parsed := e.parse line
  match parsed.1 with
  | .error error => ("Parse error: " ++ error.message, parsed.2)
  | .ok program =>
    let evaluated := parsed.2.evaluate program
    match evaluated.1 with
    | .error error => ("Eval error: " ++ error.message, evaluated.2)
    | .ok n => (program.text ++ " = " ++ n.text, evaluated.2)

def showProgram (e : Engine) (source : String) : String × Engine :=
  let parsed := e.parse source
  match parsed.1 with
  | .error error => ("Parse error: " ++ error.message, parsed.2)
  | .ok program => (program.text, parsed.2)

def programRequest? (line : String) : Option String :=
  match line.toList.dropWhile isBlank with
  | ':' :: 'r' :: 'p' :: 'n' :: ' ' :: rest => some (.ofList rest)
  | _ => none

def reply (e : Engine) (line : String) : String × Engine :=
  match programRequest? line with
  | some source => showProgram e source
  | none => evaluateLine e line

def isAccepted (line : String) : Bool := !line.toList.all isBlank

-- Cuts after each line feed; it and a carriage return before it do not belong to the line. What
-- stands after the last line feed is a line unless it is empty. The first list is the line so far,
-- the last character first.
def linesFrom : List Char → List Char → List (List Char)
  | [], [] => []
  | begun, [] => [begun.reverse]
  | '\r' :: begun, '\n' :: rest => begun.reverse :: linesFrom [] rest
  | begun, '\n' :: rest => begun.reverse :: linesFrom [] rest
  | begun, c :: rest => linesFrom (c :: begun) rest

def lines (input : String) : List String := (linesFrom [] input.toList).map String.ofList

def replies : List String → Engine → List String
  | [], _ => []
  | line :: rest, e =>
    if isAccepted line then
      let answered := reply e line
      answered.1 :: replies rest answered.2
    else replies rest e

def greeting (history : Bool) : List String := if history then [] else ["No history yet"]

structure Outcome where
  output : List String
  history : Bool
  deriving DecidableEq

def run (history : Bool) (input : String) : Outcome :=
  { output := greeting history ++ replies (lines input) .arithmetic
    history := history || (lines input).any isAccepted }

def runAll (history : Bool) : List String → List (List String)
  | [] => []
  | input :: rest =>
    let outcome := run history input
    outcome.output :: runAll outcome.history rest

def answerArguments (args : List String) : String :=
  (evaluateLine .arithmetic (" ".intercalate args)).1

end Session
end ShuntingYard
