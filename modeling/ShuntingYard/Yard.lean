import ShuntingYard.Piece

namespace ShuntingYard

inductive Held where
  | operator (op : Operator)
  | opening
  deriving DecidableEq

-- A token on its way out of the yard, and what let it go: operands pass when they are read, an
-- operator leaves for an arriving operator, for a closing parenthesis or at the end of the text.
inductive Emission where
  | read (value : Number)
  | overtaken (op : Operator)
  | closed (op : Operator)
  | ended (op : Operator)
  deriving DecidableEq

namespace Emission

def token : Emission → Token
  | read n => .operand n
  | overtaken op => .operator op
  | closed op => .operator op
  | ended op => .operator op

-- Operators that leave in bulk go unrecorded.
def event? : Emission → Option Event
  | read n => some (.operandRead n)
  | overtaken op => some (.operatorReleased op)
  | closed _ => none
  | ended _ => none

end Emission

namespace Yard

def release (arriving : Operator) : List Held → List Operator × List Held
  | [] => ([], [])
  | .opening :: below => ([], .opening :: below)
  | .operator top :: below =>
    if arriving.yieldsTo top then
      let released := release arriving below
      (top :: released.1, released.2)
    else ([], .operator top :: below)

def toOpening? : List Held → Option (List Operator × List Held)
  | [] => none
  | .opening :: below => some ([], below)
  | .operator top :: below =>
    (toOpening? below).map fun (released, kept) => (top :: released, kept)

def drain? : List Held → Option (List Operator)
  | [] => some []
  | .opening :: _ => none
  | .operator top :: below => (drain? below).map (top :: ·)

def shift (stack : List Held) : Piece → Except ParseFault (List Emission × List Held)
  | .operand n => .ok ([.read n], stack)
  | .operator op =>
    let released := release op stack
    .ok (released.1.map .overtaken, .operator op :: released.2)
  | .paren .left => .ok ([], .opening :: stack)
  | .paren .right =>
    match toOpening? stack with
    | some (released, kept) => .ok (released.map .closed, kept)
    | none => .error .unbalanced
  | .blank => .ok ([], stack)
  | .stray c => .error (.stray c)

def finish (stack : List Held) : Except ParseFault (List Emission) :=
  match drain? stack with
  | some released => .ok (released.map .ended)
  | none => .error .unbalanced

structure Outcome where
  emitted : List Emission
  fault : Option ParseFault
  deriving DecidableEq

-- The emissions are kept latest first while the text is read, and turned round at the end.
def run (directory : Directory σ) (text : List Char) (stack : List Held) (emitted : List Emission)
    (s : σ) : Outcome × σ :=
  match text with
  | [] =>
    match finish stack with
    | .ok last => (⟨emitted.reverse ++ last, none⟩, s)
    | .error fault => (⟨emitted.reverse, some fault⟩, s)
  | c :: rest =>
    let next := Piece.next directory c rest s
    match shift stack next.piece with
    | .error fault => (⟨emitted.reverse, some fault⟩, next.state)
    | .ok (released, stack) =>
      run directory next.rest stack (released.reverse ++ emitted)
        (directory.record (released.filterMap Emission.event?) next.state)
termination_by text.length
decreasing_by exact Nat.lt_succ_of_le (Piece.next_shorter ..)

end Yard

def Directory.parse (directory : Directory σ) (source : String) (s : σ) :
    Except Error Program × σ :=
  let outcome := Yard.run directory source.toList [] [] s
  match outcome.1.fault with
  | none =>
    let program : Program := ⟨source, outcome.1.emitted.map Emission.token⟩
    (.ok program, directory.note (.parsed program) outcome.2)
  | some fault => (.error (.parse fault source), outcome.2)

end ShuntingYard
