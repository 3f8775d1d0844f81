import ShuntingYard.Scanner

namespace ShuntingYard.Scanner

inductive Request where
  | position
  | sourceLength
  | isDone
  | peek
  | next
  | nth (count : Nat)
  | accept (c : Char)
  | acceptAny (wanted : List Char)
  | skipAll (wanted : List Char)
  | skipBlanks
  | moveTo (position : Nat)
  | takeRest
  | source
  | view (start : Nat)
  | textSince (start : Nat)
  | scanDecimal
  | readOperand
  | readOperator
  deriving DecidableEq

inductive Answer where
  | count (n : Nat)
  | flag (holds : Bool)
  | char (c : Option Char)
  | chars (cs : List Char)
  | text (cs : List Char)
  | run (cs : Option (List Char))
  | operand (n : Option Number)
  | operator (op : Option Operator)
  deriving DecidableEq

def perform (directory : Directory σ) (request : Request) (s : Scanner) (state : σ) :
    Answer × Scanner × σ :=
  match request with
  | .position => (.count s.position, s, state)
  | .sourceLength => (.count s.source.size, s, state)
  | .isDone => (.flag s.isDone, s, state)
  | .peek => (.char s.peek, s, state)
  | .next => let (c, s) := s.next; (.char c, s, state)
  | .nth count => let (c, s) := s.nth count; (.char c, s, state)
  | .accept c => let (c, s) := s.acceptIf (· == c); (.char c, s, state)
  | .acceptAny wanted => let (c, s) := s.acceptIf wanted.contains; (.char c, s, state)
  | .skipAll wanted => let (any, s) := s.skipWhile wanted.contains; (.flag any, s, state)
  | .skipBlanks => let (any, s) := s.skipWhile isBlank; (.flag any, s, state)
  | .moveTo position => let (moved, s) := s.moveTo position; (.flag moved, s, state)
  | .takeRest => let (cs, s) := s.takeRest; (.text cs, s, state)
  | .source => (.text s.source.toList, s, state)
  | .view start => (.chars (s.view start), s, state)
  | .textSince start => (.text (s.view start), s, state)
  | .scanDecimal => let (cs, s) := s.scanDecimal; (.run cs, s, state)
  | .readOperand => let (n, s) := s.readOperand; (.operand n, s, state)
  | .readOperator => let (op, s, state) := s.readOperator directory state; (.operator op, s, state)

def performAll (directory : Directory σ) :
    List Request → Scanner → σ → List (Answer × Nat) × Scanner × σ
  | [], s, state => ([], s, state)
  | request :: rest, s, state =>
    let (answer, s, state) := s.perform directory request state
    let (answers, last) := performAll directory rest s state
    ((answer, s.position) :: answers, last)

end ShuntingYard.Scanner
