import ShuntingYard.Session

namespace ShuntingYard.Session

partial def converse (input : IO.FS.Stream) (e : Engine) (accepted : List String) :
    IO (List String) := do
  match lines (← input.getLine) with
  | [] => return accepted
  | line :: _ =>
    if isAccepted line then
      let (answer, e) := reply e line
      IO.println answer
      converse input e (line :: accepted)
    else converse input e accepted

def interactive : IO Unit := do
  let home := (← IO.getEnv "HOME").getD "."
  let path := home ++ "/.rpn_history"
  let earlier ← (IO.FS.readFile path).toBaseIO
  for line in greeting earlier.isOk do
    IO.println line
  let accepted ← converse (← IO.getStdin) .arithmetic []
  unless accepted.isEmpty do
    let kept := match earlier with
      | .ok text => text
      | .error _ => ""
    IO.FS.writeFile path (kept ++ String.join (accepted.reverse.map fun line => line ++ "\n"))

end ShuntingYard.Session

def main (args : List String) : IO UInt32 := do
  if args.isEmpty then ShuntingYard.Session.interactive
  else IO.println (ShuntingYard.Session.answerArguments args)
  return 0
