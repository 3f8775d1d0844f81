import Mathlib
import ShuntingYard.Proofs.Engine.Dispatch
import ShuntingYard.Proofs.Engine.Heights
import ShuntingYard.Proofs.Registry.Accounting
import ShuntingYard.Proofs.Yard.Requests

namespace ShuntingYard

namespace Directory
variable {directory : Directory σ} {asked : σ → List Char} {find : Char → Option Provider}
  {program : Program} {s : σ} {k : Nat} {fault : EvalFault} {words : String}
  {cause : Option OperateError}

end Directory

namespace Engine
variable {r : Registry} {actions : List Action}

def requests (e : Engine) : List Char := e.state.history.requests

end Engine
end ShuntingYard
