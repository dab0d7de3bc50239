import LineScript.Application
import LineScript.Proofs.JumpGuard
import LineScript.Proofs.Replay

/-! The program as a whole, when it is called with a statement to be run first and a script. Both
are run by one machine, but each of them as if the machine were new: whatever the statement leaves
behind, the script does not see it. -/

namespace LineScript

namespace Machine

variable {m m' : Machine} {fault : Fault} {result : EStateM.Result Fault Machine Unit}

end Machine

open Machine

namespace Console

variable {c c' : Console} {budget : Nat} {result : EStateM.Result Fault Machine Unit}

end Console

open Console

end LineScript
