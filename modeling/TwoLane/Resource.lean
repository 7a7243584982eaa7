/-! # Resources

What lines and instructions share is either classical memory or a qubit. The two have separate name
spaces, so a memory reference and a qubit of one name are different resources.
-/

namespace TwoLane

/-- A name together with its name space. -/
inductive Resource where
  | memory (name : String)
  | qubit (name : String)
  deriving Repr, DecidableEq, Inhabited

namespace Resource

def name : Resource → String
  | .memory name => name
  | .qubit name => name

def isQubit : Resource → Bool
  | .memory _ => false
  | .qubit _ => true

end Resource

end TwoLane
