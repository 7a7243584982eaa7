import TwoLane.ProgramError
import TwoLane.Line.Category

/-! # Optimization errors

What can go wrong while lists are analysed and changed.
-/

namespace TwoLane

/-- A fault of an optimization. -/
inductive OptimizeError where
  | program (error : ProgramError)
  /-- Two collections that go list by list differ in length. -/
  | countMismatch (what : String) (expected found : Nat)
  /-- A folding rule met an instruction of a category that it does not fold. -/
  | ruleMismatch (rule : String) (line : Nat) (category : Category)
  /-- A dependency map names a hybrid line that its list does not hold. -/
  | missingHybrid (block : String) (line : Nat)
  | unknownStep (name : String)
  deriving Repr, DecidableEq, Inhabited

namespace OptimizeError

def message : OptimizeError → String
  | .program error => "IR error: " ++ error.message
  | .countMismatch what expected found =>
      "Expected " ++ toString expected ++ " " ++ what ++ ", found " ++ toString found
  | .ruleMismatch rule line category =>
      rule ++ " handler cannot fold line " ++ toString line ++ " of type " ++ category.text
  | .missingHybrid block line =>
      "Hybrid instruction on line " ++ toString line ++ " is missing from block '" ++ block ++ "'"
  | .unknownStep name => "Unknown optimization step '" ++ name ++ "'"

/-- A result about a program as a result about an optimization. -/
def lift {α : Type} : Except ProgramError α → Except OptimizeError α
  | .ok a => .ok a
  | .error error => .error (.program error)

end OptimizeError

end TwoLane
