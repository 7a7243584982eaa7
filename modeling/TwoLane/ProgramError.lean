/-! # Program errors

What can be wrong with a program, or with a request about one of its instruction lists.
-/

namespace TwoLane

/-- A fault found while a program is built or one of its lists is changed. -/
inductive ProgramError where
  /-- A jump names a label that no level around it defines. -/
  | undefinedLabel (label : String) (line : Nat)
  /-- A call names a circuit that no level around it defines. -/
  | undefinedCircuit (name : String) (line : Nat)
  /-- A circuit calls itself, directly or through others. -/
  | recursiveCircuit (name : String)
  /-- The blocks of a region wait for each other's rank. -/
  | rankingStalled (remaining : Nat)
  /-- A chain link has no link back. -/
  | chainAsymmetry (name : String) (source target : Nat)
  /-- An instruction is not in the list. -/
  | unknownInstruction (id : Nat)
  deriving Repr, DecidableEq, Inhabited

namespace ProgramError

def message : ProgramError → String
  | .undefinedLabel label line =>
      "Undefined label '" ++ label ++ "' referenced on line " ++ toString line
  | .undefinedCircuit name line =>
      "Undefined circuit '" ++ name ++ "' called on line " ++ toString line
  | .recursiveCircuit name => "Circuit '" ++ name ++ "' is called recursively"
  | .rankingStalled remaining =>
      "Ranking stalled with " ++ toString remaining ++ " blocks left unranked"
  | .chainAsymmetry name source target =>
      "Chain asymmetry on '" ++ name ++ "' between lines " ++ toString source ++ " and " ++
        toString target
  | .unknownInstruction id => "Unknown instruction id " ++ toString id

end ProgramError

end TwoLane
