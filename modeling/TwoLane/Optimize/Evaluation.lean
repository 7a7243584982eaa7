import TwoLane.Instruction.Operand

/-! # Evaluation

What a classical instruction writes, as far as the values of its operands are known. Logic works on whole
numbers as sixty-four-bit words. Order is defined on real numbers only, and nothing is divided by zero.
-/

namespace TwoLane

/-- A memory reference and the value written to it, where it is known. -/
structure Written where
  name : String
  value : Option Number
  deriving Inhabited

namespace Evaluation

/-- The word of a whole real number; a number too large for a word stands for the nearest word. -/
def word? (a : Number) : Option Int64 :=
  if a.im == 0 && a.re.isFinite && a.re.floor == a.re then some a.re.toInt64 else none

def ofWord (w : Int64) : Number :=
  .ofReal w.toFloat

def compare? (opcode : String) (a b : Number) : Option Bool :=
  if opcode = "EQ" then some (a == b)
  else if a.im != 0 || b.im != 0 then none
  else
    match opcode with
    | "GT" => some (a.re > b.re)
    | "GE" => some (a.re ≥ b.re)
    | "LT" => some (a.re < b.re)
    | "LE" => some (a.re ≤ b.re)
    | _ => none

/-- The quotient of two numbers, unless the second one is zero. -/
def quotient? (a b : Number) : Option Number :=
  if b.isZero then none else some (a / b)

/-- The value that an opcode other than an exchange writes to its first operand. -/
def result? (opcode : String) (operand : Nat → Option Number) : Option Number :=
  match opcode with
  | "MOVE" | "CONVERT" => operand 1
  | "TRUE" => some (.ofBool true)
  | "FALSE" => some (.ofBool false)
  | "NEG" => do return -(← operand 0)
  | "NOT" => do return ofWord (~~~(← word? (← operand 0)))
  | "ADD" => do return (← operand 0) + (← operand 1)
  | "SUB" => do return (← operand 0) - (← operand 1)
  | "MUL" => do return (← operand 0) * (← operand 1)
  | "DIV" => do quotient? (← operand 0) (← operand 1)
  | "AND" => do return ofWord ((← word? (← operand 0)) &&& (← word? (← operand 1)))
  | "IOR" => do return ofWord ((← word? (← operand 0)) ||| (← word? (← operand 1)))
  | "XOR" => do return ofWord ((← word? (← operand 0)) ^^^ (← word? (← operand 1)))
  | "EQ" | "GT" | "GE" | "LT" | "LE" => do
      return .ofBool (← compare? opcode (← operand 1) (← operand 2))
  | _ => none

/-- The values written by an instruction, given what is known about operands. Where the operands to be
    written are no plain references, nothing is said. -/
def writes (opcode : String) (operands : List Operand) (valueOf : Operand → Option Number) :
    List Written :=
  let operand (i : Nat) : Option Number := (operands[i]?).bind valueOf
  match (operands[0]?).bind Operand.address? with
  | none => []
  | some target =>
      if opcode = "EXCHANGE" then
        match (operands[1]?).bind Operand.address? with
        | none => []
        | some other => [⟨target, operand 1⟩, ⟨other, operand 0⟩]
      else [⟨target, result? opcode operand⟩]

/-- The value written to a reference, where it is known; the first entry of the reference counts. -/
def valueIn (written : List Written) (name : String) : Option Number :=
  (written.find? (fun w => w.name == name)).bind Written.value

end Evaluation

end TwoLane
