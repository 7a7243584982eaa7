/-! # Qubits

A qubit that starts in the zero state and passes through single-qubit Clifford gates is, up to a global
phase, in one of six states. Gates act on them by a finite table.
-/

namespace TwoLane

/-- How an instruction touches a qubit. -/
inductive QubitUse where
  /-- It is the only qubit of a gate, or it is reset. -/
  | singleGate
  /-- It is one of several qubits of a gate. -/
  | multiGate
  /-- It is measured. -/
  | measure
  deriving Repr, DecidableEq, Inhabited

def QubitUse.name : QubitUse → String
  | .singleGate => "SingleGate"
  | .multiGate => "MultiGate"
  | .measure => "Measure"

/-- A qubit that an operation names, and how it touches it. -/
structure QubitAccess where
  name : String
  use : QubitUse
  deriving Repr, DecidableEq

/-- The six states that Clifford gates reach from the zero state, global phases ignored. -/
inductive QubitState where
  | zero
  | one
  | plus
  | minus
  | plusI
  | minusI
  deriving Repr, DecidableEq, Inhabited

/-- The single-qubit gates whose action on the six states is known. -/
inductive CliffordGate where
  | i
  | x
  | y
  | z
  | h
  | s
  deriving Repr, DecidableEq, Inhabited

/-- The gate of a name; letter case does not matter. -/
def CliffordGate.ofName? (name : String) : Option CliffordGate :=
  match name.map Char.toUpper with
  | "I" => some .i
  | "X" => some .x
  | "Y" => some .y
  | "Z" => some .z
  | "H" => some .h
  | "S" => some .s
  | _ => none

namespace QubitState

def apply : CliffordGate → QubitState → QubitState
  | .i, state => state
  | .x, .zero => .one
  | .x, .one => .zero
  | .x, .plusI => .minusI
  | .x, .minusI => .plusI
  | .x, state => state
  | .y, .zero => .one
  | .y, .one => .zero
  | .y, .plus => .minus
  | .y, .minus => .plus
  | .y, state => state
  | .z, .plus => .minus
  | .z, .minus => .plus
  | .z, .plusI => .minusI
  | .z, .minusI => .plusI
  | .z, state => state
  | .h, .zero => .plus
  | .h, .plus => .zero
  | .h, .one => .minus
  | .h, .minus => .one
  | .h, .plusI => .minusI
  | .h, .minusI => .plusI
  | .s, .plus => .plusI
  | .s, .plusI => .minus
  | .s, .minus => .minusI
  | .s, .minusI => .plus
  | .s, state => state

def applyNamed? (gate : String) (state : QubitState) : Option QubitState :=
  (CliffordGate.ofName? gate).map (fun g => apply g state)

/-- The outcome of a measurement in the computational basis, where it is certain. -/
def outcome? : QubitState → Option Bool
  | .zero => some false
  | .one => some true
  | _ => none

def ket : QubitState → String
  | .zero => "|0>"
  | .one => "|1>"
  | .plus => "|+>"
  | .minus => "|->"
  | .plusI => "|+i>"
  | .minusI => "|-i>"

def name : QubitState → String
  | .zero => "Zero"
  | .one => "One"
  | .plus => "Plus"
  | .minus => "Minus"
  | .plusI => "PlusI"
  | .minusI => "MinusI"

def ofName? : String → Option QubitState
  | "Zero" => some .zero
  | "One" => some .one
  | "Plus" => some .plus
  | "Minus" => some .minus
  | "PlusI" => some .plusI
  | "MinusI" => some .minusI
  | _ => none

@[simp] theorem ofName?_name (state : QubitState) : ofName? state.name = some state := by
  cases state <;> rfl

end QubitState

end TwoLane
