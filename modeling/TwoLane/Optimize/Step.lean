import TwoLane.Optimize.Workspace

/-! # Steps

The steps that a sequence may name, what each one does, and which ones make known hybrid maps useless.
-/

namespace TwoLane

/-- A step of an optimization. -/
inductive Step where
  | liveVariables
  | constantPropagation
  | hybridDependencies
  | deadCode
  | reordering
  | constantFolding
  | earlyQuantum
  | lateQuantum
  deriving Repr, DecidableEq, Inhabited

namespace Step

def all : List Step :=
  [.liveVariables, .constantPropagation, .hybridDependencies, .deadCode, .reordering,
    .constantFolding, .earlyQuantum, .lateQuantum]

/-- The name of a step in sequences and reports. -/
def name : Step → String
  | .liveVariables => "LiveVariableAnalysis"
  | .constantPropagation => "ConstantPropagation"
  | .hybridDependencies => "HybridDependencies"
  | .deadCode => "DeadCodeElimination"
  | .reordering => "ReOrdering"
  | .constantFolding => "ConstantFolding"
  | .earlyQuantum => "QuantumJIT"
  | .lateQuantum => "LastPossibleQuantumExecution"

def ofName? (name : String) : Option Step :=
  all.find? (fun step => step.name == name)

def ofName (name : String) : Except OptimizeError Step :=
  match ofName? name with
  | some step => .ok step
  | none => .error (.unknownStep name)

/-- Whether a step only finds things out, and changes no instruction. -/
def isAnalysis : Step → Bool
  | .liveVariables | .constantPropagation | .hybridDependencies => true
  | _ => false

def change : Step → Workspace.Change
  | .liveVariables => Workspace.markLiveness
  | .constantPropagation => Workspace.propagateConstants
  | .hybridDependencies => Workspace.findHybrids
  | .deadCode => Workspace.removeDead
  | .reordering => Workspace.scheduleBalanced
  | .constantFolding => Workspace.foldConstants
  | .earlyQuantum => Workspace.scheduleEarly
  | .lateQuantum => Workspace.scheduleLate

/-- Whether a step has something to work on. Only the balanced schedule needs hybrid maps. -/
def applies (step : Step) (state : Workspace) : Bool :=
  step != .reordering || state.knowsHybrids

/-- Whether a step may remove hybrid instructions or make them plain ones. -/
def spoilsHybrids : Step → Bool
  | .deadCode | .constantFolding => true
  | _ => false

/-- Carry out a step, whether it applies or not. -/
def perform (step : Step) (state : Workspace) : Workspace × Except OptimizeError StepReport :=
  let result := step.change state
  (result.1, result.2.map (fun findings => ⟨step.name, findings⟩))

/-- Carry out a step in a sequence: skip it where it does not apply, and forget the hybrid maps where it
    spoils them. -/
def dispatch (step : Step) (state : Workspace) :
    Except OptimizeError (Workspace × StepReport) :=
  if step.applies state then
    match step.perform state with
    | (next, .ok report) => .ok (if step.spoilsHybrids then next.forgetHybrids else next, report)
    | (_, .error error) => .error error
  else .ok (state, ⟨step.name, .skipped⟩)

theorem mem_all (step : Step) : step ∈ all := by
  cases step <;> decide

@[simp] theorem ofName?_name (step : Step) : ofName? step.name = some step := by
  cases step <;> decide

end Step

end TwoLane
