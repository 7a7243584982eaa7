import TwoLane.Sorted
import TwoLane.Instruction.Occurrence
import TwoLane.Resource
import TwoLane.Json.Basic

/-! # Reports

What a step found or changed, list by list, and the cost of a program. Every finding names the position of
its list and the block that the list comes from.
-/

namespace TwoLane

/-- A known value: of a memory reference, or of a qubit. -/
inductive KnownValue where
  | memory (value : Number)
  | qubit (state : QubitState)
  deriving Inhabited

/-- The report form of a known value. -/
def KnownValue.toJson : KnownValue → Json
  | .memory value => .tagged "Classical" value.toJson
  | .qubit state => .tagged "Quantum" (.str state.name)

/-- Whether an occurrence of a resource is dead. -/
structure ResourceLiveness where
  line : Nat
  resource : Resource
  dead : Bool
  deriving Repr, DecidableEq, Inhabited

/-- The name of a name space in reports. -/
def Resource.kindName (resource : Resource) : String :=
  if resource.isQubit then "quantum" else "classical"

/-- The report form of the liveness of an occurrence. -/
def ResourceLiveness.toJson (liveness : ResourceLiveness) : Json :=
  .obj [("line", .nat liveness.line), ("name", .str liveness.resource.name),
    ("kind", .str liveness.resource.kindName), ("dead", .bool liveness.dead)]

/-- A finding about one list. -/
structure Located (α : Type) where
  /-- The position of the list. -/
  index : Nat
  /-- The name of its block. -/
  block : String
  content : α
  deriving Inhabited

/-- The fields that say where a finding is, and the ones that say what it is. -/
def Located.fields {α : Type} (located : Located α) (more : α → List (String × Json)) : Json :=
  .obj (("index", .nat located.index) :: ("block", .str located.block) :: more located.content)

/-- A value that became known on a line. -/
structure NewConstant where
  line : Nat
  name : String
  value : KnownValue
  deriving Inhabited

/-- The text of an instruction before and after a change. -/
structure TextChange where
  line : Nat
  before : String
  after : String
  deriving Repr, DecidableEq, Inhabited

/-- The texts of a list before and after a change of order. -/
structure OrderChange where
  before : List String
  after : List String
  deriving Repr, DecidableEq, Inhabited

/-- For each hybrid line the other lines it depends on. -/
abbrev HybridMap := Table Nat (List Nat)

namespace HybridMap

/-- The report form of a map; keys are written as text. -/
def toJson (map : HybridMap) : Json :=
  .obj (map.map (fun entry => (toString entry.1, .nats entry.2)))

end HybridMap

inductive Findings where
  /-- The step had nothing to work on. -/
  | skipped
  | liveness (blocks : List (Located (List ResourceLiveness)))
  | constants (found : List (Located NewConstant))
  | hybrids (blocks : List (Located HybridMap))
  /-- The removed lines, and the positions of lists that cannot be reached. -/
  | deadCode (removed : List (Located (List Nat))) (deadBlocks : List Nat)
  | folding (changes : List (Located TextChange))
  | reordering (blocks : List (Located OrderChange))
  deriving Inhabited

namespace Findings

def kind (name : String) (fields : List (String × Json)) : Json :=
  .obj (("kind", .str name) :: fields)

/-- The report form of findings. -/
def toJson : Findings → Json
  | .skipped => kind "skipped" []
  | .liveness blocks =>
      kind "liveness"
        [("blocks", .list (fun b => b.fields (fun judged =>
          [("variables", .list ResourceLiveness.toJson judged)])) blocks)]
  | .constants found =>
      kind "constants"
        [("new", .list (fun c => c.fields (fun constant =>
          [("line", .nat constant.line), ("name", .str constant.name),
            ("value", constant.value.toJson)])) found)]
  | .hybrids blocks =>
      kind "hybrid_dependencies"
        [("blocks", .list (fun b => b.fields (fun map => [("dependencies", map.toJson)])) blocks)]
  | .deadCode removed deadBlocks =>
      kind "dead_code"
        [("removed", .list (fun b => b.fields (fun lines => [("lines", .nats lines)])) removed),
          ("dead_blocks", .nats deadBlocks)]
  | .folding changes =>
      kind "folding"
        [("rewrites", .list (fun c => c.fields (fun change =>
          [("line", .nat change.line), ("before", .str change.before),
            ("after", .str change.after)])) changes)]
  | .reordering blocks =>
      kind "reordering"
        [("blocks", .list (fun b => b.fields (fun change =>
          [("before", .strings change.before), ("after", .strings change.after)])) blocks)]

end Findings

structure StepReport where
  step : String
  findings : Findings
  deriving Inhabited

namespace StepReport

/-- Whether the step was left out because it had nothing to work on. -/
def isSkipped (report : StepReport) : Bool :=
  match report.findings with
  | .skipped => true
  | _ => false

def toJson (report : StepReport) : Json :=
  .obj [("step", .str report.step), ("facts", report.findings.toJson)]

end StepReport

end TwoLane
