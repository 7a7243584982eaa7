import TwoLane.Optimize.Step

/-! # Runs

A run carries out a sequence of steps on the lists of a program and reports each one, the final texts and
the final cost. Names that are no steps are passed over.
-/

namespace TwoLane

structure BlockText where
  index : Nat
  name : String
  instructions : List String
  deriving Repr, DecidableEq, Inhabited

structure RunReport where
  steps : List StepReport
  blocks : List BlockText
  metrics : Metrics
  deriving Inhabited

namespace RunReport

/-- The report form of the text of a list. -/
def blockToJson (text : BlockText) : Json :=
  .obj [("index", .nat text.index), ("name", .str text.name),
    ("instructions", .strings text.instructions)]

def toJson (report : RunReport) : Json :=
  .obj [("steps", .list StepReport.toJson report.steps),
    ("blocks", .list blockToJson report.blocks), ("metrics", report.metrics.toJson)]

end RunReport

namespace Workspace

/-- Carry out steps one after the other. -/
def dispatchAll : List Step → Workspace → Except OptimizeError (Workspace × List StepReport)
  | [], state => .ok (state, [])
  | step :: rest, state => do
      let (next, report) ← step.dispatch state
      let (final, reports) ← dispatchAll rest next
      .ok (final, report :: reports)

def texts (state : Workspace) : List BlockText :=
  state.lists.zipIdx.map (fun entry => ⟨entry.2, entry.1.name, entry.1.texts⟩)

def run (state : Workspace) (names : List String) : Except OptimizeError (RunReport × Workspace) := do
  let (final, reports) ← dispatchAll (names.filterMap Step.ofName?) state
  let metrics ← final.metrics
  .ok (⟨reports, final.texts, metrics⟩, final)

/-- The report of a sequence of step names. -/
def report (state : Workspace) (names : List String) : Except OptimizeError RunReport :=
  (state.run names).map Prod.fst

end Workspace

end TwoLane
