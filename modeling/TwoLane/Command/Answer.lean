import TwoLane.Command.Files
import TwoLane.HybridProgram.Table
import TwoLane.Optimize.Search
import TwoLane.Text.LowerCase

/-! # Answers

The answer of the command line to its arguments: an exit code, the output, messages, and perhaps a text to be
saved. Arguments that cannot be understood give the exit code two, and errors give one.
-/

namespace TwoLane

/-- What the command line answers. -/
structure Answer where
  code : Nat
  /-- The text on standard output. -/
  output : String
  /-- The lines on standard error. -/
  messages : List String
  /-- A path and the text to be written there. -/
  save : Option (String × String)
  deriving Repr, DecidableEq, Inhabited

namespace Answer

def closed (lines : List String) : String :=
  String.join (lines.map (· ++ "\n"))

def ofLines (lines : List String) : Answer :=
  ⟨0, closed lines, [], none⟩

def orError (messages : List String) : Except CommandError Answer → Answer
  | .ok answer => { answer with messages := messages ++ answer.messages }
  | .error error => ⟨1, "", messages ++ [error.message], none⟩

def saved (answer : Answer) : Except String Unit → Answer
  | .ok _ =>
      { answer with
        messages := answer.messages ++ (answer.save.map (fun s => "  Output: " ++ s.1)).toList
        save := none }
  | .error reason =>
      let path := (answer.save.map Prod.fst).getD ""
      { answer with
        code := 1
        messages := answer.messages ++ [CommandError.message (.unwritable path reason)]
        save := none }

end Answer

namespace Overrides

/-- Replace settings by those given. -/
def apply (overrides : Overrides) (settings : Settings) : Settings :=
  { settings with search := {
      iterations := overrides.iterations.getD settings.search.iterations
      maxSteps := overrides.maxSteps.getD settings.search.maxSteps
      seed := overrides.seed.or settings.search.seed } }

end Overrides

namespace Command

/-- Given values, or those of the settings if there are none. -/
def orElse (given configured : List String) : List String :=
  if given.isEmpty then configured else given

def analyseAnswer (files : Files) (paths : ProgramFiles) (format : String) :
    Except CommandError Answer := do
  let program ← files.program paths []
  match Text.lower format with
  | "table" => .ok (.ofLines program.table)
  | "json" => .ok (.ofLines [program.overview.pretty])
  | other => .error (.unknownFormat other)

/-- Run one step sequence on a program whose cost is known. -/
def runAnswer (workspace : Workspace) (baseline : Metrics) (steps : List String)
    (output : Option String) : Except CommandError Answer := do
  let report ← (workspace.report steps).mapError .optimization
  let message := "✓ Wall time " ++ toString baseline.wallTime ++ " -> " ++
    toString report.metrics.wallTime ++ " (" ++ toString baseline.instructions ++ " -> " ++
    toString report.metrics.instructions ++ " instructions)"
  let text := report.toJson.pretty
  match output with
  | some path => .ok ⟨0, "", [message], some (path, text)⟩
  | none => .ok ⟨0, text ++ "\n", [message], none⟩

def optimizeAnswer (files : Files) (paths : ProgramFiles) (settings : Option String)
    (steps readout : List String) (output : Option String) : Except CommandError Answer := do
  let settings ← files.settings settings
  let steps := orElse steps settings.steps
  let program ← files.program paths (orElse readout settings.readout)
  let workspace := Workspace.ofProgram program
  let baseline ← workspace.metrics.mapError .optimization
  let message := "→ Running " ++ toString steps.length ++ " steps over " ++
    toString program.lists.length ++ " blocks"
  .ok (.orError [message] (runAnswer workspace baseline steps output))

def resultLines (result : SearchResult) : List String :=
  match result.best with
  | some (steps, time) =>
      ["  Best wall time:     " ++ toString time,
        "  Best sequence:      " ++ String.intercalate " " (steps.map Step.name)]
  | none => ["  No sequence completed"]

/-- Search for a good step sequence, from a place of its own if the settings give no seed. -/
def searchAnswer (files : Files) (freshSeed : Nat) (paths : ProgramFiles)
    (settings : Option String) (readout : List String) (overrides : Overrides) :
    Except CommandError Answer := do
  let settings := overrides.apply (← files.settings settings)
  settings.check.mapError .settings
  let program ← files.program paths (orElse readout settings.readout)
  let workspace := Workspace.ofProgram program
  let baseline ← workspace.metrics.mapError .optimization
  let search := settings.search
  let seed := search.seed.getD freshSeed
  let result := workspace.search search.iterations search.maxSteps seed
  .ok (.ofLines (
    ["→ Searching " ++ toString search.iterations ++ " sequences of up to " ++
        toString search.maxSteps ++ " steps (seed " ++ toString seed ++ ")",
      "✓ " ++ toString search.iterations ++ " sequences run, " ++ toString result.failures ++
        " failed",
      "  Baseline wall time: " ++ toString baseline.wallTime] ++ resultLines result))

def answer (files : Files) (freshSeed : Nat) : Command → Answer
  | .analyse paths format => .orError [] (analyseAnswer files paths format)
  | .optimize paths settings steps readout output =>
      .orError [] (optimizeAnswer files paths settings steps readout output)
  | .search paths settings readout overrides =>
      .orError [] (searchAnswer files freshSeed paths settings readout overrides)

/-- The files that a command reads. -/
def inputs : Command → List String
  | .analyse paths _ => [paths.tree, paths.source]
  | .optimize paths settings _ _ _ => [paths.tree, paths.source] ++ settings.toList
  | .search paths settings _ _ => [paths.tree, paths.source] ++ settings.toList

end Command

namespace Request

def versionText : String := "qflow 0.3.0"

/-- How the command line is used. -/
def usage : List String :=
  ["Usage: qflow [-v]... <COMMAND>",
    "",
    "Commands:",
    "  analyse   Show blocks, ranks, dominators, lanes and hybrid dependencies",
    "  optimize  Run one optimization step sequence",
    "  search    Sample random step sequences and keep the fastest",
    "",
    "Options of every command:",
    "  -t, --tree <TREE>              Parse tree (JSON)",
    "  -s, --source <SOURCE>          Quil source text",
    "Options of analyse:",
    "  -f, --format <FORMAT>          Output format (table, json)",
    "Options of optimize and search:",
    "  -c, --config <CONFIG>          Optimizer configuration (YAML or JSON)",
    "  -r, --readout <READOUT>        Classical variable observed after the program ends",
    "Options of optimize:",
    "      --step <STEP>              Step to run; repeat for a sequence",
    "  -o, --output <OUTPUT>          Output file for the JSON report",
    "Options of search:",
    "  -i, --iterations <ITERATIONS>  Number of sampled sequences",
    "      --max-steps <MAX_STEPS>    Longest sampled sequence",
    "      --seed <SEED>              Seed of the random choices"]

/-- The files that a request reads. -/
def inputs : Option Request → List String
  | some (.command asked) => asked.inputs
  | _ => []

/-- Answer a request, or say how the command line is used if there is none. -/
def answer (files : Files) (freshSeed : Nat) : Option Request → Answer
  | some (.command asked) => asked.answer files freshSeed
  | some .help => .ofLines usage
  | some .version => .ofLines [versionText]
  | none => ⟨2, "", usage, none⟩

end Request

end TwoLane
