import TwoLane.Document.Record
import TwoLane.Json.Document
import TwoLane.Settings.Basic
import TwoLane.Text.Blank
import TwoLane.Yaml.Document

/-! # Settings files

A settings file is YAML or JSON, as the extension of its name says. It is a record of which every field may be
left out; in JSON the fields may also go by their positions.
-/

namespace TwoLane

/-- How a settings file is written. -/
inductive SettingsFormat where
  | yaml
  | json
  deriving Repr, DecidableEq, Inhabited

/-- Why a settings file gives no settings. -/
inductive SettingsError where
  /-- The file cannot be read, for a reason that the system gives. -/
  | unreadable (reason : String)
  /-- The text does not follow its format, or does not hold settings. -/
  | malformed (format : SettingsFormat)
  | useless (fault : SettingsFault)
  deriving Repr, DecidableEq, Inhabited

namespace SettingsFormat

def name : SettingsFormat → String
  | .yaml => "YAML"
  | .json => "JSON"

def read? : SettingsFormat → String → Option Document
  | .yaml => Yaml.read?
  | .json => Json.read?

/-- Whether the fields of a record may go by their positions. -/
def positional : SettingsFormat → Bool
  | .yaml => false
  | .json => true

/-- The last component of a path that is no name of the present directory. -/
def lastComponent (path : List Char) : List Char :=
  (((Text.splitAt '/' path).filter (fun part => part ≠ [] ∧ part ≠ ['.'])).getLast?).getD []

/-- The extension of a file name: what follows its last dot, unless the name starts with this dot. -/
def extension? (name : List Char) : Option (List Char) :=
  let reversed := (name.reverse.takeWhile (· ≠ '.')).reverse
  if name = ['.', '.'] ∨ name.length ≤ reversed.length + 1 then none else some reversed

/-- The format of a file. The case of the extension does not matter. -/
def ofPath (path : String) : SettingsFormat :=
  match extension? (lastComponent path.toList) with
  | some extension =>
      if ["yaml", "yml"].contains (String.ofList (extension.map Char.toLower)) then .yaml
      else .json
  | none => .json

end SettingsFormat

namespace SettingsError

def message : SettingsError → String
  | .unreadable reason => "Failed to read configuration: " ++ reason
  | .malformed format => "Failed to parse " ++ format.name ++ " configuration"
  | .useless fault => fault.message

end SettingsError

namespace SearchSettings

def ofDocument? (positional : Bool) (document : Document) : Option SearchSettings := do
  match ← document.record? positional ["iterations", "max_steps", "seed"] with
  | [iterations, maxSteps, seed] =>
      let defaults : SearchSettings := {}
      let iterations ← Document.orDefault defaults.iterations Document.count? iterations
      let maxSteps ← Document.orDefault defaults.maxSteps Document.count? maxSteps
      let seed ← Document.orDefault defaults.seed (Document.optional? Document.count?) seed
      some ⟨iterations, maxSteps, seed⟩
  | _ => none

end SearchSettings

namespace Settings

def ofDocument? (positional : Bool) (document : Document) : Option Settings := do
  match ← document.record? positional ["readout", "steps", "search"] with
  | [readout, steps, search] =>
      let defaults : Settings := {}
      let readout ← Document.orDefault defaults.readout Document.texts? readout
      let steps ← Document.orDefault defaults.steps Document.texts? steps
      let search ← Document.orDefault defaults.search (SearchSettings.ofDocument? positional) search
      some ⟨readout, steps, search⟩
  | _ => none

def read (format : SettingsFormat) (text : String) : Except SettingsError Settings :=
  match (format.read? text).bind (ofDocument? format.positional) with
  | none => .error (.malformed format)
  | some settings =>
      match settings.check with
      | .ok _ => .ok settings
      | .error fault => .error (.useless fault)

end Settings

end TwoLane
