import TwoLane.Optimize.Error
import TwoLane.Settings.File

/-! # Command errors

Why a command ends without its result. The wording goes from what was to be done to what prevented it.
-/

namespace TwoLane

inductive CommandError where
  | notFound (path : String)
  | unreadable (path reason : String)
  | unwritable (path reason : String)
  /-- A file does not hold a syntax tree. -/
  | malformedTree (path : String)
  | analysis (error : ProgramError)
  | settingsFile (path : String) (error : SettingsError)
  | settings (fault : SettingsFault)
  | optimization (error : OptimizeError)
  | unknownFormat (name : String)
  deriving Repr, DecidableEq, Inhabited

def SettingsError.chain : SettingsError → List String
  | .unreadable reason => [SettingsError.message (.unreadable reason), reason]
  | error => [error.message]

def OptimizeError.chain : OptimizeError → List String
  | .program error => [OptimizeError.message (.program error), error.message]
  | error => [error.message]

namespace CommandError

/-- The messages of an error, from the outermost one to its cause. -/
def chain : CommandError → List String
  | .notFound path => ["File not found: " ++ path]
  | .unreadable path reason => ["Failed to read file: " ++ path, reason]
  | .unwritable path reason => ["Failed to write file: " ++ path, reason]
  | .malformedTree path => ["Invalid parse tree: " ++ path]
  | .analysis error => ["Analysis error: " ++ error.message]
  | .settingsFile path error => ("Failed to load configuration: " ++ path) :: error.chain
  | .settings fault => [fault.message]
  | .optimization error => error.chain
  | .unknownFormat name =>
      ["Unknown format: '" ++ name ++ "'. Available: table, json"]

/-- The line that tells an error. -/
def message (error : CommandError) : String :=
  "Error: " ++ String.intercalate ": " error.chain

end CommandError

end TwoLane
