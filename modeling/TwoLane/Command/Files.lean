import TwoLane.Command.Error
import TwoLane.Command.Request
import TwoLane.HybridProgram
import TwoLane.Tree.Decode

/-! # Files of a command

A command sees files only by what their paths lead to. It reads a program from two of them and settings from
a third one.
-/

namespace TwoLane

/-- What a path leads to. -/
inductive FileView where
  /-- Nothing, for a reason that the system gives. -/
  | missing (reason : String)
  /-- Something that cannot be read as text, for a reason that the system gives. -/
  | unreadable (reason : String)
  | text (content : String)
  deriving Repr, DecidableEq, Inhabited

/-- What every path leads to. -/
abbrev Files := String → FileView

namespace Files

/-- A path has to lead to something. -/
def require (files : Files) (path : String) : Except CommandError Unit :=
  match files path with
  | .missing _ => .error (.notFound path)
  | _ => .ok ()

/-- The text at a path, or why there is none. -/
def read (files : Files) (path : String) : Except String String :=
  match files path with
  | .missing reason | .unreadable reason => .error reason
  | .text content => .ok content

def readText (files : Files) (path : String) : Except CommandError String :=
  (files.read path).mapError (.unreadable path)

/-- Read and analyse a program. Both files have to exist before one of them is read. -/
def program (files : Files) (paths : ProgramFiles) (readout : List String) :
    Except CommandError HybridProgram := do
  files.require paths.tree
  files.require paths.source
  let text ← files.readText paths.tree
  match Tree.read? text with
  | none => .error (.malformedTree paths.tree)
  | some root =>
      let source ← files.readText paths.source
      (HybridProgram.ofTree root source readout).mapError .analysis

/-- Read settings, or take the defaults where no file is named. -/
def settings (files : Files) : Option String → Except CommandError Settings
  | none => .ok {}
  | some path =>
      match files.read path with
      | .error reason => .error (.settingsFile path (.unreadable reason))
      | .ok text => (Settings.read (.ofPath path) text).mapError (.settingsFile path)

end Files

end TwoLane
