import TwoLane.Document.Record
import TwoLane.Text.Blank

/-! # Requests

A request is what the arguments of the command line ask for. An option is given by its long name or by its
letter, with its value attached or as the next argument. Letters may be put together, and a value that is an
argument of its own starts with a dash only if it is nothing but a dash. The options of a command are read
one after the other, and the first fault decides.
-/

namespace TwoLane

/-- An option that takes a value. -/
inductive Field where
  | tree
  | source
  | format
  | settings
  | step
  | readout
  | output
  | iterations
  | maxSteps
  | seed
  deriving Repr, DecidableEq, Inhabited

namespace Field

/-- The long name of an option. -/
def name : Field → String
  | .tree => "tree"
  | .source => "source"
  | .format => "format"
  | .settings => "config"
  | .step => "step"
  | .readout => "readout"
  | .output => "output"
  | .iterations => "iterations"
  | .maxSteps => "max-steps"
  | .seed => "seed"

def letter? : Field → Option Char
  | .tree => some 't'
  | .source => some 's'
  | .format => some 'f'
  | .settings => some 'c'
  | .readout => some 'r'
  | .output => some 'o'
  | .iterations => some 'i'
  | .step | .maxSteps | .seed => none

/-- Whether an option may be given several times. -/
def repeats (field : Field) : Bool :=
  field == .step || field == .readout

/-- Whether the value of an option is a number. -/
def isCount : Field → Bool
  | .iterations | .maxSteps | .seed => true
  | _ => false

end Field

/-- What the command line can do. -/
inductive Verb where
  | analyse
  | optimize
  | search
  deriving Repr, DecidableEq, Inhabited

namespace Verb

def all : List Verb := [.analyse, .optimize, .search]

def name : Verb → String
  | .analyse => "analyse"
  | .optimize => "optimize"
  | .search => "search"

def ofName? (name : String) : Option Verb :=
  all.find? (fun verb => verb.name == name)

def fields : Verb → List Field
  | .analyse => [.tree, .source, .format]
  | .optimize => [.tree, .source, .settings, .step, .readout, .output]
  | .search => [.tree, .source, .settings, .readout, .iterations, .maxSteps, .seed]

end Verb

/-- The options given, in their order. -/
abbrev Given := List (Field × String)

namespace Given

/-- The number that an argument is: digits behind an optional plus sign, below two to the power of
    sixty-four. -/
def count? (value : String) : Option Nat :=
  let digits :=
    match value.toList with
    | '+' :: rest => rest
    | whole => whole
  (Text.valueIn? 10 digits).bind Document.word?

def accept? (given : Given) (field : Field) (value : String) : Option Given :=
  if !field.repeats && given.any (fun entry => entry.1 == field) then none
  else if field.isCount && (count? value).isNone then none
  else some (given ++ [(field, value)])

def value? (given : Given) (field : Field) : Option String :=
  given.lookup field

def values (given : Given) (field : Field) : List String :=
  (given.filter (fun entry => entry.1 == field)).map Prod.snd

def number? (given : Given) (field : Field) : Option Nat :=
  (given.value? field).bind count?

end Given

/-- Settings of a search given on the command line. -/
structure Overrides where
  iterations : Option Nat
  maxSteps : Option Nat
  seed : Option Nat
  deriving Repr, DecidableEq, Inhabited

/-- The files that hold a program. -/
structure ProgramFiles where
  tree : String
  source : String
  deriving Repr, DecidableEq, Inhabited

/-- A complete command. -/
inductive Command where
  | analyse (program : ProgramFiles) (format : String)
  | optimize (program : ProgramFiles) (settings : Option String) (steps readout : List String)
      (output : Option String)
  | search (program : ProgramFiles) (settings : Option String) (readout : List String)
      (overrides : Overrides)
  deriving Repr, DecidableEq, Inhabited

namespace Command

def ofGiven? (verb : Verb) (given : Given) : Option Command := do
  let tree ← given.value? .tree
  let source ← given.value? .source
  let program : ProgramFiles := ⟨tree, source⟩
  let settings := given.value? .settings
  let readout := given.values .readout
  match verb with
  | .analyse => some (.analyse program ((given.value? .format).getD "table"))
  | .optimize =>
      some (.optimize program settings (given.values .step) readout (given.value? .output))
  | .search =>
      some (.search program settings readout
        ⟨given.number? .iterations, given.number? .maxSteps, given.number? .seed⟩)

end Command

/-- What arguments ask for. -/
inductive Request where
  | command (command : Command)
  | help
  | version
  deriving Repr, DecidableEq, Inhabited

namespace Request

/-- What an argument means that starts with a dash. -/
inductive Dashed where
  /-- Flags that change nothing in the answer. -/
  | quiet
  | help
  | version
  /-- An option whose value is the next argument. -/
  | awaiting (field : Field)
  | complete (field : Field) (value : String)
  deriving Repr, DecidableEq, Inhabited

/-- Read letters behind a dash. Only the program as a whole has a version. -/
def letters? (fields : List Field) (versioned : Bool) : List Char → Option Dashed
  | [] => some .quiet
  | 'v' :: rest => letters? fields versioned rest
  | 'h' :: _ => some .help
  | c :: rest =>
      if c = 'V' ∧ versioned then some .version
      else do
        let field ← fields.find? (fun field => field.letter? == some c)
        match rest with
        | [] => some (.awaiting field)
        | '=' :: value => some (.complete field (String.ofList value))
        | value => some (.complete field (String.ofList value))

/-- Read a long name behind two dashes. -/
def word? (fields : List Field) (versioned : Bool) (word : List Char) : Option Dashed :=
  match Text.splitOnce '=' word with
  | some (name, value) => do
      let field ← fields.find? (fun field => field.name.toList == name)
      some (.complete field (String.ofList value))
  | none =>
      match String.ofList word with
      | "verbose" => some .quiet
      | "help" => some .help
      | "version" => if versioned then some .version else none
      | name => (fields.find? (fun field => field.name == name)).map .awaiting

/-- Whether an argument is an option or flag, and not a value. -/
def isDashed (argument : String) : Bool :=
  match argument.toList with
  | '-' :: _ :: _ => true
  | _ => false

/-- Read an argument that starts with a dash. -/
def dashed? (fields : List Field) (versioned : Bool) (argument : String) : Option Dashed :=
  match argument.toList with
  | '-' :: '-' :: word => word? fields versioned word
  | '-' :: letters => letters? fields versioned letters
  | _ => none

/-- Read the options of a verb behind those given so far. Two dashes end them, and nothing may follow. -/
def options? (verb : Verb) (given : Given) : List String → Option Request
  | [] => (Command.ofGiven? verb given).map .command
  | argument :: rest =>
      if argument = "--" then
        if rest.isEmpty then (Command.ofGiven? verb given).map .command else none
      else if isDashed argument then
        match dashed? verb.fields false argument with
        | some .quiet => options? verb given rest
        | some .help => some .help
        | some (.complete field value) =>
            match given.accept? field value with
            | some more => options? verb more rest
            | none => none
        | some (.awaiting field) =>
            match rest with
            | [] => none
            | value :: rest =>
                if isDashed value then none
                else
                  match given.accept? field value with
                  | some more => options? verb more rest
                  | none => none
        | _ => none
      else none

/-- Whether the arguments behind the request for help name something that help is about. -/
def helpTopic : List String → Bool
  | [] => true
  | [topic] => topic == "help" || (Verb.ofName? topic).isSome
  | _ => false

/-- Read the arguments of the command line; nothing if they cannot be understood. -/
def read? : List String → Option Request
  | [] => none
  | argument :: rest =>
      if isDashed argument then
        match dashed? [] true argument with
        | some .quiet => read? rest
        | some .help => some .help
        | some .version => some .version
        | _ => none
      else if argument = "help" then if helpTopic rest then some .help else none
      else
        match Verb.ofName? argument with
        | some verb => options? verb [] rest
        | none => none

end Request

end TwoLane
