import TwoLane.Memory
import TwoLane.Qubit

/-! # Occurrences

An instruction holds one occurrence for each memory reference and each qubit that it touches. An occurrence
records how the name is touched, what is known about its value, and its neighbours on the chain of the
name: the instructions before and after it in the list that touch the same name.
-/

namespace TwoLane

/-- The neighbours of an instruction on a chain. -/
structure Links where
  previous : List Nat
  next : List Nat
  deriving Repr, DecidableEq, Inhabited

namespace Links

/-- No neighbours. -/
def none : Links :=
  ⟨[], []⟩

/-- Whether there are no neighbours. -/
def isDetached (links : Links) : Bool :=
  links.previous.isEmpty && links.next.isEmpty

def join (numbers added : List Nat) : List Nat :=
  added.foldl (fun acc n => if acc.contains n then acc else acc ++ [n]) numbers

/-- Drop a number from a list and take others in its place. -/
def bypass (id : Nat) (instead numbers : List Nat) : List Nat :=
  join (numbers.filter (fun n => n != id)) instead

/-- The report form of links. -/
def toJson (links : Links) : Json :=
  .obj [("previous", .nats links.previous), ("next", .nats links.next)]

end Links

/-- A memory reference as one instruction touches it. -/
structure MemoryOccurrence where
  name : String
  use : MemoryUse
  /-- The value of the reference once the instruction has run, where it is known. -/
  value : Option Number
  links : Links
  deriving Inhabited, BEq

namespace MemoryOccurrence

/-- An occurrence about which nothing is known. -/
def ofAccess (access : MemoryAccess) : MemoryOccurrence :=
  ⟨access.name, access.use, none, .none⟩

/-- Whether the instruction writes the reference. -/
def isAssignment (occurrence : MemoryOccurrence) : Bool :=
  occurrence.use == .assignment

/-- The report form of an occurrence. -/
def toJson (occurrence : MemoryOccurrence) : Json :=
  .obj [
    ("variable",
      .obj [("name", .str occurrence.name), ("usage", .str occurrence.use.name),
        ("value", .option Number.toJson occurrence.value)]),
    ("links", occurrence.links.toJson)]

end MemoryOccurrence

/-- A qubit as one instruction touches it. -/
structure QubitOccurrence where
  name : String
  use : QubitUse
  /-- The state before the instruction runs, where it is known. -/
  before : Option QubitState
  /-- The state once the instruction has run, where it is known. -/
  after : Option QubitState
  links : Links
  deriving Inhabited, BEq

namespace QubitOccurrence

/-- An occurrence about which nothing is known. -/
def ofAccess (access : QubitAccess) : QubitOccurrence :=
  ⟨access.name, access.use, none, none, .none⟩

/-- The report form of an occurrence. -/
def toJson (occurrence : QubitOccurrence) : Json :=
  .obj [
    ("variable",
      .obj [("name", .str occurrence.name), ("usage", .str occurrence.use.name),
        ("state_before", .option (fun state => .str state.name) occurrence.before),
        ("state_after", .option (fun state => .str state.name) occurrence.after)]),
    ("links", occurrence.links.toJson)]

end QubitOccurrence

end TwoLane
