import TwoLane.Optimize.Run

/-! # Searches

A search samples step sequences at random, carries each one out on the lists of a program, and keeps the first
one with the least wall time. A sequence that fails is counted and passed over.
-/

namespace TwoLane

/-- The state of a generator of pseudo-random numbers. -/
structure Generator where
  state : UInt64
  deriving Repr, DecidableEq, Inhabited

namespace Generator

def ofSeed (seed : Nat) : Generator :=
  ⟨UInt64.ofNat seed⟩

/-- Advance the state by a fixed odd number and mix its bits. -/
def next (generator : Generator) : UInt64 × Generator :=
  let state := generator.state + 0x9E3779B97F4A7C15
  let a := (state ^^^ (state >>> 30)) * 0xBF58476D1CE4E5B9
  let b := (a ^^^ (a >>> 27)) * 0x94D049BB133111EB
  (b ^^^ (b >>> 31), ⟨state⟩)

/-- A number below a positive bound. -/
def below (bound : Nat) (generator : Generator) : Nat × Generator :=
  let (bits, generator) := generator.next
  (bits.toNat % bound, generator)

def steps : Nat → Generator → List Step × Generator
  | 0, generator => ([], generator)
  | count + 1, generator =>
      let (index, generator) := generator.below Step.all.length
      let (rest, generator) := steps count generator
      ((Step.all[index]?).toList ++ rest, generator)

/-- A sequence of at least one step and at most as many as given. -/
def sequence (maxSteps : Nat) (generator : Generator) : List Step × Generator :=
  let (extra, generator) := generator.below maxSteps
  generator.steps (extra + 1)

end Generator

/-- What a search has found. -/
structure SearchResult where
  failures : Nat
  /-- The first sequence with the least wall time. -/
  best : Option (List Step × Nat)
  deriving Repr, Inhabited

namespace SearchResult

/-- Take note of a sequence that ran with a wall time, or failed. -/
def note (result : SearchResult) (steps : List Step) : Option Nat → SearchResult
  | none => { result with failures := result.failures + 1 }
  | some time =>
      if result.best.all (fun best => time < best.2) then
        { result with best := some (steps, time) }
      else result

end SearchResult

namespace Workspace

/-- The wall time of a sequence of steps, unless one of them fails. -/
def wallTime? (state : Workspace) (steps : List Step) : Option Nat :=
  match state.report (steps.map Step.name) with
  | .ok report => some report.metrics.wallTime
  | .error _ => none

def searchFrom (state : Workspace) (maxSteps : Nat) :
    Nat → Generator → SearchResult → SearchResult
  | 0, _, result => result
  | iterations + 1, generator, result =>
      let (steps, generator) := generator.sequence maxSteps
      searchFrom state maxSteps iterations generator (result.note steps (state.wallTime? steps))

/-- Search for the sequence with the least wall time. -/
def search (state : Workspace) (iterations maxSteps seed : Nat) : SearchResult :=
  searchFrom state maxSteps iterations (.ofSeed seed) ⟨0, none⟩

end Workspace

end TwoLane
