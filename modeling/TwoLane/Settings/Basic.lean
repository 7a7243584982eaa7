import TwoLane.Optimize.Step

/-! # Settings

Settings say which references are read out, which steps a single run takes, and how far a search for good step
sequences goes.
-/

namespace TwoLane

structure SearchSettings where
  /-- How many sequences are sampled. -/
  iterations : Nat := 100
  /-- How many steps a sampled sequence has at most. -/
  maxSteps : Nat := 8
  /-- Where the random choices start; any place will do if it is absent. -/
  seed : Option Nat := none
  deriving Repr, DecidableEq, Inhabited

/-- The steps of a run that names none. -/
def defaultSteps : List String :=
  [Step.liveVariables, .constantPropagation, .constantFolding, .deadCode, .hybridDependencies,
    .reordering].map Step.name

/-- The settings of an optimization. -/
structure Settings where
  readout : List String := []
  steps : List String := defaultSteps
  search : SearchSettings := {}
  deriving Repr, DecidableEq, Inhabited

/-- What makes settings useless. -/
inductive SettingsFault where
  | noIterations
  | noSteps
  deriving Repr, DecidableEq, Inhabited

namespace SettingsFault

def requirement : SettingsFault → String
  | .noIterations => "search.iterations must be at least 1"
  | .noSteps => "search.max_steps must be at least 1"

def message (fault : SettingsFault) : String :=
  "Invalid configuration: " ++ fault.requirement

end SettingsFault

namespace Settings

/-- A search has to sample at least one sequence, and a sequence at least one step. -/
def check (settings : Settings) : Except SettingsFault Unit :=
  if settings.search.iterations = 0 then .error .noIterations
  else if settings.search.maxSteps = 0 then .error .noSteps
  else .ok ()

theorem check_eq_ok_iff {settings : Settings} :
    settings.check = .ok () ↔ 0 < settings.search.iterations ∧ 0 < settings.search.maxSteps := by
  unfold check
  split
  · next h => simp [h]
  · next h =>
      split
      · next h' => simp [h']
      · next h' => simp [Nat.pos_of_ne_zero h, Nat.pos_of_ne_zero h']

/-- The report form of settings. -/
def toJson (settings : Settings) : Json :=
  .obj [("readout", .strings settings.readout), ("steps", .strings settings.steps),
    ("search", .obj [("iterations", .nat settings.search.iterations),
      ("max_steps", .nat settings.search.maxSteps),
      ("seed", .option .nat settings.search.seed)])]

end Settings

end TwoLane
