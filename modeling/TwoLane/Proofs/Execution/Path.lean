import TwoLane.Proofs.Execution.Order
import TwoLane.Proofs.Liveness.Judged

/-! # Paths through lists

A program starts with the list at position zero and goes on with a successor of each list. What is observed of a path
are the values that decide its conditional jumps and the references that are read out behind it. Two families of
lists are compared by a relation between the states in which their lists are entered.
-/

namespace TwoLane.Execution

variable {σ : Type}

section Paths

variable (device : Device σ) (lists : List InstructionList)

/-- Run the lists of a path, the first one after a number of others. -/
def runPath : Nat → State σ → List Nat → State σ
  | _, state, [] => state
  | visit, state, i :: rest =>
      runPath (visit + 1) (runList device visit ((lists[i]?).getD default) state) rest

/-- The values that decide the conditional jumps passed on a path. -/
def passed : Nat → State σ → List Nat → List Number
  | _, _, [] => []
  | visit, state, i :: rest =>
      decisions device visit ((lists[i]?).getD default) state ++
        passed (visit + 1) (runList device visit ((lists[i]?).getD default) state) rest

/-- How lists are entered on paths from the first one: after how many others, at which position and in which state. -/
inductive Enters (memory : String → Number) : Nat → Nat → State σ → Prop
  | start : Enters memory 0 0 (start device memory)
  | step {visit i j : Nat} {list : InstructionList} {state : State σ} (entered : Enters memory visit i state)
      (found : lists[i]? = some list) (goes : j ∈ list.successors) (onward : j ≠ 0) :
      Enters memory (visit + 1) j (runList device visit list state)

end Paths

/-- A path that starts with the first list, goes from successor to successor and does not come back. -/
structure IsPath (lists : List InstructionList) (path : List Nat) : Prop where
  begins : path.head? = some 0
  follows : Liveness.Follows lists path
  once : 0 ∉ path.tail
  inside : ∀ i ∈ path, i < lists.length

/-- Whether the same is observed of two families of lists on all paths. -/
structure SameResults (device : Device σ) (memory : String → Number) (readout : List String)
    (lists lists' : List InstructionList) : Prop where
  decisions : ∀ {path}, IsPath lists path →
    passed device lists' 0 (start device memory) path = passed device lists 0 (start device memory) path
  readout : ∀ {path}, IsPath lists path → ∀ name ∈ readout,
    (runPath device lists' 0 (start device memory) path).memory name =
      (runPath device lists 0 (start device memory) path).memory name

/-- Whether a relation of states holds whenever lists of two families are entered on the same path, and the same is
    observed of them. -/
structure Simulates (device : Device σ) (memory : String → Number) (readout : List String)
    (lists lists' : List InstructionList) (related : Nat → Nat → State σ → State σ → Prop) : Prop where
  flow : lists'.map InstructionList.successors = lists.map InstructionList.successors
  start : related 0 0 (start device memory) (start device memory)
  decisions : ∀ {visit i list list' a b}, lists[i]? = some list → lists'[i]? = some list' → related visit i a b →
    decisions device visit list' b = decisions device visit list a
  readout : ∀ {visit i list list' a b}, lists[i]? = some list → lists'[i]? = some list' → related visit i a b →
    ∀ name ∈ readout, (runList device visit list' b).memory name = (runList device visit list a).memory name
  step : ∀ {visit i list list' a b}, lists[i]? = some list → lists'[i]? = some list' → related visit i a b →
    ∀ j ∈ list.successors, j ≠ 0 →
      related (visit + 1) j (runList device visit list a) (runList device visit list' b)

variable {device : Device σ} {memory : String → Number} {readout : List String}
  {lists lists' : List InstructionList} {related : Nat → Nat → State σ → State σ → Prop} {visit i : Nat}
  {state a b : State σ}

theorem Enters.zero_of (entered : Enters device lists memory visit i state) (first : i = 0) (q : String) :
    state.qubits q = device.ket .zero := by
  cases entered with
  | start => rfl
  | step _ _ _ onward => exact absurd first onward

/-! ## Lists with the same flow -/

theorem flow_getElem? (flow : lists'.map InstructionList.successors = lists.map InstructionList.successors)
    {list : InstructionList} (found : lists[i]? = some list) :
    ∃ list', lists'[i]? = some list' ∧ list'.successors = list.successors := by
  have same := congrArg (fun all : List (List Nat) => all[i]?) flow
  simp only [List.getElem?_map, found, Option.map_some] at same
  exact Option.map_eq_some_iff.mp same

theorem flow_length (flow : lists'.map InstructionList.successors = lists.map InstructionList.successors) :
    lists'.length = lists.length := by
  simpa using congrArg List.length flow

theorem IsPath.of_flow (flow : lists'.map InstructionList.successors = lists.map InstructionList.successors)
    {path : List Nat} (isPath : IsPath lists path) : IsPath lists' path where
  begins := isPath.begins
  follows := by
    refine isPath.follows.imp ?_
    rintro i j ⟨list, found, goes⟩
    obtain ⟨list', found', same⟩ := flow_getElem? flow found
    exact ⟨list', found', same ▸ goes⟩
  once := isPath.once
  inside := by
    rw [flow_length flow]
    exact isPath.inside

theorem SameResults.refl (device : Device σ) (memory : String → Number) (readout : List String)
    (lists : List InstructionList) : SameResults device memory readout lists lists :=
  ⟨fun _ => rfl, fun _ _ _ => rfl⟩

theorem SameResults.trans {lists'' : List InstructionList}
    (flow : lists'.map InstructionList.successors = lists.map InstructionList.successors)
    (first : SameResults device memory readout lists lists')
    (second : SameResults device memory readout lists' lists'') :
    SameResults device memory readout lists lists'' where
  decisions := fun isPath =>
    (second.decisions (isPath.of_flow flow)).trans (first.decisions isPath)
  readout := fun isPath name member =>
    (second.readout (isPath.of_flow flow) name member).trans (first.readout isPath name member)

/-! ## Simulation -/

theorem passed_cons {list : InstructionList} (found : lists[i]? = some list) (rest : List Nat) :
    passed device lists visit state (i :: rest) = Execution.decisions device visit list state ++
      passed device lists (visit + 1) (runList device visit list state) rest := by
  rw [passed, found]
  rfl

theorem runPath_cons {list : InstructionList} (found : lists[i]? = some list) (rest : List Nat) :
    runPath device lists visit state (i :: rest) =
      runPath device lists (visit + 1) (runList device visit list state) rest := by
  rw [runPath, found]
  rfl

/-- From related states on the same is observed. -/
theorem Simulates.onward (simulates : Simulates device memory readout lists lists' related)
    {rest : List Nat} (follows : Liveness.Follows lists (i :: rest)) (once : 0 ∉ rest)
    (inside : ∀ j ∈ i :: rest, j < lists.length) (relates : related visit i a b) :
    passed device lists' visit b (i :: rest) = passed device lists visit a (i :: rest) ∧
      ∀ name ∈ readout, (runPath device lists' visit b (i :: rest)).memory name =
        (runPath device lists visit a (i :: rest)).memory name := by
  induction rest generalizing visit i a b with
  | nil =>
      have found := List.getElem?_eq_getElem (inside i List.mem_cons_self)
      obtain ⟨list', found', _⟩ := flow_getElem? simulates.flow found
      rw [passed_cons found, passed_cons found', runPath_cons found, runPath_cons found']
      exact ⟨congrArg (· ++ []) (simulates.decisions found found' relates),
        simulates.readout found found' relates⟩
  | cons j rest ih =>
      obtain ⟨⟨list, found, goes⟩, further⟩ := List.isChain_cons_cons.mp follows
      obtain ⟨list', found', _⟩ := flow_getElem? simulates.flow found
      have onward : j ≠ 0 := fun same => once (same ▸ List.mem_cons_self)
      obtain ⟨decisions, readout⟩ := ih further (fun later => once (List.mem_cons_of_mem _ later))
        (fun k member => inside k (List.mem_cons_of_mem _ member))
        (simulates.step found found' relates j goes onward)
      rw [passed_cons found, passed_cons found', runPath_cons found, runPath_cons found']
      exact ⟨by rw [simulates.decisions found found' relates, decisions], readout⟩

theorem Simulates.sameResults (simulates : Simulates device memory readout lists lists' related) :
    SameResults device memory readout lists lists' := by
  have all : ∀ {path}, IsPath lists path →
      passed device lists' 0 (Execution.start device memory) path =
        passed device lists 0 (Execution.start device memory) path ∧
      ∀ name ∈ readout, (runPath device lists' 0 (Execution.start device memory) path).memory name =
        (runPath device lists 0 (Execution.start device memory) path).memory name := by
    intro path isPath
    obtain ⟨begins, follows, once, inside⟩ := isPath
    cases path with
    | nil => cases begins
    | cons first rest =>
        cases begins
        exact simulates.onward follows once inside simulates.start
  exact ⟨fun isPath => (all isPath).1, fun isPath => (all isPath).2⟩

theorem Simulates.entered (simulates : Simulates device memory readout lists lists' related)
    (entered : Enters device lists' memory visit i b) :
    ∃ a, Enters device lists memory visit i a ∧ related visit i a b := by
  induction entered with
  | start => exact ⟨_, .start, simulates.start⟩
  | step _ found goes onward ih =>
      obtain ⟨a, entered, relates⟩ := ih
      obtain ⟨list, there, same⟩ := flow_getElem? simulates.flow.symm found
      have goes' := same.symm ▸ goes
      exact ⟨_, .step entered there goes' onward, simulates.step there found relates _ goes' onward⟩

theorem simulates_of_same (readout : List String)
    (flow : lists'.map InstructionList.successors = lists.map InstructionList.successors)
    (same : ∀ {visit i list list' state}, Enters device lists memory visit i state → lists[i]? = some list →
      lists'[i]? = some list' → decisions device visit list' state = decisions device visit list state ∧
        runList device visit list' state = runList device visit list state) :
    Simulates device memory readout lists lists'
      (fun visit i a b => a = b ∧ Enters device lists memory visit i a) where
  flow := flow
  start := ⟨rfl, .start⟩
  decisions := by
    rintro visit i list list' a b found found' ⟨rfl, entered⟩
    exact (same entered found found').1
  readout := by
    rintro visit i list list' a b found found' ⟨rfl, entered⟩ name _
    rw [(same entered found found').2]
  step := by
    rintro visit i list list' a b found found' ⟨rfl, entered⟩ j goes onward
    exact ⟨(same entered found found').2.symm, .step entered found goes onward⟩

end TwoLane.Execution
