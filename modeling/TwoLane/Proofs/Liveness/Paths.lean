import Mathlib.Data.Set.Basic
import TwoLane.Proofs.Liveness.Judged

/-! # Liveness along paths

Control goes through the instructions of a list one by one, and from behind the last one to the front of a list that may
follow. A name is live where a path leads to an instruction that uses it and no instruction in between ends its life.
What liveness finds to be live is live along such a path, through and to instructions that are not dead, or read out.
-/

namespace TwoLane.Liveness

/-- The place of a running instruction: the position of its list, and its own position there. -/
structure Spot where
  list : Nat
  position : Nat

namespace Spot

def node? (lists : List InstructionList) (spot : Spot) : Option Instruction :=
  (lists[spot.list]?).bind (fun list => list.running[spot.position]?)

/-- The place just behind an instruction. -/
def behind (spot : Spot) : Spot :=
  ⟨spot.list, spot.position + 1⟩

end Spot

/-- Whether control may get from in front of one place to in front of another one, through instructions that let it
    pass. -/
inductive Leads (lists : List InstructionList) (passes : Spot → Instruction → Prop) : Spot → Spot → Prop where
  | here (spot : Spot) : Leads lists passes spot spot
  | pass {spot target : Spot} {node : Instruction} (found : spot.node? lists = some node) (allowed : passes spot node)
      (further : Leads lists passes spot.behind target) : Leads lists passes spot target
  | onward {i next : Nat} {list : InstructionList} {target : Spot} (found : lists[i]? = some list)
      (goes : next ∈ list.successors) (further : Leads lists passes ⟨next, 0⟩ target) :
      Leads lists passes ⟨i, list.running.length⟩ target

/-- Whether an instruction reads a reference: its operation uses it, or it occurs and is not only written. -/
def Reads (node : Instruction) (name : String) : Prop :=
  name ∈ namesOf .usage node.operation ∨ name ∈ readThrough node

/-- Whether an instruction replaces the value of a reference: it writes exactly that name, and does not read it. -/
def Overwrites (node : Instruction) (name : String) : Prop :=
  node.operation.readsTarget = false ∧ name ∈ namesOf .assignment node.operation

/-- Whether an instruction uses the state of a qubit: it touches it other than by a reset. -/
def Works (node : Instruction) (qubit : String) : Prop :=
  node.operation.isReset = false ∧ qubit ∈ touched node

def Clears (node : Instruction) (qubit : String) : Prop :=
  node.operation.isGlobalReset = true ∨ (node.operation.isReset = true ∧ qubit ∈ touched node)

variable {lists : List InstructionList} {readout : List String} {front : List LiveSet} {kept : Set Spot}
  {spot target : Spot} {node : Instruction} {name : String}

/-- Whether a path leads to a kept instruction that reads a reference, with no kept one in between that replaces its
    value. -/
def Needed (lists : List InstructionList) (kept : Set Spot) (spot : Spot) (name : String) : Prop :=
  ∃ target reader, Leads lists (fun between node => between ∈ kept → ¬ Overwrites node name) spot target ∧
    target ∈ kept ∧ target.node? lists = some reader ∧ Reads reader name

/-- Whether a path leads to a kept instruction that uses the state of a qubit, with no kept one in between that resets
    it. -/
def Held (lists : List InstructionList) (kept : Set Spot) (spot : Spot) (qubit : String) : Prop :=
  ∃ target user, Leads lists (fun between node => between ∈ kept → ¬ Clears node qubit) spot target ∧
    target ∈ kept ∧ target.node? lists = some user ∧ Works user qubit

theorem Needed.pass (needed : Needed lists kept spot.behind name) (found : spot.node? lists = some node)
    (allowed : spot ∈ kept → ¬ Overwrites node name) : Needed lists kept spot name := by
  obtain ⟨target, reader, leads, rest⟩ := needed
  exact ⟨target, reader, .pass found allowed leads, rest⟩

theorem Needed.onward {i next : Nat} {list : InstructionList} (needed : Needed lists kept ⟨next, 0⟩ name)
    (found : lists[i]? = some list) (goes : next ∈ list.successors) :
    Needed lists kept ⟨i, list.running.length⟩ name := by
  obtain ⟨target, reader, leads, rest⟩ := needed
  exact ⟨target, reader, .onward found goes leads, rest⟩

theorem Held.pass (held : Held lists kept spot.behind name) (found : spot.node? lists = some node)
    (allowed : spot ∈ kept → ¬ Clears node name) : Held lists kept spot name := by
  obtain ⟨target, user, leads, rest⟩ := held
  exact ⟨target, user, .pass found allowed leads, rest⟩

theorem Held.onward {i next : Nat} {list : InstructionList} (held : Held lists kept ⟨next, 0⟩ name)
    (found : lists[i]? = some list) (goes : next ∈ list.successors) :
    Held lists kept ⟨i, list.running.length⟩ name := by
  obtain ⟨target, user, leads, rest⟩ := held
  exact ⟨target, user, .onward found goes leads, rest⟩

/-! ## Live sets at places -/

/-- What is live in front of a place, given what is live in front of each list. -/
def liveAt (readout : List String) (lists : List InstructionList) (front : List LiveSet) (spot : Spot) : LiveSet :=
  match lists[spot.list]? with
  | some list => (list.running.drop spot.position).foldr (before readout) (behind readout front list)
  | none => .empty

theorem liveAt_of_node (found : spot.node? lists = some node) :
    liveAt readout lists front spot = before readout node (liveAt readout lists front spot.behind) := by
  obtain ⟨list, there, here⟩ := Option.bind_eq_some_iff.mp found
  obtain ⟨inside, rfl⟩ := List.getElem?_eq_some_iff.mp here
  simp only [liveAt, Spot.behind, there]
  rw [List.drop_eq_getElem_cons inside, List.foldr_cons]

theorem liveAt_end {i : Nat} {list : InstructionList} (found : lists[i]? = some list) :
    liveAt readout lists front ⟨i, list.running.length⟩ = behind readout front list := by
  simp only [liveAt, found, List.drop_length, List.foldr_nil]

theorem liveAt_start {i : Nat} {list : InstructionList} (found : lists[i]? = some list) :
    liveAt readout lists front ⟨i, 0⟩ = inFront readout front list := by
  simp only [liveAt, found, List.drop_zero, inFront]

theorem liveAt_within_end (assigns : AllAssign lists) (sorted : Sorted.Increasing readout) {i next : Nat}
    {list : InstructionList} (found : lists[i]? = some list) (goes : next ∈ list.successors) :
    (liveAt readout lists (fixpoint readout lists) ⟨next, 0⟩).Within
      (liveAt readout lists (fixpoint readout lists) ⟨i, list.running.length⟩) := by
  rw [liveAt_end found]
  refine LiveSet.Within.trans ?_ (successor_within_behind goes)
  cases there : lists[next]? with
  | none =>
      simp only [liveAt, there]
      exact LiveSet.empty_within _
  | some following =>
      rw [liveAt_start there, fixpoint_eq assigns sorted there]
      exact .refl _

/-! ## Instructions that are not dead -/

/-- The places of the instructions that liveness does not flag dead. -/
def alive (lists : List InstructionList) (readout : List String) : Set Spot :=
  fun spot => ∃ judged verdict, (analyse lists readout)[spot.list]? = some judged ∧
    judged[spot.position]? = some verdict ∧ verdict.dead = false

theorem getElem?_judge {live : LiveSet} {nodes : List Instruction} (position : Nat) :
    (judge readout live nodes).2[position]? = (nodes[position]?).map (fun node =>
      verdict readout node ((nodes.drop (position + 1)).foldr (before readout) live)) := by
  induction nodes generalizing position with
  | nil => rfl
  | cons node rest ih =>
      rw [judge]
      cases position with
      | zero =>
          rw [judge_fst]
          rfl
      | succ position => exact ih position

theorem mem_alive : spot ∈ alive lists readout ↔ ∃ node, spot.node? lists = some node ∧
    isDead (liveAt readout lists (fixpoint readout lists) spot.behind) readout node = false := by
  have judged : (analyse lists readout)[spot.list]? = (lists[spot.list]?).map (fun list =>
      (judge readout (Liveness.behind readout (fixpoint readout lists) list) list.running).2) := by
    rw [analyse, List.getElem?_map]
  change (∃ judged verdict, _) ↔ _
  rw [judged]
  constructor
  · rintro ⟨_, _, there, here, alive⟩
    obtain ⟨list, found, rfl⟩ := Option.map_eq_some_iff.mp there
    rw [getElem?_judge] at here
    obtain ⟨node, isNode, rfl⟩ := Option.map_eq_some_iff.mp here
    refine ⟨node, by rw [Spot.node?, found]; exact isNode, ?_⟩
    simp only [liveAt, Spot.behind, found]
    exact alive
  · rintro ⟨node, isNode, alive⟩
    obtain ⟨list, found, here⟩ := Option.bind_eq_some_iff.mp isNode
    simp only [liveAt, Spot.behind, found] at alive
    exact ⟨_, verdict readout node _, by rw [found]; rfl, by rw [getElem?_judge, here]; rfl, alive⟩

theorem liveAt_of_not_alive (found : spot.node? lists = some node) (dead : spot ∉ alive lists readout) :
    liveAt readout lists (fixpoint readout lists) spot =
      liveAt readout lists (fixpoint readout lists) spot.behind := by
  rw [liveAt_of_node found, before, if_pos]
  by_contra kept
  exact dead (mem_alive.mpr ⟨node, found, by simpa using kept⟩)

theorem liveAt_of_alive (found : spot.node? lists = some node) (alive : spot ∈ alive lists readout) :
    liveAt readout lists (fixpoint readout lists) spot =
      ⟨memoryBefore node (liveAt readout lists (fixpoint readout lists) spot.behind).memory,
        qubitsBefore node (liveAt readout lists (fixpoint readout lists) spot.behind).qubits⟩ := by
  obtain ⟨own, there, kept⟩ := mem_alive.mp alive
  cases found.symm.trans there
  rw [liveAt_of_node found, before, if_neg (by simp [kept])]

theorem live_of_needed (assigns : AllAssign lists) (sorted : Sorted.Increasing readout)
    (needed : Needed lists (alive lists readout) spot name) :
    name ∈ (liveAt readout lists (fixpoint readout lists) spot).memory := by
  obtain ⟨target, reader, leads, isAlive, found, reads⟩ := needed
  -- from the end of the path to its start; what an instruction does not replace is live in front of it
  induction leads with
  | here spot =>
      rw [liveAt_of_alive found isAlive]
      exact mem_memoryBefore.mpr (.inr reads)
  | @pass spot _ node here allowed _ ih =>
      have live := ih isAlive found
      by_cases kept : spot ∈ alive lists readout
      · rw [liveAt_of_alive here kept]
        exact mem_memoryBefore.mpr (.inl ⟨live, fun plain writes => allowed kept ⟨plain, writes⟩⟩)
      · rw [liveAt_of_not_alive here kept]
        exact live
  | onward there goes _ ih => exact (liveAt_within_end assigns sorted there goes).memory (ih isAlive found)

theorem live_of_held (assigns : AllAssign lists) (sorted : Sorted.Increasing readout)
    (held : Held lists (alive lists readout) spot name) :
    name ∈ (liveAt readout lists (fixpoint readout lists) spot).qubits := by
  obtain ⟨target, user, leads, isAlive, found, plain, touches⟩ := held
  induction leads with
  | here spot =>
      rw [liveAt_of_alive found isAlive]
      refine mem_qubitsBefore.mpr ?_
      rw [if_neg (by simp [plain])]
      exact .inr touches
  | @pass spot _ node here allowed _ ih =>
      have live := ih isAlive found
      by_cases kept : spot ∈ alive lists readout
      · have spares := allowed kept
        have notGlobal : node.operation.isGlobalReset = false := by
          cases global : node.operation.isGlobalReset with
          | false => rfl
          | true => exact absurd (.inl global) spares
        rw [liveAt_of_alive here kept]
        refine mem_qubitsBefore.mpr ?_
        split
        · next reset => exact ⟨notGlobal, live, fun touches => spares (.inr ⟨reset, touches⟩)⟩
        · exact .inl ⟨notGlobal, live⟩
      · rw [liveAt_of_not_alive here kept]
        exact live
  | onward there goes _ ih => exact (liveAt_within_end assigns sorted there goes).qubits (ih isAlive found)

end TwoLane.Liveness
