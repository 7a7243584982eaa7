import Mathlib.Order.Bounds.Defs
import TwoLane.Proofs.Liveness.Indexed
import TwoLane.Proofs.Liveness.Paths

/-! # Liveness is the least answer

Instructions keep each other alive: one whose result is used, along some path, by an instruction that is alive is alive
itself. The instructions that are not flagged dead are closed under this, and any other set that is closed under it
holds them all.
-/

namespace TwoLane.Liveness

open Indexed (Part)

/-- Whether a set of places holds the instructions that steer control or touch nothing, those whose results are read
    out, and those whose results are used by instructions of the set. -/
structure Closed (lists : List InstructionList) (readout : List String) (kept : Set Spot) : Prop where
  control : ∀ {spot node}, spot.node? lists = some node → node.category.isControl = true → spot ∈ kept
  idle : ∀ {spot node}, spot.node? lists = some node → touchesNothing node = true → spot ∈ kept
  observed : ∀ {spot node o name}, spot.node? lists = some node → o ∈ node.memory → o.isAssignment = true →
    name ∈ readout → Memory.mayOverlap name o.name = true → spot ∈ kept
  value : ∀ {spot node o name}, spot.node? lists = some node → o ∈ node.memory → o.isAssignment = true →
    Needed lists kept spot.behind name → Memory.mayOverlap name o.name = true → spot ∈ kept
  state : ∀ {spot node qubit}, spot.node? lists = some node →
    qubit ∈ touched node ∨ node.operation.isGlobalReset = true → Held lists kept spot.behind qubit → spot ∈ kept

variable {lists : List InstructionList} {readout : List String} {front : List LiveSet} {kept : Set Spot} {spot : Spot}
  {node : Instruction} {live : LiveSet}

/-! ## The answer is closed -/

theorem not_isDead_of_written {o : MemoryOccurrence} (member : o ∈ node.memory) (writes : o.isAssignment = true)
    (used : isUsed live readout o.name = true) : isDead live readout node = false := by
  by_contra dead
  simp only [Bool.not_eq_false, isDead, Bool.and_eq_true, List.all_eq_true] at dead
  have unused := dead.2 o member
  simp [writes, memoryDead, used] at unused

theorem not_isDead_of_touched {qubit : String} (touches : qubit ∈ touched node ∨ node.operation.isGlobalReset = true)
    (member : qubit ∈ live.qubits) : isDead live readout node = false := by
  by_contra dead
  rw [Bool.not_eq_false] at dead
  cases global : node.operation.isGlobalReset with
  | true =>
      rw [no_qubits_of_isDead dead global] at member
      cases member
  | false =>
      rw [global] at touches
      obtain ⟨o, there, rfl⟩ := List.mem_map.mp (touches.resolve_right Bool.false_ne_true)
      exact qubit_of_isDead dead global there member

theorem closed_alive (assigns : AllAssign lists) (sorted : Sorted.Increasing readout) :
    Closed lists readout (alive lists readout) where
  control := fun found control => mem_alive.mpr ⟨_, found, by simp [isDead, control]⟩
  idle := fun found idle => mem_alive.mpr ⟨_, found, by simp [isDead, idle]⟩
  observed := by
    intro spot node o name found member writes read overlap
    refine mem_alive.mpr ⟨node, found, not_isDead_of_written member writes ?_⟩
    exact Bool.or_eq_true_iff.mpr (.inr (List.any_eq_true.mpr ⟨name, read, overlap⟩))
  value := by
    intro spot node o name found member writes needed overlap
    refine mem_alive.mpr ⟨node, found, not_isDead_of_written member writes ?_⟩
    exact Bool.or_eq_true_iff.mpr
      (.inl (List.any_eq_true.mpr ⟨name, live_of_needed assigns sorted needed, overlap⟩))
  state := fun found touches held =>
    mem_alive.mpr ⟨_, found, not_isDead_of_touched touches (live_of_held assigns sorted held)⟩

/-! ## The answer is in every closed set -/

/-- Whether all that is live at a place is read out or live along a path through a set. -/
structure Explained (lists : List InstructionList) (readout : List String) (kept : Set Spot) (spot : Spot)
    (live : LiveSet) : Prop where
  memory : ∀ name ∈ live.memory, name ∈ readout ∨ Needed lists kept spot name
  qubits : ∀ qubit ∈ live.qubits, Held lists kept spot qubit

theorem explained_empty (lists : List InstructionList) (readout : List String) (kept : Set Spot) (spot : Spot) :
    Explained lists readout kept spot .empty :=
  ⟨fun _ member => absurd member List.not_mem_nil, fun _ member => absurd member List.not_mem_nil⟩

/-- An instruction that is not dead, where all that is live is explained by a closed set, is in that set. -/
theorem Closed.mem_of_not_dead (closed : Closed lists readout kept) (found : spot.node? lists = some node)
    (explained : Explained lists readout kept spot.behind live) (alive : isDead live readout node = false) :
    spot ∈ kept := by
  -- outside the set each reason for an instruction not to be dead fails
  by_contra absent
  have category : node.category.isControl = false := by
    by_contra control
    exact absent (closed.control found (by simpa using control))
  have busy : touchesNothing node = false := by
    by_contra idle
    exact absent (closed.idle found (by simpa using idle))
  have unheld : ∀ qubit, qubit ∈ touched node ∨ node.operation.isGlobalReset = true → qubit ∉ live.qubits :=
    fun qubit touches member => absent (closed.state found touches (explained.qubits qubit member))
  have unused : ∀ o ∈ node.memory, o.isAssignment = true → isUsed live readout o.name = false := by
    intro o member writes
    by_contra used
    simp only [Bool.not_eq_false, isUsed, Bool.or_eq_true, List.any_eq_true] at used
    rcases used with ⟨name, there, overlap⟩ | ⟨name, read, overlap⟩
    · rcases explained.memory name there with read | needed
      · exact absent (closed.observed found member writes read overlap)
      · exact absent (closed.value found member writes needed overlap)
    · exact absent (closed.observed found member writes read overlap)
  have states : (if node.operation.isGlobalReset = true then live.qubits.isEmpty
      else node.qubits.all (qubitDead live node)) = true := by
    split
    · next global =>
        rw [List.isEmpty_iff, List.eq_nil_iff_forall_not_mem]
        exact fun qubit => unheld qubit (.inr global)
    · rw [List.all_eq_true]
      intro o member
      have off : ∀ other ∈ node.qubits, live.qubits.contains other.name = false := by
        intro other there
        rw [← Bool.not_eq_true, List.contains_iff_mem]
        exact unheld other.name (.inl (List.mem_map_of_mem there))
      rw [qubitDead, entanglesLive]
      split
      · rw [Bool.not_eq_true', List.any_eq_false]
        intro other there
        rw [off other there, Bool.and_false]
        exact Bool.false_ne_true
      · rw [off o member, Bool.not_false]
  have memory : node.memory.all (fun o => !o.isAssignment || memoryDead live readout o) = true := by
    rw [List.all_eq_true]
    intro o member
    cases writes : o.isAssignment with
    | false => rfl
    | true => simp [memoryDead, writes, unused o member writes]
  rw [isDead, category, busy, states, memory] at alive
  cases alive

theorem Closed.explained_before (closed : Closed lists readout kept) (found : spot.node? lists = some node)
    (assigns : Assigns node) (explained : Explained lists readout kept spot.behind live) :
    Explained lists readout kept spot (before readout node live) := by
  rw [before]
  cases dead : isDead live readout node with
  | true =>
      -- a dead instruction ends the life of nothing, so it may be passed even where the set holds it
      rw [if_pos rfl]
      refine ⟨fun name member => ?_, fun qubit member => ?_⟩
      · refine (explained.memory name member).imp_right (fun needed => needed.pass found ?_)
        intro _ overwrites
        have apart := (apart_of_isDead dead assigns overwrites.2).1 name member
        rw [Memory.mayOverlap_self] at apart
        cases apart
      · refine (explained.qubits qubit member).pass found ?_
        rintro _ (global | resets)
        · rw [no_qubits_of_isDead dead global] at member
          cases member
        · rw [not_isDead_of_touched (.inl resets.2) member] at dead
          cases dead
  | false =>
      have here := closed.mem_of_not_dead found explained dead
      rw [if_neg Bool.false_ne_true]
      refine ⟨fun name member => ?_, fun qubit member => ?_⟩
      · rcases mem_memoryBefore.mp member with ⟨there, survives⟩ | reads
        · refine (explained.memory name there).imp_right (fun needed => needed.pass found ?_)
          exact fun _ overwrites => survives overwrites.1 overwrites.2
        · exact .inr ⟨spot, node, .here spot, here, found, reads⟩
      · have there := mem_qubitsBefore.mp member
        cases reset : node.operation.isReset with
        | true =>
            rw [if_pos reset] at there
            refine (explained.qubits qubit there.2.1).pass found ?_
            rintro _ (global | resets)
            · exact Bool.false_ne_true (there.1.symm.trans global)
            · exact there.2.2 resets.2
        | false =>
            rw [if_neg (by simp [reset])] at there
            rcases there with ⟨notGlobal, live⟩ | touches
            · refine (explained.qubits qubit live).pass found ?_
              rintro _ (global | resets)
              · exact Bool.false_ne_true (notGlobal.symm.trans global)
              · exact Bool.false_ne_true (reset.symm.trans resets.1)
            · exact ⟨spot, node, .here spot, here, found, reset, touches⟩

def FrontExplained (lists : List InstructionList) (readout : List String) (kept : Set Spot) (front : List LiveSet) :
    Prop :=
  ∀ i, Explained lists readout kept ⟨i, 0⟩ (at? front i)

theorem FrontExplained.behind (explained : FrontExplained lists readout kept front) {i : Nat} {list : InstructionList}
    (found : lists[i]? = some list) :
    Explained lists readout kept ⟨i, list.running.length⟩ (behind readout front list) := by
  have kept' : ∀ (successors : List Nat) (base : LiveSet), successors ⊆ list.successors →
      Explained lists readout kept ⟨i, list.running.length⟩ base →
        Explained lists readout kept ⟨i, list.running.length⟩
          (successors.foldl (fun acc s => acc.union ((front[s]?).getD .empty)) base) := by
    intro successors
    induction successors with
    | nil => exact fun _ _ base => base
    | cons next rest ih =>
        intro base inside explainedBase
        refine ih _ (fun _ member => inside (List.mem_cons_of_mem _ member)) ⟨?_, ?_⟩
        · intro name member
          rcases Sorted.mem_union.mp member with old | new
          · exact explainedBase.memory name old
          · exact ((explained next).memory name new).imp_right
              (fun needed => needed.onward found (inside List.mem_cons_self))
        · intro qubit member
          rcases Sorted.mem_union.mp member with old | new
          · exact explainedBase.qubits qubit old
          · exact ((explained next).qubits qubit new).onward found (inside List.mem_cons_self)
  exact kept' list.successors ⟨readout, []⟩ (List.Subset.refl _)
    ⟨fun _ member => .inl member, fun _ member => absurd member List.not_mem_nil⟩

theorem Closed.explained_liveAt (closed : Closed lists readout kept) (assigns : AllAssign lists)
    (explained : FrontExplained lists readout kept front) {i : Nat} {list : InstructionList}
    (found : lists[i]? = some list) (position : Nat) (inside : position ≤ list.running.length) :
    Explained lists readout kept ⟨i, position⟩ (liveAt readout lists front ⟨i, position⟩) := by
  -- from behind the last instruction to the first one
  induction inside using Nat.decreasingInduction with
  | self =>
      rw [liveAt_end found]
      exact explained.behind found
  | of_succ position less ih =>
      have here : Spot.node? lists ⟨i, position⟩ = some list.running[position] := by
        rw [Spot.node?, found]
        exact List.getElem?_eq_getElem less
      rw [liveAt_of_node here]
      exact closed.explained_before here (assigns list (List.mem_of_getElem? found) _ (List.getElem_mem less)) ih

theorem Closed.explained_renew (closed : Closed lists readout kept) (assigns : AllAssign lists)
    (explained : FrontExplained lists readout kept front) (positions : List Nat) :
    FrontExplained lists readout kept (renew readout lists front positions) := by
  induction positions generalizing front with
  | nil => exact explained
  | cons i rest ih =>
      rw [renew]
      cases found : lists[i]? with
      | none => exact ih explained
      | some list =>
          refine ih (fun j => ?_)
          rw [at?_set]
          split
          · next same =>
              obtain ⟨rfl, _⟩ := same
              rw [← liveAt_start found]
              exact closed.explained_liveAt assigns explained found 0 (Nat.zero_le _)
          · exact explained j

theorem Closed.explained_rounds (closed : Closed lists readout kept) (assigns : AllAssign lists)
    (explained : FrontExplained lists readout kept front) (bound : Nat) :
    FrontExplained lists readout kept (rounds readout lists bound front) := by
  induction bound generalizing front with
  | zero => exact explained
  | succ bound ih =>
      rw [rounds]
      split
      · exact explained
      · exact ih (closed.explained_renew assigns explained _)

theorem Closed.alive_subset (closed : Closed lists readout kept) (assigns : AllAssign lists) :
    alive lists readout ⊆ kept := by
  have explained : FrontExplained lists readout kept (fixpoint readout lists) := by
    refine closed.explained_rounds assigns (fun i => ?_) _
    rw [at?_empties]
    exact explained_empty lists readout kept _
  intro spot member
  obtain ⟨node, found, notDead⟩ := mem_alive.mp member
  obtain ⟨list, there, here⟩ := Option.bind_eq_some_iff.mp found
  have inside := (List.getElem?_eq_some_iff.mp here).1
  exact closed.mem_of_not_dead found (closed.explained_liveAt assigns explained there _ inside) notDead

/-! ## Lists that steps have changed -/

/-- However steps have changed new lists, the instructions that are not flagged dead are the least set that holds those
    that steer control, touch nothing or are read out, and with each instruction those whose results it uses along some
    path. -/
theorem alive_is_least {parts : List Part} (new : ∀ part ∈ parts, ∀ node ∈ part.nodes, node.IsNew) {state : Workspace}
    (worked : Worked parts state) (names : List String) :
    IsLeast {kept | Closed state.lists (Sorted.ofList names) kept} (alive state.lists (Sorted.ofList names)) := by
  have assigns := allAssign_of_tended (worked.tended new)
  exact ⟨closed_alive assigns (Sorted.increasing_ofList names), fun kept closed => closed.alive_subset assigns⟩

/-- A list that runs again and again, once quantum work is early and dead instructions are gone. -/
theorem looped_alive_is_least :
    IsLeast {kept | Closed (Step.deadCode.perform (Step.earlyQuantum.perform
        (.ofLists (Indexed.looped.map Part.list) ["t"])).1).1.lists (Sorted.ofList ["t"]) kept}
      (alive (Step.deadCode.perform (Step.earlyQuantum.perform
        (.ofLists (Indexed.looped.map Part.list) ["t"])).1).1.lists (Sorted.ofList ["t"])) :=
  alive_is_least (fun part member => Indexed.isNew_of_isNewStep (Indexed.isNewStep_looped part member))
    (.step .deadCode (.step .earlyQuantum (.new ["t"]))) ["t"]

end TwoLane.Liveness
