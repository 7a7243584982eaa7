import TwoLane.Proofs.Execution.Grounded
import TwoLane.Proofs.Execution.Removal

/-! # What is relied on is live

An instruction that is not dead relies only on what is live in front of it. Back to the last holder that stays, all that
was there is still live, so no instruction in between writes it or touches its qubit: those that go left what they found.
So a removal of dead instructions leaves a grounded list grounded.
-/

namespace TwoLane.Execution

open Indexed (writtenNames usedNames)
open Liveness (isDead before before_of_dead)

variable {isEntry : Bool} {list after : InstructionList} {live : LiveSet} {readout : List String} {node : Instruction}
  {id j : Nat} {r : Resource}

def Alive (live : LiveSet) : Resource → Prop
  | .memory name => name ∈ live.memory
  | .qubit q => q ∈ live.qubits

theorem alive_of_used (covers : Covers list node) {name : String} (used : name ∈ usedNames node.operation) :
    Alive (needs node live) (.memory name) :=
  Indexed.used_live covers.writes used

theorem alive_of_read {o : MemoryOccurrence} (member : o ∈ node.memory) (reads : o.isAssignment = false) :
    Alive (needs node live) (.memory o.name) := by
  refine Liveness.mem_memoryBefore.mpr (.inr (.inr ?_))
  exact List.mem_map_of_mem (List.mem_filter.mpr ⟨member, by simp [reads]⟩)

theorem alive_of_touched {o : QubitOccurrence} (member : o ∈ node.qubits) (plain : node.operation.isReset = false) :
    Alive (needs node live) (.qubit o.name) := by
  refine Liveness.mem_qubitsBefore.mpr ?_
  rw [if_neg (by simp [plain])]
  exact .inr (List.mem_map_of_mem member)

theorem alive_before (covers : Covers list node) {other : Nat} (holder : list.isHolder r other = true)
    (off : r ∉ node.resources) (alive : Alive live r) : Alive (before readout node live) r := by
  cases dead : isDead live readout node with
  | true =>
      rw [before_of_dead dead]
      exact alive
  | false =>
      rw [before_of_not_dead dead]
      cases r with
      | memory name =>
          refine Liveness.mem_memoryBefore.mpr (.inl ⟨alive, fun _ written => off ?_⟩)
          exact covers.touches _ (touched_of_written written)
      | qubit q =>
          have plain : node.operation.isGlobalReset = false := by
            by_contra global
            exact off (covers.resets (by simpa using global) q other holder)
          have untouched : q ∉ Liveness.touched node := by
            intro own
            obtain ⟨o, member, rfl⟩ := List.mem_map.mp own
            exact off (qubit_mem_resources.mpr ⟨o, member, rfl⟩)
          refine Liveness.mem_qubitsBefore.mpr ?_
          split
          · exact ⟨plain, alive, untouched⟩
          · exact .inl ⟨plain, alive⟩

theorem alive_through (ordered : Ordered list) (holder : list.isHolder r j = true) {pre mid rest : List Nat}
    (split : list.order = pre ++ (mid ++ rest))
    (off : ∀ i ∈ mid, stays readout list live i = true → list.isHolder r i = false)
    (alive : Alive (liveAt readout list live rest) r) : Alive (liveAt readout list live (mid ++ rest)) r := by
  induction mid generalizing pre with
  | nil => exact alive
  | cons i mid ih =>
      have further := ih (show list.order = (pre ++ [i]) ++ (mid ++ rest) by simp [split])
        (fun other member => off other (List.mem_cons_of_mem _ member))
      have running : i ∈ list.order := by simp [split]
      obtain ⟨node, found⟩ := ordered.chained.exists_node running
      have kept : stays readout list live i = !isDead (liveAt readout list live (mid ++ rest)) readout node :=
        stays_split ordered.chained split found
      rw [List.cons_append, liveAt_cons found]
      cases dead : isDead (liveAt readout list live (mid ++ rest)) readout node with
      | true =>
          rw [before_of_dead dead]
          exact further
      | false =>
          rw [dead] at kept
          refine alive_before (ordered.covers running found) holder (fun member => ?_) further
          have holds := off i List.mem_cons_self kept
          rw [InstructionList.isHolder_iff.mpr ⟨running, node, found, member⟩] at holds
          cases holds

theorem reads_of_alive (dead : isDead live readout node = true) (alive : Alive live r) (held : r ∈ node.resources) :
    ∃ o ∈ node.memory, r = .memory o.name ∧ o.isAssignment = false := by
  cases r with
  | memory name =>
      obtain ⟨o, member, rfl⟩ := memory_mem_resources.mp held
      refine ⟨o, member, rfl, ?_⟩
      by_contra writes
      have used : Liveness.isUsed live readout o.name = true := by
        refine Bool.or_eq_true_iff.mpr (.inl (List.any_eq_true.mpr ⟨o.name, alive, Memory.mayOverlap_self _⟩))
      simp only [isDead, Bool.and_eq_true, List.all_eq_true] at dead
      have unused := dead.2 o member
      simp [Liveness.memoryDead, used, writes] at unused
  | qubit q =>
      obtain ⟨o, member, rfl⟩ := qubit_mem_resources.mp held
      cases global : node.operation.isGlobalReset with
      | true =>
          have none := Liveness.no_qubits_of_isDead dead global
          rw [Alive, none] at alive
          cases alive
      | false => exact absurd alive (Liveness.qubit_of_isDead dead global member)

theorem LeftOf.isHolder {keep : Nat → Bool} (left : LeftOf list after keep) (r : Resource) (j : Nat) :
    after.isHolder r j = (list.isHolder r j && keep j) := by
  have view := left.view (fun n => n.holds r) (fun n => (n.holds_withoutLinks r).symm) j
  have holds : after.holdsAt r j = list.holdsAt r j := by rw [InstructionList.holdsAt, InstructionList.holdsAt, view]
  rw [InstructionList.isHolder, InstructionList.isHolder, holds, Bool.eq_iff_iff]
  simp only [InstructionList.contains, left.order, Bool.and_eq_true, List.contains_iff_mem, List.mem_filter]
  tauto

section Survivor

variable (left : LeftOf list after (stays readout list live)) (ordered : Ordered list) (running : id ∈ list.order)
  (found : list.nodes[id]? = some node) (kept : stays readout list live id = true) (held : r ∈ node.resources)
  (alive : ∀ behind, Alive (needs node behind) r)

include ordered running found kept held alive

/-- What goes from the chain of a live resource in front of an instruction that stays only reads a reference. -/
theorem reads_of_goes (holds : list.isHolder r j = true) (goes : stays readout list live j = false) (front : j < id)
    (gap : ∀ i, j < i → i < id → list.isHolder r i = true → stays readout list live i = false) :
    ∃ other, list.nodes[j]? = some other ∧ ∃ o ∈ other.memory, r = .memory o.name ∧ o.isAssignment = false := by
  obtain ⟨runs, other, otherFound, member⟩ := InstructionList.isHolder_iff.mp holds
  have onChain := holdsAt_of_mem found held
  have onChainToo := holdsAt_of_mem otherFound member
  obtain ⟨pre, post, split⟩ := List.append_of_mem running
  -- on a chain the smaller number comes first
  have orderly := ordered.orderly
  rw [split, List.pairwise_append] at orderly
  have inFront : j ∈ pre := by
    rw [split, List.mem_append, List.mem_cons] at runs
    rcases runs with before | rfl | behind
    · exact before
    · exact absurd front (Nat.lt_irrefl _)
    · exact absurd (List.rel_of_pairwise_cons orderly.2.1 behind r onChain onChainToo) (Nat.not_lt.mpr front.le)
  obtain ⟨pre, mid, rfl⟩ := List.append_of_mem inFront
  have between : ∀ i ∈ mid, stays readout list live i = true → list.isHolder r i = false := by
    intro i there stay
    by_contra holder
    have isHolder : list.isHolder r i = true := by simpa using holder
    obtain ⟨_, node', found', member'⟩ := InstructionList.isHolder_iff.mp isHolder
    have onChain' := holdsAt_of_mem found' member'
    have least := List.rel_of_pairwise_cons (List.pairwise_append.mp orderly.1).2.1 there r onChainToo onChain'
    have greatest := orderly.2.2 i (List.mem_append_right _ (List.mem_cons_of_mem _ there)) id List.mem_cons_self r
      onChain' onChain
    rw [gap i least greatest isHolder] at stay
    cases stay
  have lives : Alive (liveAt readout list live (id :: post)) r := by
    have here := kept
    rw [stays_split ordered.chained split found, Bool.not_eq_true'] at here
    rw [liveAt_cons found, before_of_not_dead here]
    exact alive _
  have whole : list.order = pre ++ j :: (mid ++ id :: post) := by simpa using split
  have behind : list.order = (pre ++ [j]) ++ (mid ++ id :: post) := by simpa using split
  have further := alive_through ordered holds behind between lives
  rw [stays_split ordered.chained whole otherFound, Bool.not_eq_false'] at goes
  exact ⟨other, otherFound, reads_of_alive goes further member⟩

include left

theorem LeftOf.lookFor {α : Type} {leaves : Instruction → Option α} (links : ∀ n, leaves n.withoutLinks = leaves n)
    (start : Option α)
    (reads : ∀ j other, j ∈ list.order → list.nodes[j]? = some other →
      ∀ o ∈ other.memory, r = .memory o.name → o.isAssignment = false →
        Backed False (leaves other) (list.lookFor r leaves start j)) :
    Backed False (list.lookFor r leaves start id) (after.lookFor r leaves start id) := by
  refine Nearest.look_related (fun first second => first.trans second) (.refl start) ?_ ?_ ?_
  · intro i holds
    rw [left.isHolder, Bool.and_eq_true] at holds
    exact holds.1
  · intro i _ _
    have same := congrArg (fun nodes : List Instruction => (nodes[i]?).bind leaves) left.same.nodes
    simp only [List.getElem?_map, Option.bind_map, Function.comp_def, links] at same
    exact .of_eq same
  · intro i front holds goes gap
    rw [left.isHolder, holds, Bool.true_and] at goes
    obtain ⟨other, otherFound, o, member, names, use⟩ := reads_of_goes ordered running found kept held alive holds goes
      front (fun j above inside holder => by
        have off := gap j above inside
        rwa [left.isHolder, holder, Bool.true_and] at off)
    rw [otherFound, Option.bind_some]
    exact reads i other (InstructionList.isHolder_iff.mp holds).1 otherFound o member names use

/-- What is known of a live resource is still known in a list without its dead instructions. -/
theorem LeftOf.backedAt (grounded : Grounded False isEntry list) :
    Outlook.BackedAt False (list.outlook isEntry id) (after.outlook isEntry id) r := by
  cases r with
  | memory name =>
      refine left.lookFor ordered running found kept held alive (Instruction.leavesMemory_withoutLinks name) none ?_
      intro j other runs otherFound o member names use
      cases names
      have backed := (grounded j runs other otherFound).memory o member
      rw [Outlook.value, if_neg (by simp [use])] at backed
      rwa [leavesMemory_of_mem (ordered.chained.distinct otherFound) member]
  | qubit q =>
      refine left.lookFor ordered running found kept held alive (Instruction.leavesQubit_withoutLinks q) _ ?_
      intro _ _ _ _ _ _ names
      cases names

end Survivor

theorem LeftOf.grounded (left : LeftOf list after (stays readout list live)) (ordered : Ordered list)
    (grounded : Grounded False isEntry list) : Grounded False isEntry after := by
  intro id runs node found
  rw [left.order, List.mem_filter] at runs
  obtain ⟨running, kept⟩ := runs
  obtain ⟨old, oldFound, same⟩ := left.same.symm.getElem? found
  have oldFound' : list.nodes[id]? = some old := oldFound
  have covers := ordered.covers running oldFound'
  have backed : ∀ r ∈ old.resources, (∀ behind, Alive (needs old behind) r) →
      Outlook.BackedAt False (list.outlook isEntry id) (after.outlook isEntry id) r :=
    fun r held alive => left.backedAt ordered running oldFound' kept held alive grounded
  refine ((grounded id running old oldFound').carry covers ⟨?_, ?_, ?_⟩).of_links same
  · exact fun name used => backed (.memory name) (covers.used_mem used) (fun _ => alive_of_used covers used)
  · intro o member reads
    exact backed (.memory o.name) (memory_mem_resources.mpr ⟨o, member, rfl⟩) (fun _ => alive_of_read member reads)
  · intro o member plain
    exact backed (.qubit o.name) (qubit_mem_resources.mpr ⟨o, member, rfl⟩)
      (fun _ => alive_of_touched member (plain.resolve_left not_false))

end TwoLane.Execution
