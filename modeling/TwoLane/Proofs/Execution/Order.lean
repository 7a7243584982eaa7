import TwoLane.Proofs.Chain.Exact
import TwoLane.Proofs.Execution.Device
import TwoLane.Proofs.Liveness.Order

/-! # Orders

The instructions of a list run in its order, and those on one chain in the order of their numbers. So an instruction
finds in a resource what the nearest one before it on the chain left there, whatever else runs in between, and all
orders of this kind have the same effect.
-/

namespace TwoLane.Execution

open Indexed (writtenNames usedNames)

variable {σ : Type}

section Runs

variable (device : Device σ) (visit : Nat) (list : InstructionList)

/-- Run the instruction of a number. -/
def stepAt (state : State σ) (id : Nat) : State σ :=
  match list.nodes[id]? with
  | some node => device.exec ⟨visit, id⟩ node.operation state
  | none => state

/-- Run the instructions of several numbers. -/
def runIds (state : State σ) (ids : List Nat) : State σ :=
  ids.foldl (stepAt device visit list) state

def stateBefore (state : State σ) (id : Nat) : State σ :=
  runIds device visit list state (list.order.takeWhile (fun other => other != id))

def stateAfter (state : State σ) (id : Nat) : State σ :=
  stepAt device visit list (stateBefore device visit list state id) id

def runList (state : State σ) : State σ :=
  runIds device visit list state list.order

/-- The value that decides the instruction of a number, if it is a conditional jump. -/
def decision? (state : State σ) (id : Nat) : Option Number :=
  ((list.nodes[id]?).bind (fun node => Indexed.Machine.condition? node.operation)).map
    (fun name => (stateBefore device visit list state id).memory name)

/-- The values that decide the conditional jumps of a list. -/
def decisions (state : State σ) : List Number :=
  list.order.filterMap (decision? device visit list state)

end Runs

/-! ## Positions in an order -/

theorem split_at {order : List Nat} {id : Nat} (member : id ∈ order) :
    ∃ post, order = order.takeWhile (fun other => other != id) ++ id :: post := by
  induction order with
  | nil => cases member
  | cons first rest ih =>
      by_cases here : first = id
      · subst here
        exact ⟨rest, by simp⟩
      · have later : id ∈ rest := (List.mem_cons.mp member).resolve_left (Ne.symm here)
        obtain ⟨post, split⟩ := ih later
        refine ⟨post, ?_⟩
        rw [List.takeWhile_cons_of_pos (by simpa using here), List.cons_append, ← split]

theorem takeWhile_split {pre post : List Nat} {id : Nat} (distinct : (pre ++ id :: post).Nodup) :
    (pre ++ id :: post).takeWhile (fun other => other != id) = pre := by
  have absent : id ∉ pre := by
    intro member
    exact (List.nodup_append.mp distinct).2.2 id member id List.mem_cons_self rfl
  rw [List.takeWhile_append_of_pos, List.takeWhile_cons_of_neg (by simp), List.append_nil]
  intro other member
  simpa using fun same : other = id => absent (same ▸ member)

/-! ## Lists in order -/

/-- Whether the occurrences of an instruction cover what its operation does in the list. -/
structure Covers (list : InstructionList) (node : Instruction) : Prop where
  touches : ∀ resource ∈ touched node.operation, resource ∈ node.resources
  writes : Liveness.Assigns node
  qubits : node.operation.isGlobalReset = false → ∀ o ∈ node.qubits,
    ∃ a ∈ node.operation.qubitAccesses, a.name = o.name ∧ a.use = o.use
  resets : node.operation.isGlobalReset = true → ∀ q id, list.isHolder (.qubit q) id = true →
    .qubit q ∈ node.resources

/-- A list whose chains are exact and whose order keeps to them. -/
structure Ordered (list : InstructionList) : Prop where
  chained : list.Chained
  orderly : list.order.Pairwise (fun x y => ∀ resource, list.holdsAt resource x = true →
    list.holdsAt resource y = true → x < y)
  covers : ∀ {id : Nat} {node : Instruction}, id ∈ list.order → list.nodes[id]? = some node →
    Covers list node

variable {device : Device σ} {visit : Nat} {list : InstructionList} {state a b : State σ}
  {resource : Resource} {id : Nat} {node : Instruction}

theorem holdsAt_of_mem (found : list.nodes[id]? = some node) (member : resource ∈ node.resources) :
    list.holdsAt resource id = true := by
  simpa [InstructionList.holdsAt, found, Instruction.holds] using member

theorem needed_subset (operation : Operation) : needed operation ⊆ touched operation := by
  intro resource member
  unfold needed at member
  rcases List.mem_append.mp member with memory | qubit
  · obtain ⟨name, used, rfl⟩ := List.mem_map.mp memory
    refine memory_mem_touched.mpr ?_
    rcases List.mem_append.mp used with reads | written
    · obtain ⟨access, there, same⟩ := List.mem_map.mp reads
      exact ⟨access, (List.mem_filter.mp there).1, same⟩
    · split at written
      · obtain ⟨access, there, same, _⟩ := Indexed.mem_writtenNames.mp written
        exact ⟨access, there, same⟩
      · cases written
  · split at qubit
    · cases qubit
    · exact List.mem_append_right _ qubit

theorem Covers.fewer {other : InstructionList} (covers : Covers list node)
    (fewer : ∀ resource id, other.isHolder resource id = true → list.isHolder resource id = true) :
    Covers other node :=
  ⟨covers.touches, covers.writes, covers.qubits,
    fun global q id holds => covers.resets global q id (fewer _ id holds)⟩

/-- Only the names and uses of occurrences say what they cover. -/
theorem Covers.congr {node' : Instruction} (covers : Covers list node)
    (operation : node'.operation = node.operation)
    (memory : node'.memory.map (fun o => (o.name, o.use)) = node.memory.map (fun o => (o.name, o.use)))
    (qubits : node'.qubits.map (fun o => (o.name, o.use)) = node.qubits.map (fun o => (o.name, o.use))) :
    Covers list node' := by
  have resources : node'.resources = node.resources := by
    have first := congrArg (List.map (fun p : String × MemoryUse => Resource.memory p.1)) memory
    have second := congrArg (List.map (fun p : String × QubitUse => Resource.qubit p.1)) qubits
    simp only [List.map_map, Function.comp_def] at first second
    rw [Instruction.resources, Instruction.resources, first, second]
  refine ⟨?_, ?_, ?_, ?_⟩
  · rw [operation, resources]
    exact covers.touches
  · intro name written
    rw [operation] at written
    obtain ⟨o, there, same, writes⟩ := covers.writes name written
    have pair : (o.name, o.use) ∈ node'.memory.map (fun o => (o.name, o.use)) := by
      rw [memory]
      exact List.mem_map_of_mem there
    obtain ⟨o', there', equal⟩ := List.mem_map.mp pair
    obtain ⟨name', use'⟩ := Prod.mk.inj equal
    refine ⟨o', there', name'.trans same, ?_⟩
    rw [MemoryOccurrence.isAssignment, use']
    exact writes
  · intro plain o' there'
    rw [operation] at plain ⊢
    have pair : (o'.name, o'.use) ∈ node.qubits.map (fun o => (o.name, o.use)) := by
      rw [← qubits]
      exact List.mem_map_of_mem there'
    obtain ⟨o, there, equal⟩ := List.mem_map.mp pair
    obtain ⟨name', use'⟩ := Prod.mk.inj equal
    obtain ⟨a, own, same⟩ := covers.qubits plain o there
    exact ⟨a, own, same.1.trans name', same.2.trans use'⟩
  · intro global q id holds
    rw [operation] at global
    rw [resources]
    exact covers.resets global q id holds

theorem Ordered.restrict {other : InstructionList} (ordered : Ordered list) (chained : other.Chained)
    (order : other.order.Sublist list.order)
    (fewer : ∀ resource id, other.isHolder resource id = true → list.isHolder resource id = true)
    (covers : ∀ {id : Nat} {node : Instruction}, id ∈ other.order → other.nodes[id]? = some node →
      Covers list node) : Ordered other where
  chained := chained
  orderly := by
    refine (ordered.orderly.sublist order).imp_of_mem ?_
    intro x y xIn yIn lower resource xHolds yHolds
    have holder : ∀ id ∈ other.order, other.holdsAt resource id = true →
        list.holdsAt resource id = true := by
      intro id running holds
      have there := fewer resource id
        (Bool.and_eq_true_iff.mpr ⟨List.contains_iff_mem.mpr running, holds⟩)
      exact (Bool.and_eq_true_iff.mp there).2
    exact lower resource (holder x xIn xHolds) (holder y yIn yHolds)
  covers := fun running found => (covers running found).fewer fewer

theorem Ordered.same_stepAt (ordered : Ordered list) (running : id ∈ list.order)
    (off : list.isHolder resource id = false) {other : Nat}
    (held : list.isHolder resource other = true) :
    Same (stepAt device visit list state id) state resource := by
  have inside := ordered.chained.inside id running
  have found := List.getElem?_eq_getElem inside
  have covers := ordered.covers running found
  have absent : resource ∉ (list.nodes[id]).resources := by
    intro member
    rw [InstructionList.isHolder_iff.mpr ⟨running, _, found, member⟩] at off
    cases off
  rw [stepAt, found]
  refine same_exec (fun touches => absent (covers.touches resource touches)) ?_
  intro global
  cases resource with
  | memory name => exact ⟨name, rfl⟩
  | qubit q => exact absurd (covers.resets global q other held) absent

theorem Ordered.same_runIds (ordered : Ordered list) {ids : List Nat}
    (running : ∀ id ∈ ids, id ∈ list.order) (off : ∀ id ∈ ids, list.isHolder resource id = false)
    {other : Nat} (held : list.isHolder resource other = true) :
    Same (runIds device visit list state ids) state resource := by
  induction ids generalizing state with
  | nil => exact Same.refl _ _
  | cons id rest ih =>
      have first : Same (stepAt device visit list state id) state resource :=
        ordered.same_stepAt (running id List.mem_cons_self) (off id List.mem_cons_self) held
      exact (ih (fun x member => running x (List.mem_cons_of_mem _ member))
        (fun x member => off x (List.mem_cons_of_mem _ member))).trans first

theorem runIds_append (state : State σ) (first further : List Nat) :
    runIds device visit list state (first ++ further) =
      runIds device visit list (runIds device visit list state first) further :=
  List.foldl_append

theorem stateBefore_split (ordered : Ordered list) {pre post : List Nat}
    (split : list.order = pre ++ id :: post) :
    stateBefore device visit list state id = runIds device visit list state pre := by
  rw [stateBefore, split, takeWhile_split (split ▸ ordered.chained.order)]

theorem Ordered.same_last (ordered : Ordered list) {pre post : List Nat}
    (split : list.order = pre ++ post) {last : Nat} (member : last ∈ pre)
    (holder : list.isHolder resource last = true)
    (latest : ∀ id ∈ pre, list.isHolder resource id = true → id ≤ last) :
    Same (runIds device visit list state pre) (stateAfter device visit list state last) resource := by
  obtain ⟨front, back, rfl⟩ := List.append_of_mem member
  have whole : list.order = front ++ last :: (back ++ post) := by rw [split]; simp
  have orderly := ordered.orderly
  rw [whole, List.pairwise_append, List.pairwise_cons] at orderly
  have off : ∀ id ∈ back, list.isHolder resource id = false := by
    intro id later
    cases holds : list.isHolder resource id with
    | false => rfl
    | true =>
        have above := orderly.2.1.1 id (List.mem_append_left _ later) resource
          (Bool.and_eq_true_iff.mp holder).2 (Bool.and_eq_true_iff.mp holds).2
        have below := latest id (List.mem_append_right _ (List.mem_cons_of_mem _ later)) holds
        omega
  rw [runIds_append, stateAfter, stateBefore_split ordered whole]
  refine ordered.same_runIds (fun id later => ?_) off holder
  rw [whole]
  exact List.mem_append_right _ (List.mem_cons_of_mem _ (List.mem_append_left _ later))

/-- In front of an instruction a resource on one of its chains is as the nearest instruction before it on the
    chain left it. -/
theorem Ordered.same_before (ordered : Ordered list) {previous : Nat}
    (holder : list.isHolder resource id = true)
    (nearest : Nearest.below? (list.isHolder resource) id = some previous) :
    Same (stateBefore device visit list state id) (stateAfter device visit list state previous)
      resource := by
  obtain ⟨lower, holds, between⟩ := Nearest.below?_eq_some.mp nearest
  obtain ⟨running, here⟩ := Bool.and_eq_true_iff.mp holder
  obtain ⟨runs, there⟩ := Bool.and_eq_true_iff.mp holds
  obtain ⟨post, split⟩ := split_at (List.contains_iff_mem.mp running)
  have orderly := ordered.orderly
  rw [split, List.pairwise_append, List.pairwise_cons] at orderly
  rw [stateBefore_split ordered split]
  refine ordered.same_last split ?_ holds ?_
  · have member : previous ∈ list.order := List.contains_iff_mem.mp runs
    rw [split] at member
    rcases List.mem_append.mp member with front | behind
    · exact front
    · rcases List.mem_cons.mp behind with same | later
      · omega
      · have above := orderly.2.1.1 previous later resource here there
        omega
  · intro other member otherHolds
    have below := orderly.2.2 other member id List.mem_cons_self resource
      (Bool.and_eq_true_iff.mp otherHolds).2 here
    by_contra above
    rw [between other (by omega) below] at otherHolds
    cases otherHolds

theorem Ordered.same_before_first (ordered : Ordered list) (holder : list.isHolder resource id = true)
    (first : Nearest.below? (list.isHolder resource) id = none) :
    Same (stateBefore device visit list state id) state resource := by
  obtain ⟨running, here⟩ := Bool.and_eq_true_iff.mp holder
  obtain ⟨post, split⟩ := split_at (List.contains_iff_mem.mp running)
  have orderly := ordered.orderly
  rw [split, List.pairwise_append, List.pairwise_cons] at orderly
  rw [stateBefore_split ordered split]
  refine ordered.same_runIds ?_ ?_ holder
  · intro other member
    rw [split]
    exact List.mem_append_left _ member
  · intro other member
    cases holds : list.isHolder resource other with
    | false => rfl
    | true =>
        have below := orderly.2.2 other member id List.mem_cons_self resource
          (Bool.and_eq_true_iff.mp holds).2 here
        rw [Nearest.below?_eq_none.mp first other below] at holds
        cases holds

/-! ## Lists with the same effects -/

/-- Whether another list has the same order and the same effects when it runs from a state. -/
structure SameEffects (device : Device σ) (visit : Nat) (list other : InstructionList) (state : State σ) :
    Prop where
  order : other.order = list.order
  distinct : list.order.Nodup
  step : ∀ id ∈ list.order, stepAt device visit other (stateBefore device visit list state id) id =
    stateAfter device visit list state id

variable {other : InstructionList}

theorem stepAt_congr
    (same : (other.nodes[id]?).map Instruction.operation = (list.nodes[id]?).map Instruction.operation) :
    stepAt device visit other state id = stepAt device visit list state id := by
  unfold stepAt
  cases here : other.nodes[id]? with
  | none =>
      rw [here] at same
      rw [Option.map_eq_none_iff.mp same.symm]
  | some node =>
      rw [here] at same
      obtain ⟨node', there, operation⟩ := Option.map_eq_some_iff.mp same.symm
      rw [there]
      dsimp only
      rw [operation]

namespace SameEffects

variable (effects : SameEffects device visit list other state)

include effects

theorem runIds {pre post : List Nat} (split : list.order = pre ++ post) :
    Execution.runIds device visit other state pre = Execution.runIds device visit list state pre := by
  induction pre using List.reverseRecOn generalizing post with
  | nil => rfl
  | append_singleton front last ih =>
      have whole : list.order = front ++ last :: post := by simpa using split
      have member : last ∈ list.order := by simp [whole]
      have step := effects.step last member
      have before : stateBefore device visit list state last =
          Execution.runIds device visit list state front := by
        rw [stateBefore, whole, takeWhile_split (whole ▸ effects.distinct)]
      rw [stateAfter, before] at step
      rw [runIds_append, runIds_append, ih whole]
      exact step

theorem before (id : Nat) :
    stateBefore device visit other state id = stateBefore device visit list state id := by
  rw [stateBefore, effects.order]
  exact effects.runIds List.takeWhile_append_dropWhile.symm

theorem after (running : id ∈ list.order) :
    stateAfter device visit other state id = stateAfter device visit list state id := by
  rw [stateAfter, effects.before, effects.step id running]

theorem runList : Execution.runList device visit other state = Execution.runList device visit list state := by
  rw [Execution.runList, effects.order]
  exact effects.runIds (List.append_nil _).symm

theorem decisions
    (jumps : ∀ id ∈ list.order,
      (other.nodes[id]?).bind (fun node => Indexed.Machine.condition? node.operation) =
        (list.nodes[id]?).bind (fun node => Indexed.Machine.condition? node.operation)) :
    Execution.decisions device visit other state = Execution.decisions device visit list state := by
  rw [Execution.decisions, Execution.decisions, effects.order]
  refine List.filterMap_congr (fun id running => ?_)
  rw [decision?, decision?, jumps id running, effects.before]

end SameEffects

end TwoLane.Execution
