import TwoLane.Proofs.Execution.Guards
import TwoLane.Proofs.Execution.Path

/-! # Passes over lists

A pass changes each list on its own. It keeps the results of a program if each list has the same effects afterwards
wherever it is entered, and what is known in it stays true.
-/

namespace TwoLane

/-- The part of an instruction that no pass changes: its line, whether it steers control, and what decides it. -/
def Instruction.role (node : Instruction) : Nat × Bool × Option String :=
  (node.line, node.category.isControl, Indexed.Machine.condition? node.operation)

theorem Instruction.role_of_links {a b : Instruction} (same : a.withoutLinks = b.withoutLinks) :
    a.role = b.role := by
  have view : ∀ node : Instruction, node.withoutLinks.role = node.role := fun _ => rfl
  rw [← view, same, view]

namespace Execution

variable {σ : Type} {device : Device σ} {visit i : Nat} {list after last : InstructionList} {state : State σ}
  {memory : String → Number} {lists lists' : List InstructionList}

/-- Whether the instructions of two lists have the same roles. -/
def SameRoles (list after : InstructionList) : Prop :=
  ∀ id : Nat, (after.nodes[id]?).map Instruction.role = (list.nodes[id]?).map Instruction.role

theorem SameRoles.refl (list : InstructionList) : SameRoles list list :=
  fun _ => rfl

theorem SameRoles.trans (first : SameRoles list after) (second : SameRoles after last) :
    SameRoles list last :=
  fun id => (second id).trans (first id)

theorem SameRoles.getElem? (roles : SameRoles list after) {id : Nat} {node : Instruction}
    (found : after.nodes[id]? = some node) :
    ∃ before, list.nodes[id]? = some before ∧ node.role = before.role := by
  have same := roles id
  rw [found] at same
  obtain ⟨before, there, equal⟩ := Option.map_eq_some_iff.mp same.symm
  exact ⟨before, there, equal.symm⟩

theorem SameRoles.conditions (roles : SameRoles list after) (id : Nat) :
    (after.nodes[id]?).bind (fun node => Indexed.Machine.condition? node.operation) =
      (list.nodes[id]?).bind (fun node => Indexed.Machine.condition? node.operation) := by
  have same := congrArg (fun role : Option (Nat × Bool × Option String) => role.bind (fun r => r.2.2)) (roles id)
  simp only [Option.bind_map] at same
  exact same

/-- A list in order whose conditional jumps are control instructions and whose lines are distinct. -/
structure Regular (list : InstructionList) : Prop where
  ordered : Ordered list
  steered : ∀ id ∈ list.order, ∀ node, list.nodes[id]? = some node →
    (Indexed.Machine.condition? node.operation).isSome = true → node.category.isControl = true
  lines : ∀ {i j a b}, i ∈ list.order → j ∈ list.order → list.nodes[i]? = some a → list.nodes[j]? = some b →
    a.line = b.line → i = j

theorem Regular.of_roles (regular : Regular list) (ordered : Ordered after) (roles : SameRoles list after)
    (order : after.order ⊆ list.order) : Regular after where
  ordered := ordered
  steered := by
    intro id running node found decided
    obtain ⟨before, there, same⟩ := roles.getElem? found
    have control : node.category.isControl = before.category.isControl :=
      congrArg (fun role : Nat × Bool × Option String => role.2.1) same
    have condition : Indexed.Machine.condition? node.operation = Indexed.Machine.condition? before.operation :=
      congrArg (fun role : Nat × Bool × Option String => role.2.2) same
    rw [control]
    exact regular.steered id (order running) before there (condition ▸ decided)
  lines := by
    intro i j a b iRuns jRuns iFound jFound same
    obtain ⟨a', iThere, iRole⟩ := roles.getElem? iFound
    obtain ⟨b', jThere, jRole⟩ := roles.getElem? jFound
    have iLine : a.line = a'.line := congrArg Prod.fst iRole
    have jLine : b.line = b'.line := congrArg Prod.fst jRole
    exact regular.lines (order iRuns) (order jRuns) iThere jThere (iLine.symm.trans (same.trans jLine))

/-- Whether a pass over a list keeps what a program does with it. -/
structure Keeps (isEntry : Bool) (list after : InstructionList) : Prop where
  regular : Regular after
  roles : SameRoles list after
  successors : after.successors = list.successors
  guarded : ∀ {names}, Guarded names list → Guarded names after
  same : ∀ {σ : Type} {device : Device σ} {visit : Nat} {state : State σ},
    (isEntry = true → ∀ q, state.qubits q = device.ket .zero) → Told device visit list state →
      decisions device visit after state = decisions device visit list state ∧
        runList device visit after state = runList device visit list state ∧ Told device visit after state

theorem Keeps.refl (isEntry : Bool) (regular : Regular list) : Keeps isEntry list list :=
  ⟨regular, .refl list, rfl, fun guarded => guarded, fun _ told => ⟨rfl, rfl, told⟩⟩

theorem Keeps.trans {isEntry : Bool} (first : Keeps isEntry list after) (second : Keeps isEntry after last) :
    Keeps isEntry list last where
  regular := second.regular
  roles := first.roles.trans second.roles
  successors := second.successors.trans first.successors
  guarded := fun guarded => second.guarded (first.guarded guarded)
  same := by
    intro σ device visit state entry told
    obtain ⟨decisions, run, told⟩ := first.same entry told
    obtain ⟨decisions', run', told⟩ := second.same entry told
    exact ⟨decisions'.trans decisions, run'.trans run, told⟩

theorem keeps_of_effects {isEntry : Bool} (regular : Regular list) (ordered : Ordered after)
    (roles : SameRoles list after) (order : after.order = list.order) (successors : after.successors = list.successors)
    (guarded : ∀ {names}, Guarded names list → Guarded names after)
    (same : ∀ {σ : Type} {device : Device σ} {visit : Nat} {state : State σ},
      (isEntry = true → ∀ q, state.qubits q = device.ket .zero) → Told device visit list state →
        SameEffects device visit list after state ∧ Told device visit after state) :
    Keeps isEntry list after where
  regular := regular.of_roles ordered roles (order ▸ List.Subset.refl _)
  roles := roles
  successors := successors
  guarded := guarded
  same := by
    intro σ device visit state entry told
    obtain ⟨effects, told⟩ := same entry told
    exact ⟨effects.decisions (fun id _ => roles.conditions id), effects.runList, told⟩

/-! ## Instructions that take the place of others -/

/-- Whether an instruction can take the place of another one in a list. -/
structure Replaces (list : InstructionList) (node node' : Instruction) : Prop where
  role : node'.role = node.role
  resources : node'.resources ⊆ node.resources
  covers : Covers list node'
  reaches : Reaches node node'

theorem role_congr {node node' : Instruction} (line : node'.line = node.line)
    (control : node'.category.isControl = node.category.isControl)
    (condition : Indexed.Machine.condition? node'.operation = Indexed.Machine.condition? node.operation) :
    node'.role = node.role := by
  rw [Instruction.role, line, control, condition, Instruction.role]

/-- Whether an instruction that takes the place of another one does the same from states in which all that is known
    holds, and nothing wrong is known about it. -/
def ActsAs (list : InstructionList) (isEntry : Bool) (node node' : Instruction) : Prop :=
  ∀ {σ : Type} {device : Device σ} {site : Site} {before : State σ}, Known device list isEntry node before →
    HoldsAt device node before (device.exec site node.operation before) →
      device.exec site node'.operation before = device.exec site node.operation before ∧
        HoldsAt device node' before (device.exec site node.operation before)

theorem Replaces.refl {node : Instruction} (covers : Covers list node) : Replaces list node node :=
  ⟨rfl, List.Subset.refl _, covers, .refl node⟩

theorem sameRoles_of_rewrite {id : Nat} {node node' : Instruction}
    (rewrite : InstructionList.Rewrite list after id node') (found : list.nodes[id]? = some node)
    (role : node'.role = node.role) : SameRoles list after := by
  intro j
  by_cases here : j = id
  · subst here
    obtain ⟨there, thereFound, same⟩ := Option.map_eq_some_iff.mp rewrite.here
    have own := Instruction.role_of_links same
    rw [thereFound, found, Option.map_some, Option.map_some, own, role]
  · have same := congrArg (Option.map Instruction.role) (rewrite.others j here)
    rw [Option.map_map, Option.map_map] at same
    exact same

theorem keeps_of_rewrite {isEntry : Bool} {id : Nat} {node node' : Instruction} (regular : Regular list)
    (running : id ∈ list.order) (found : list.nodes[id]? = some node)
    (rewrite : InstructionList.Rewrite list after id node') (replaces : Replaces list node node')
    (acts : ActsAs list isEntry node node') : Keeps isEntry list after := by
  have ordered := regular.ordered
  refine keeps_of_effects regular
    (ordered.rewrite rewrite running found replaces.resources replaces.covers)
    (sameRoles_of_rewrite rewrite found replaces.role) rewrite.order rewrite.successors
    (fun guarded => guarded.rewrite running found rewrite replaces.reaches) ?_
  intro σ device visit state entry told
  have holds := told id running _ found
  rw [stateAfter_eq found] at holds
  obtain ⟨effect, holds'⟩ := acts (told.known ordered entry running found) holds
  have effects := sameEffects_of_rewrite rewrite ordered.chained.order found effect
  refine ⟨effects, told.rewrite rewrite effects ?_⟩
  rw [stateAfter_eq found]
  exact holds'

theorem keeps_foldl {α : Type} {isEntry : Bool} {number : α → Nat}
    {step : InstructionList → α → InstructionList}
    (each : ∀ list item, Regular list → number item ∈ list.order →
      Keeps isEntry list (step list item) ∧ (step list item).order = list.order)
    {items : List α} (regular : Regular list) (running : ∀ item ∈ items, number item ∈ list.order) :
    Keeps isEntry list (items.foldl step list) ∧ (items.foldl step list).order = list.order := by
  induction items generalizing list with
  | nil => exact ⟨.refl _ regular, rfl⟩
  | cons item rest ih =>
      obtain ⟨first, order⟩ := each list item regular (running item List.mem_cons_self)
      obtain ⟨further, order'⟩ := ih first.regular (by
        rw [order]
        exact fun other member => running other (List.mem_cons_of_mem _ member))
      exact ⟨first.trans further, order'.trans order⟩

/-! ## Families of lists -/

/-- Whether all that is known in lists is true whenever they are entered. -/
def AllTold (device : Device σ) (memory : String → Number) (lists : List InstructionList) : Prop :=
  ∀ {visit i list state}, Enters device lists memory visit i state → lists[i]? = some list →
    Told device visit list state

/-- Whether a pass over each of several lists keeps what a program does. -/
structure AllKept (lists lists' : List InstructionList) : Prop where
  flow : lists'.map InstructionList.successors = lists.map InstructionList.successors
  each : ∀ {i list list'}, lists[i]? = some list → lists'[i]? = some list' → Keeps (i == 0) list list'

theorem AllKept.simulates (kept : AllKept lists lists') (told : AllTold device memory lists) (readout : List String) :
    Simulates device memory readout lists lists'
      (fun visit i a b => a = b ∧ Enters device lists memory visit i a) := by
  refine simulates_of_same readout kept.flow ?_
  intro visit i list list' state entered found found'
  obtain ⟨decisions, run, _⟩ := (kept.each found found').same
    (fun isEntry => entered.zero_of (by simpa using isEntry)) (told entered found)
  exact ⟨decisions, run⟩

theorem AllKept.told (kept : AllKept lists lists') (told : AllTold device memory lists) :
    AllTold device memory lists' := by
  intro visit i list' state entered found'
  obtain ⟨_, _, rfl, before⟩ := (kept.simulates told []).entered entered
  obtain ⟨list, found, _⟩ := flow_getElem? kept.flow.symm found'
  exact ((kept.each found found').same
    (fun isEntry => before.zero_of (by simpa using isEntry)) (told before found)).2.2

theorem allKept_zipIdx {pass : Nat → InstructionList → InstructionList}
    (kept : ∀ {i list}, lists[i]? = some list → Keeps (i == 0) list (pass i list)) :
    AllKept lists (lists.zipIdx.map (fun entry => pass entry.2 entry.1)) := by
  have getElem? : ∀ i : Nat, (lists.zipIdx.map (fun entry => pass entry.2 entry.1))[i]? =
      (lists[i]?).map (pass i) := by
    intro i
    rw [List.getElem?_map, List.getElem?_zipIdx, Nat.zero_add, Option.map_map]
    rfl
  refine ⟨?_, ?_⟩
  · apply List.ext_getElem?
    intro i
    rw [List.getElem?_map, getElem?, List.getElem?_map]
    cases found : lists[i]? with
    | none => rfl
    | some list => exact congrArg some (kept found).successors
  · intro i list list' found found'
    rw [getElem?, found] at found'
    cases found'
    exact kept found

end Execution

end TwoLane
