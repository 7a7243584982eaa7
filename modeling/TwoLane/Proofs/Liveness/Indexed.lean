import TwoLane.Proofs.Liveness.Worked
import TwoLane.Proofs.Memory.IndexedMachine

/-! # Removal and indexed memory

Two runs agree on the cells of the live names, on the rows of those that a load further on picks from, and on what
nothing has reached so far. An instruction that stays keeps that, and one that is dead may be passed over. A write under
the name of a whole region ends the life of all its cells, though it writes only the first one: what follows holds where
no load further on picks from a region of which another cell was reached before.
-/

namespace TwoLane.Indexed

open Liveness

/-- Whether an operation may change a cell, whatever its index is worth. -/
def Reaches (operation : Operation) (other : String) : Prop :=
  ∃ name ∈ writtenNames operation, if isStore operation then InRow name other else other = cell name

def picked? : Operation → Option String
  | .classical opcode (_ :: .address region :: _) => if opcode = "LOAD" then some region else none
  | _ => none

def Picked (operations : List Operation) (region : String) : Prop :=
  ∃ operation ∈ operations, picked? operation = some region

instance (operations : List Operation) (region : String) : Decidable (Picked operations region) :=
  inferInstanceAs (Decidable (∃ operation ∈ operations, _))

/-- Whether an operation ends the life of no whole region without need: where it writes one and reads nothing of it,
    no cell but the first was reached before that a load further on may pick. -/
def Spares (passed : List Operation) (operation : Operation) (further : List Operation) : Prop :=
  ∀ name ∈ writtenNames operation, Memory.isElement name = false → Picked further name →
    (∃ earlier ∈ passed, ∃ other, Reaches earlier other ∧ InRow name other ∧ other ≠ cell name) →
      operation.readsTarget = true ∨ name ∈ namesOf .usage operation

/-- Whether each operation spares what was reached before it. -/
def Outlive (operations : List Operation) : Prop :=
  ∀ passed operation further, operations = passed ++ operation :: further → Spares passed operation further

/-- Whether a cell is one that a live name keeps, or is read out. -/
def Kept (further : List Operation) (readout live : List String) (other : String) : Prop :=
  (∃ name ∈ live, other = cell name ∨ (Picked further name ∧ InRow name other)) ∨ ∃ name ∈ readout, InRow name other

/-- Whether cells hold the same where live names or what is read out keep them, and where nothing has reached. -/
def Agree (passed further : List Operation) (readout live : List String) (a b : Cells) : Prop :=
  ∀ other, (Kept further readout live other ∨ ∀ earlier ∈ passed, ¬ Reaches earlier other) → a other = b other

/-- Whether an instruction is a classical or a control one that has occurrences for what it writes, and steers control
    where it decides a jump. -/
structure Ordinary (node : Instruction) : Prop where
  step : IsStep node.operation
  assigns : Assigns node
  steers : ∀ name, Machine.condition? node.operation = some name → node.category.isControl = true

variable {passed further : List Operation} {readout live : List String} {a b : Cells} {machine : Machine}
  {operation : Operation} {node : Instruction} {other : String}

theorem inRow_of_reaches (reaches : Reaches operation other) :
    ∃ name ∈ writtenNames operation, InRow name other := by
  obtain ⟨name, member, changes⟩ := reaches
  refine ⟨name, member, ?_⟩
  split at changes
  · exact changes
  · exact changes ▸ inRow_cell name

theorem Machine.exec_of_not_reaches (machine : Machine) (cells : Cells) (apart : ¬ Reaches operation other) :
    machine.exec cells operation other = cells other := by
  cases operation with
  | classical opcode operands =>
      refine (machine.step_exec cells opcode operands).frame (fun mayWrite => apart ?_)
      obtain ⟨name, member, changes⟩ := mayWrite
      refine ⟨name, member, ?_⟩
      split at changes
      · next store =>
          rw [if_pos store]
          split at changes
          · exact changes ▸ inRow_slot name _
          · exact changes
      · next plain => rwa [if_neg plain]
  | _ => rfl

theorem Picked.cons {region : String} (picked : Picked further region) (operation : Operation) :
    Picked (operation :: further) region := by
  obtain ⟨later, member, picks⟩ := picked
  exact ⟨later, List.mem_cons_of_mem _ member, picks⟩

/-- Operations spare each other where no whole region that loads pick from is written by one that reads nothing of
    it. -/
theorem outlive_of_unpicked {operations : List Operation}
    (reads : ∀ operation ∈ operations, ∀ name ∈ writtenNames operation, Memory.isElement name = false →
      Picked operations name → operation.readsTarget = true ∨ name ∈ namesOf .usage operation) :
    Outlive operations := by
  rintro passed operation further rfl name written whole ⟨later, member, picks⟩ _
  refine reads operation (by simp) name written whole ⟨later, ?_, picks⟩
  exact List.mem_append_right _ (List.mem_cons_of_mem _ member)

theorem Agree.weaken {more : List String} (agree : Agree passed further readout more a b) (within : live ⊆ more) :
    Agree passed further readout live a b := by
  intro other kept
  refine agree other (kept.imp_left (Or.imp_left ?_))
  exact fun ⟨name, member, covers⟩ => ⟨name, within member, covers⟩

/-! ## One instruction -/

theorem kept_before (spares : Spares passed node.operation further) (kept : Kept further readout live other)
    (spared : node.operation.readsTarget = false → ∀ name ∈ writtenNames node.operation, other ≠ cell name) :
    Kept (node.operation :: further) readout (memoryBefore node live) other ∨
      ∀ earlier ∈ passed, ¬ Reaches earlier other := by
  rcases kept with ⟨name, member, covers⟩ | readOut
  · have stays : name ∈ memoryBefore node live →
        Kept (node.operation :: further) readout (memoryBefore node live) other :=
      fun before => .inl ⟨name, before, covers.imp_right (And.imp_left (fun picked => picked.cons _))⟩
    cases updates : node.operation.readsTarget with
    | true =>
        refine .inl (stays (mem_memoryBefore.mpr (.inl ⟨member, fun replaces => ?_⟩)))
        cases updates.symm.trans replaces
    | false =>
        by_cases written : name ∈ writtenNames node.operation
        · have differ := spared updates name written
          obtain ⟨picked, inRow⟩ := covers.resolve_left differ
          have whole : Memory.isElement name = false := by
            by_contra element
            exact differ (eq_cell_of_inRow (by simpa using element) inRow)
          by_cases reached : ∃ earlier ∈ passed, Reaches earlier other
          · obtain ⟨earlier, there, reaches⟩ := reached
            rcases spares name written whole picked ⟨earlier, there, other, reaches, inRow, differ⟩ with reads | reads
            · cases updates.symm.trans reads
            · exact .inl (stays (mem_memoryBefore.mpr (.inr (.inl reads))))
          · exact .inr (fun earlier there reaches => reached ⟨earlier, there, reaches⟩)
        · exact .inl (stays (mem_memoryBefore.mpr (.inl ⟨member, fun _ => written⟩)))
  · exact .inl (.inr readOut)

theorem Agree.used (agree : Agree passed further readout (memoryBefore node live) a b) (assigns : Assigns node) :
    ∀ name ∈ usedNames node.operation, a (cell name) = b (cell name) :=
  fun name member => agree _ (.inl (.inl ⟨name, used_live assigns member, .inl rfl⟩))

/-- Runs that agree in front of an instruction agree behind it. -/
theorem Agree.exec (agree : Agree passed (node.operation :: further) readout (memoryBefore node live) a b)
    (spares : Spares passed node.operation further) (ordinary : Ordinary node) :
    Agree (passed ++ [node.operation]) further readout live (machine.exec a node.operation)
      (machine.exec b node.operation) := by
  have used := agree.used ordinary.assigns
  have rows : ∀ region ∈ usedNames node.operation, picked? node.operation = some region →
      ∀ other, InRow region other → a other = b other :=
    fun region member picks other inRow => agree other
      (.inl (.inl ⟨region, used_live ordinary.assigns member, .inr ⟨⟨_, List.mem_cons_self, picks⟩, inRow⟩⟩))
  intro other kept
  have before : (node.operation.readsTarget = false → ∀ name ∈ writtenNames node.operation, other ≠ cell name) →
      a other = b other := by
    intro spared
    refine agree other (kept.elim (fun kept => kept_before spares kept spared) (fun unreached => .inr ?_))
    exact fun earlier member => unreached earlier (List.mem_append_left _ member)
  have step := ordinary.step
  generalize node.operation = operation at step used rows before ⊢
  cases step with
  | classical opcode operands =>
      cases found : Machine.picks? (.classical opcode operands) with
      | none =>
          simp only [Machine.exec, found]
          refine Machine.writeAll_congr (Machine.outcome_congr used ?_)
            (fun unwritten => before (fun _ => unwritten))
          rintro target region rest rfl rfl
          refine rows region ?_ rfl
          have member : Operand.address region ∈
              (target :: .address region :: rest).drop (Operation.writtenCount "LOAD") := by
            simp [Operation.writtenCount]
          exact Machine.addresses_used member (List.mem_singleton_self region)
      | some parts =>
          obtain ⟨region, index, rest⟩ := parts
          simp only [Machine.exec, found]
          cases Machine.picks?_eq_some found
          have value : ∀ operand ∈ index :: rest, machine.value a operand = machine.value b operand :=
            fun operand member => Machine.value_congr
              (fun name named => used name (Machine.addresses_used member named))
          have stored : rest.head?.map (machine.value a) = rest.head?.map (machine.value b) := by
            cases rest with
            | nil => rfl
            | cons first rest => exact congrArg some (value first (by simp))
          rw [value index List.mem_cons_self, stored, Machine.guess_congr used]
          simp only [put]
          split
          · rfl
          · exact before (fun replaces => absurd (show true = false from replaces) (by decide))
  | _ => exact before (fun _ _ member => absurd member List.not_mem_nil)

theorem not_reaches_of_isDead {live : LiveSet} (assigns : Assigns node) (dead : isDead live readout node = true)
    (kept : Kept further readout live.memory other) : ¬ Reaches node.operation other := by
  intro reaches
  obtain ⟨written, member, inRow⟩ := inRow_of_reaches reaches
  obtain ⟨unused, unread⟩ := apart_of_isDead dead assigns member
  have clash : ∀ name, Memory.mayOverlap name written = false → ¬ InRow name other := by
    intro name separate shares
    rw [mayOverlap_of_inRow shares inRow] at separate
    cases separate
  rcases kept with ⟨name, there, rfl | ⟨_, shares⟩⟩ | ⟨name, there, shares⟩
  · exact clash name (unused name there) (inRow_cell name)
  · exact clash name (unused name there) shares
  · exact clash name (unread name there) shares

theorem Agree.skip {live : LiveSet} (agree : Agree passed (node.operation :: further) readout live.memory a b)
    (assigns : Assigns node) (dead : isDead live readout node = true) :
    Agree (passed ++ [node.operation]) further readout live.memory (machine.exec a node.operation) b := by
  intro other kept
  have unreached : ¬ Reaches node.operation other := by
    rcases kept with kept | unreached
    · exact not_reaches_of_isDead assigns dead kept
    · exact unreached _ (by simp)
  rw [machine.exec_of_not_reaches a unreached]
  refine agree other (kept.imp ?_ (fun unreached earlier member => unreached earlier (List.mem_append_left _ member)))
  exact Or.imp_left (fun ⟨name, member, covers⟩ =>
    ⟨name, member, covers.imp_right (And.imp_left (fun picked => picked.cons _))⟩)

/-! ## Runs of lists -/

theorem Ordinary.condition_of_isDead (ordinary : Ordinary node) {live : LiveSet}
    (dead : isDead live readout node = true) : Machine.condition? node.operation = none := by
  cases decides : Machine.condition? node.operation with
  | none => rfl
  | some name =>
      have control := ordinary.steers name decides
      simp [isDead, control] at dead

/-- The value that decides a jump is the same in both runs. -/
theorem Agree.condition (agree : Agree passed further readout (memoryBefore node live) a b) (assigns : Assigns node) :
    (Machine.condition? node.operation).map (fun name => a (cell name)) =
      (Machine.condition? node.operation).map (fun name => b (cell name)) := by
  have used := agree.used assigns
  generalize node.operation = operation at used
  cases operation with
  | jumpWhen _ name =>
      exact congrArg some (used name (by simp [usedNames, namesOf, Operation.memoryAccesses]))
  | jumpUnless _ name =>
      exact congrArg some (used name (by simp [usedNames, namesOf, Operation.memoryAccesses]))
  | _ => rfl

/-- Instructions and the survivors among them leave the same in the cells that are kept, and decide jumps by
    the same values. -/
theorem Agree.run_survivors {live : LiveSet} {nodes : List Instruction} (ordinary : ∀ node ∈ nodes, Ordinary node)
    (outlive : Outlive (passed ++ (nodes.map Instruction.operation ++ further)))
    (agree : Agree passed (nodes.map Instruction.operation ++ further) readout
      (nodes.foldr (before readout) live).memory a b) :
    Agree (passed ++ nodes.map Instruction.operation) further readout live.memory
        (machine.run a (nodes.map Instruction.operation))
        (machine.run b ((survivors readout live nodes).map Instruction.operation)) ∧
      machine.conditions a (nodes.map Instruction.operation) =
        machine.conditions b ((survivors readout live nodes).map Instruction.operation) := by
  induction nodes generalizing passed a b with
  | nil =>
      rw [List.map_nil, List.append_nil]
      exact ⟨agree, rfl⟩
  | cons node rest ih =>
      have here := ordinary node List.mem_cons_self
      have spares := outlive passed node.operation _ rfl
      rw [List.map_cons, List.cons_append, List.append_cons] at outlive
      have onward := fun a b => @ih (passed ++ [node.operation]) a b
        (fun other member => ordinary other (List.mem_cons_of_mem _ member)) outlive
      rw [List.foldr_cons, before] at agree
      rw [survivors, List.map_cons, List.append_cons]
      split
      · next dead =>
          rw [if_pos dead] at agree
          obtain ⟨after, same⟩ := onward _ b (agree.skip here.assigns dead)
          refine ⟨after, ?_⟩
          rw [Machine.conditions, here.condition_of_isDead dead]
          exact same
      · next kept =>
          rw [if_neg kept] at agree
          obtain ⟨after, same⟩ := onward _ _ (agree.exec spares here)
          refine ⟨after, ?_⟩
          rw [List.map_cons, Machine.conditions, Machine.conditions, same, agree.condition here.assigns]

/-! ## Runs along a path -/

/-- The operations of lists along a path, one list after the other. -/
def along (lists : List InstructionList) (path : List Nat) : List Operation :=
  path.flatMap (fun i =>
    ((lists[i]?).map (fun list => list.running.map Instruction.operation)).getD [])

theorem along_cons (lists : List InstructionList) (i : Nat) (path : List Nat) :
    along lists (i :: path) = along lists [i] ++ along lists path := by
  simp [along]

theorem along_singleton {lists : List InstructionList} {i : Nat} {list : InstructionList}
    (found : lists[i]? = some list) :
    along lists [i] = list.running.map Instruction.operation := by
  simp [along, found]

/-- What is left of lists once dead instructions are removed from those along a path. -/
structure Trimmed (readout : List String) (lists after : List InstructionList) (path : List Nat) :
    Prop where
  length : after.length = lists.length
  each : ∀ i ∈ path, ∀ list, lists[i]? = some list → ∃ shorter, after[i]? = some shorter ∧
    shorter.running.map Instruction.operation =
      (survivors readout (behind readout (fixpoint readout lists) list) list.running).map
        Instruction.operation

variable {lists after : List InstructionList} {start : Nat} {path : List Nat}

theorem Agree.through (machine : Machine) (ordinary : ∀ list ∈ lists, ∀ node ∈ list.running, Ordinary node)
    (sorted : Sorted.Increasing readout) (trimmed : Trimmed readout lists after (start :: path))
    {list : InstructionList} (found : lists[start]? = some list)
    (outlive : Outlive (passed ++ (along lists [start] ++ further)))
    (agree : Agree passed (along lists [start] ++ further) readout (at? (fixpoint readout lists) start).memory a b) :
    Agree (passed ++ along lists [start]) further readout (behind readout (fixpoint readout lists) list).memory
        (machine.run a (along lists [start])) (machine.run b (along after [start])) ∧
      machine.conditions a (along lists [start]) = machine.conditions b (along after [start]) := by
  obtain ⟨shorter, there, operations⟩ := trimmed.each start List.mem_cons_self list found
  have assigns : AllAssign lists := fun list member node inside => (ordinary list member node inside).assigns
  rw [along_singleton found] at outlive agree ⊢
  rw [along_singleton there, operations]
  rw [fixpoint_eq assigns sorted found] at agree
  exact agree.run_survivors (ordinary list (List.mem_of_getElem? found)) outlive

theorem Agree.along (machine : Machine) (ordinary : ∀ list ∈ lists, ∀ node ∈ list.running, Ordinary node)
    (sorted : Sorted.Increasing readout) (trimmed : Trimmed readout lists after (start :: path))
    (follows : Follows lists (start :: path)) (outlive : Outlive (passed ++ along lists (start :: path)))
    (agree : Agree passed (along lists (start :: path)) readout (at? (fixpoint readout lists) start).memory a b) :
    Agree (passed ++ along lists (start :: path)) [] readout [] (machine.run a (along lists (start :: path)))
        (machine.run b (along after (start :: path))) ∧
      machine.conditions a (along lists (start :: path)) =
        machine.conditions b (along after (start :: path)) := by
  induction path generalizing passed start a b with
  | nil =>
      cases found : lists[start]? with
      | none =>
          have gone : after[start]? = none := by
            rw [List.getElem?_eq_none_iff] at found ⊢
            rwa [trimmed.length]
          have nothing : Indexed.along lists [start] = [] ∧ Indexed.along after [start] = [] := by
            simp [Indexed.along, found, gone]
          rw [nothing.1] at agree ⊢
          rw [nothing.2, List.append_nil]
          exact ⟨agree.weaken (List.nil_subset _), rfl⟩
      | some list =>
          rw [← List.append_nil (Indexed.along lists [start])] at outlive agree
          obtain ⟨behind, same⟩ := agree.through machine ordinary sorted trimmed found outlive
          exact ⟨behind.weaken (List.nil_subset _), same⟩
  | cons next path ih =>
      obtain ⟨⟨list, found, goes⟩, further⟩ := List.isChain_cons_cons.mp follows
      rw [along_cons] at outlive agree
      obtain ⟨behind, same⟩ := agree.through machine ordinary sorted trimmed found outlive
      have rest : Trimmed readout lists after (next :: path) :=
        ⟨trimmed.length, fun i member => trimmed.each i (List.mem_cons_of_mem _ member)⟩
      rw [← List.append_assoc] at outlive
      obtain ⟨final, sameRest⟩ :=
        ih rest further outlive (behind.weaken (successor_within_behind goes).memory)
      rw [along_cons lists start, along_cons after start, Machine.run_append, Machine.run_append,
        Machine.conditions_append, Machine.conditions_append, same, sameRest, ← List.append_assoc]
      exact ⟨final, rfl⟩

/-- A removal of dead code succeeds. It keeps what is read out and the values that decide jumps along a path, if no
    instruction on it writes a whole region and reads nothing of it where another cell of the region was reached before
    and a load further on picks from it. -/
theorem removal_keeps_results (orderly : ∀ list ∈ lists, list.Orderly)
    (ordinary : ∀ list ∈ lists, ∀ node ∈ list.running, Ordinary node) (names : List String) (machine : Machine)
    (cells : Cells) (follows : Follows lists path) (begins : path.head? = some 0)
    (outlive : Outlive (along lists path)) :
    ∃ after found,
      (Workspace.ofLists lists (Sorted.ofList names)).removeDead = (after, .ok found) ∧
      (∀ name ∈ names, ∀ other, InRow name other →
        machine.run cells (along after.lists path) other = machine.run cells (along lists path) other) ∧
      machine.conditions cells (along after.lists path) = machine.conditions cells (along lists path) := by
  obtain ⟨⟨found, succeeds⟩, length, each⟩ := removeDead_spec orderly (Sorted.ofList names)
  refine ⟨_, found, Prod.ext rfl succeeds, ?_⟩
  cases path with
  | nil => cases begins
  | cons start path =>
      cases begins
      have trimmed : Trimmed (Sorted.ofList names) lists
          (Workspace.ofLists lists (Sorted.ofList names)).removeDead.1.lists (0 :: path) := by
        refine ⟨length, ?_⟩
        intro i member list there
        obtain ⟨shorter, here, same⟩ := each follows rfl i member list there
        have operations := congrArg (List.map Instruction.operation) same
        rw [List.map_map, List.map_map] at operations
        exact ⟨shorter, here, operations⟩
      have start : ∀ further live, Agree [] further (Sorted.ofList names) live cells cells := fun _ _ _ _ => rfl
      obtain ⟨final, same⟩ := (start _ _).along machine ordinary (Sorted.increasing_ofList names) trimmed follows outlive
      refine ⟨?_, same.symm⟩
      intro name member other inRow
      exact (final other (.inl (.inr ⟨name, Sorted.mem_ofList.mpr member, inRow⟩))).symm

/-! ## Lists that steps have changed -/

/-- Whether an instruction is a new classical or control one. -/
def IsNewStep (node : Instruction) : Prop :=
  ∃ line category operation, node = .ofOperation line category operation ∧ IsStep operation ∧
    ∀ name, Machine.condition? operation = some name → category.isControl = true

theorem isNew_of_isNewStep {nodes : List Instruction} (steps : ∀ node ∈ nodes, IsNewStep node) :
    ∀ node ∈ nodes, node.IsNew := by
  intro node member
  obtain ⟨line, category, operation, rfl, _⟩ := steps node member
  exact Instruction.isNew_ofOperation line category operation

theorem IsStep.becomes (step : IsStep operation) {operation' : Operation} (becomes : operation.Becomes operation') :
    IsStep operation' ∧ Machine.condition? operation' = Machine.condition? operation := by
  cases becomes with
  | refl => exact ⟨step, rfl⟩
  | classical => exact ⟨.classical _ _, rfl⟩
  | gate => cases step
  | measured => cases step

theorem Ordinary.becomes (ordinary : Ordinary node) {node' : Instruction} (becomes : node.Becomes node') :
    Ordinary node' := by
  obtain ⟨step, condition⟩ := ordinary.step.becomes becomes.operation
  refine ⟨step, becomes.assigns ordinary.assigns, ?_⟩
  rw [condition, becomes.control]
  exact ordinary.steers

theorem Part.ordinary {part : Part} (steps : ∀ node ∈ part.nodes, IsNewStep node) :
    ∀ node ∈ part.list.nodes, Ordinary node := by
  intro node member
  have assigns := (tended_new (isNew_of_isNewStep steps)).assigns node member
  obtain ⟨id, found⟩ := List.mem_iff_getElem?.mp member
  have found : (InstructionList.ofNodes part.block part.title part.nodes).nodes[id]? = some node := found
  obtain ⟨old, there, same⟩ := InstructionList.withoutLinks_ofNodes found
  have operation := congrArg Instruction.operation same
  have category := congrArg Instruction.category same
  change node.operation = old.operation at operation
  change node.category = old.category at category
  obtain ⟨_, _, _, rfl, step, steers⟩ := steps old (List.mem_of_getElem? there)
  refine ⟨?_, assigns, ?_⟩
  · rw [operation]
    exact step
  · rw [operation, category]
    exact steers

theorem ordinary_of_worked {parts : List Part} (steps : ∀ part ∈ parts, ∀ node ∈ part.nodes, IsNewStep node)
    {state : Workspace} (worked : Worked parts state) : ∀ list ∈ state.lists, ∀ node ∈ list.running, Ordinary node := by
  have kept : ∀ list ∈ state.lists, Tended list ∧ ∀ node ∈ list.nodes, Ordinary node := by
    refine worked.induction (fun part there => ?_) (fun ⟨tended, ordinary⟩ evolves => ⟨tended.evolves evolves, ?_⟩)
    · exact ⟨tended_new (isNew_of_isNewStep (steps part there)), part.ordinary (steps part there)⟩
    · intro node member
      obtain ⟨id, found⟩ := List.mem_iff_getElem?.mp member
      obtain ⟨before, there, becomes⟩ := (evolves.becomes tended.numbered).nodes found
      exact (ordinary before (List.mem_of_getElem? there)).becomes becomes
  intro list listIn node member
  obtain ⟨id, _, found⟩ := List.mem_filterMap.mp member
  exact (kept list listIn).2 node (List.mem_of_getElem? found)

/-- A list that may run again and again: it stores to a region, loads from it and may jump by what it
    loads. -/
def looped : List Part :=
  [⟨0, "top",
    [.ofOperation 0 .classical (.classical "STORE" [.address "r", .address "i", .literal (.ofReal 7)]),
      .ofOperation 1 .classical (.classical "MOVE" [.address "u", .literal (.ofReal 5)]),
      .ofOperation 2 .classical (.classical "LOAD" [.address "t", .address "r", .address "i"]),
      .ofOperation 3 .classicalControl (.jumpWhen "top" "t")], [0]⟩]

theorem isNewStep_looped : ∀ part ∈ looped, ∀ node ∈ part.nodes, IsNewStep node := by
  intro part partIn node member
  cases List.mem_singleton.mp partIn
  simp only [List.mem_cons, List.not_mem_nil, or_false] at member
  rcases member with rfl | rfl | rfl | rfl
  · exact ⟨0, .classical, _, rfl, .classical _ _, by simp [Machine.condition?]⟩
  · exact ⟨1, .classical, _, rfl, .classical _ _, by simp [Machine.condition?]⟩
  · exact ⟨2, .classical, _, rfl, .classical _ _, by simp [Machine.condition?]⟩
  · exact ⟨3, .classicalControl, _, rfl, .jumpWhen _ _, fun _ _ => rfl⟩

/-- A loop that declares its memory, and adds up constants that folding knows. -/
def declared : List Part :=
  [⟨0, "top",
    [.ofOperation 0 .classical (.declare "DECLARE r REAL[2]"),
      .ofOperation 1 .classical (.classical "MOVE" [.address "u", .literal (.ofReal 5)]),
      .ofOperation 2 .classical (.classical "ADD" [.address "u", .literal (.ofReal 1)]),
      .ofOperation 3 .classical (.classical "STORE" [.address "r", .address "i", .address "u"]),
      .ofOperation 4 .classical (.classical "LOAD" [.address "t", .address "r", .address "i"]),
      .ofOperation 5 .classicalControl (.jumpWhen "top" "t")], [0]⟩]

theorem isNewStep_declared : ∀ part ∈ declared, ∀ node ∈ part.nodes, IsNewStep node := by
  intro part partIn node member
  cases List.mem_singleton.mp partIn
  simp only [List.mem_cons, List.not_mem_nil, or_false] at member
  rcases member with rfl | rfl | rfl | rfl | rfl | rfl
  · exact ⟨0, .classical, _, rfl, .declare _, by simp [Machine.condition?]⟩
  · exact ⟨1, .classical, _, rfl, .classical _ _, by simp [Machine.condition?]⟩
  · exact ⟨2, .classical, _, rfl, .classical _ _, by simp [Machine.condition?]⟩
  · exact ⟨3, .classical, _, rfl, .classical _ _, by simp [Machine.condition?]⟩
  · exact ⟨4, .classical, _, rfl, .classical _ _, by simp [Machine.condition?]⟩
  · exact ⟨5, .classicalControl, _, rfl, .jumpWhen _ _, fun _ _ => rfl⟩

/-- The loop once constants are known and folded. -/
def folded : Workspace :=
  (Step.constantFolding.perform (Step.constantPropagation.perform (.ofLists (declared.map Part.list) ["t"])).1).1

theorem worked_folded : Worked declared folded :=
  .step .constantFolding (.step .constantPropagation (.new ["t"]))

theorem folded_keeps_results :
    ∃ after found,
      (Workspace.ofLists folded.lists (Sorted.ofList ["t"])).removeDead = (after, .ok found) ∧
      (∀ name ∈ ["t"], ∀ other, InRow name other →
        zeroMachine.run (fun _ => .ofReal 1) (along after.lists [0, 0]) other =
          zeroMachine.run (fun _ => .ofReal 1) (along folded.lists [0, 0]) other) ∧
      zeroMachine.conditions (fun _ => .ofReal 1) (along after.lists [0, 0]) =
        zeroMachine.conditions (fun _ => .ofReal 1) (along folded.lists [0, 0]) :=
  removal_keeps_results (worked_folded.orderly (fun part there => isNew_of_isNewStep (isNewStep_declared part there)))
    (ordinary_of_worked isNewStep_declared worked_folded) ["t"] zeroMachine _
    (.cons_cons ⟨_, rfl, by decide +kernel⟩ (.singleton 0)) rfl (outlive_of_unpicked (by decide +kernel))

/-- Folding has made the constants useless, so the removal takes them away. -/
example : folded.removeDead.1.lists.map InstructionList.texts =
    [["DECLARE r REAL[2]", "STORE r i 6", "LOAD t r i", "JUMP-WHEN @top t"]] := by
  decide +kernel

/-- A store to an element that a load picks, with a write of the whole region in between. -/
def shadowed : List Part :=
  [⟨0, "start",
    [.ofOperation 0 .classical (.classical "STORE" [.address "r", .address "i", .literal (.ofReal 7)]),
      .ofOperation 1 .classical (.classical "MOVE" [.address "r", .literal (.ofReal 5)]),
      .ofOperation 2 .classical (.classical "LOAD" [.address "t", .address "r", .address "i"])], []⟩]

theorem isNewStep_shadowed : ∀ part ∈ shadowed, ∀ node ∈ part.nodes, IsNewStep node := by
  intro part partIn node member
  cases List.mem_singleton.mp partIn
  simp only [List.mem_cons, List.not_mem_nil, or_false] at member
  rcases member with rfl | rfl | rfl
  · exact ⟨0, .classical, _, rfl, .classical _ _, by simp [Machine.condition?]⟩
  · exact ⟨1, .classical, _, rfl, .classical _ _, by simp [Machine.condition?]⟩
  · exact ⟨2, .classical, _, rfl, .classical _ _, by simp [Machine.condition?]⟩

def bitMachine : Machine :=
  { zeroMachine with index := fun value => if value.re == 0 then "0" else "1" }

/-- Without the condition a removal can change what is read out. -/
theorem not_always_kept :
    ¬ ∀ (lists : List InstructionList) (names : List String) (machine : Machine) (cells : Cells) (path : List Nat),
      (∀ list ∈ lists, list.Orderly) → (∀ list ∈ lists, ∀ node ∈ list.running, Ordinary node) →
        Follows lists path → path.head? = some 0 → ∀ name ∈ names, ∀ other, InRow name other →
          machine.run cells (along (Workspace.ofLists lists (Sorted.ofList names)).removeDead.1.lists path) other =
            machine.run cells (along lists path) other := by
  intro always
  have worked : Worked shadowed (.ofLists (shadowed.map Part.list) ["t"]) := .new ["t"]
  have said := always (shadowed.map Part.list) ["t"] bitMachine
    (fun other => if other = "i[0]" then .ofReal 1 else .ofReal 0) [0]
    (worked.orderly (fun part there => isNew_of_isNewStep (isNewStep_shadowed part there)))
    (ordinary_of_worked isNewStep_shadowed worked) (.singleton 0) rfl "t" (List.mem_singleton_self _) (cell "t")
    (inRow_cell "t")
  have wrong := congrArg (fun value : Number => value.re == 7) said
  exact absurd wrong (by decide +kernel)

end TwoLane.Indexed
