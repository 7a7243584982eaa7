import TwoLane.Proofs.Chain.Facts
import TwoLane.Proofs.Constants.Evaluate
import TwoLane.Proofs.Memory.IndexedMachine

/-! # Truth of constants

A value travels along the chain of one name. Between two instructions of the chain nothing writes the cell of the
name, since an instruction that may do so has an implied occurrence of the name and is on the chain itself. So
what is attached is true, unless an instruction reads under one name a cell that it writes under another.
-/

namespace TwoLane.Indexed

variable {index : Number → String} {operation : Operation} {name : String}

/-! ## Facts while propagation goes on -/

/-- What cells hold before each instruction, and behind the last one. -/
abbrev Trace := Nat → Cells

/-- Whether a trace is an execution of the instructions that run in a list. -/
def Executes (index : Number → String) (list : InstructionList) (trace : Trace) : Prop :=
  ∀ {i node}, list.running[i]? = some node → Step index node.operation (trace i) (trace (i + 1))

/-- Facts are attached in front of a position only, and those in front of a limit are true. -/
structure Told (trace : Trace) (limit position : Nat) (list : InstructionList) : Prop where
  holds : ∀ {id node o value}, id < position → id < limit → list.nodes[id]? = some node →
    o ∈ node.memory → o.value = some value → trace (id + 1) (cell o.name) = value
  blank : ∀ {id node o}, position ≤ id → list.nodes[id]? = some node → o ∈ node.memory →
    o.value = none

theorem memory_mem_resources {node : Instruction} {name : String} :
    Resource.memory name ∈ node.resources ↔ name ∈ node.memory.map MemoryOccurrence.name := by
  simp [Instruction.resources]

variable {names : List String} {node : Instruction}

theorem apart_of_off (touches : Instruction.Touches names node.operation.memoryAccesses node.memory)
    (known : name ∈ names) (off : Resource.memory name ∉ node.resources) :
    ∀ written ∈ writtenNames node.operation, Memory.mayOverlap name written = false := by
  intro written member
  obtain ⟨a, there, rfl, _⟩ := mem_writtenNames.mp member
  rw [memory_mem_resources, touches.names] at off
  cases overlap : Memory.mayOverlap name a.name with
  | false => rfl
  | true => exact absurd ⟨known, a, there, overlap⟩ off

theorem isAssignment_of_silent (touches : Instruction.Touches names node.operation.memoryAccesses node.memory)
    (silent : writtenNames node.operation = []) {o : MemoryOccurrence} (member : o ∈ node.memory) :
    o.isAssignment = false := by
  have none : ∀ a ∈ node.operation.memoryAccesses, a.use ≠ .assignment := by
    intro a there writes
    have written : a.name ∈ writtenNames node.operation := mem_writtenNames.mpr ⟨a, there, rfl, writes⟩
    rw [silent] at written
    cases written
  have use : o.use ≠ .assignment := by
    intro writes
    by_cases own : ∃ a ∈ node.operation.memoryAccesses, a.name = o.name
    · obtain ⟨a, there, _, assigns⟩ := (touches.named o member own).mp writes
      exact none a there assigns
    · obtain ⟨a, there, _, assigns⟩ := (touches.implied o member own).mp writes
      exact none a there assigns
  simpa [MemoryOccurrence.isAssignment] using use

theorem reads_or_apart (touches : Instruction.Touches names node.operation.memoryAccesses node.memory)
    {o : MemoryOccurrence} (member : o ∈ node.memory) (reads : o.isAssignment = false) :
    onlyRead node.operation o.name ∨
      ∀ written ∈ writtenNames node.operation, Memory.mayOverlap o.name written = false := by
  have use : o.use ≠ .assignment := by simpa [MemoryOccurrence.isAssignment] using reads
  by_cases own : ∃ a ∈ node.operation.memoryAccesses, a.name = o.name
  · have unwritten : o.name ∉ writtenNames node.operation := by
      rw [mem_writtenNames, ← touches.named o member own]
      exact use
    refine .inl ⟨?_, unwritten⟩
    obtain ⟨a, there, same⟩ := own
    refine List.mem_map.mpr ⟨a, List.mem_filter.mpr ⟨there, ?_⟩, same⟩
    cases written : a.use with
    | usage => rfl
    | assignment => exact absurd (mem_writtenNames.mpr ⟨a, there, same, written⟩) unwritten
  · refine .inr ?_
    intro written isWritten
    obtain ⟨a, there, rfl, writes⟩ := mem_writtenNames.mp isWritten
    cases overlap : Memory.mayOverlap o.name a.name with
    | false => rfl
    | true => exact absurd ((touches.implied o member own).mpr ⟨a, there, overlap, writes⟩) use

variable {list : InstructionList} {trace : Trace} {limit id : Nat}

/-! ## Stages of propagation -/

/-- The list once propagation has visited the instructions in front of a position. -/
def stage (isEntry : Bool) (list : InstructionList) (position : Nat) : InstructionList :=
  (List.range position).foldl (Constants.annotateAt isEntry) list

theorem stage_succ (isEntry : Bool) (list : InstructionList) (position : Nat) :
    stage isEntry list (position + 1) =
      Constants.annotateAt isEntry (stage isEntry list position) position := by
  simp [stage, List.range_succ]

theorem sameButFacts_stage (isEntry : Bool) (list : InstructionList) (position : Nat) :
    InstructionList.SameButFacts list (stage isEntry list position) :=
  InstructionList.sameButFacts_foldl isEntry list _

theorem getElem?_annotateAt_of_ne (isEntry : Bool) (list : InstructionList) {id other : Nat}
    (differ : id ≠ other) :
    (Constants.annotateAt isEntry list id).nodes[other]? = list.nodes[other]? := by
  cases found : list.nodes[id]? with
  | none => simp [Constants.annotateAt, InstructionList.get?, found]
  | some node => rw [InstructionList.getElem?_annotateAt isEntry found, if_neg differ]

theorem stage_settled (isEntry : Bool) (list : InstructionList) {position id : Nat}
    (visited : id < position) (further : Nat) :
    (stage isEntry list (position + further)).nodes[id]? =
      (stage isEntry list position).nodes[id]? := by
  induction further with
  | zero => rfl
  | succ further ih =>
      rw [← Nat.add_assoc, stage_succ, getElem?_annotateAt_of_ne isEntry _ (by omega), ih]

/-! ## Truth at one instruction -/

/-- A list of instructions without qubits that run in the order of their numbers, and an execution of it. -/
structure Setting (index : Number → String) (names : List String) (trace : Trace)
    (list : InstructionList) : Prop where
  chained : list.Chained
  complete : InstructionList.Complete names list
  order : list.order = List.range list.nodes.length
  steps : ∀ {id : Nat} {node : Instruction}, list.nodes[id]? = some node → IsStep node.operation
  runs : ∀ {id : Nat} {node : Instruction}, list.nodes[id]? = some node →
    Step index node.operation (trace id) (trace (id + 1))

theorem Setting.sameButFacts {later : InstructionList} (setting : Setting index names trace list)
    (same : InstructionList.SameButFacts list later) : Setting index names trace later := by
  have back : ∀ {id : Nat} {node : Instruction}, later.nodes[id]? = some node →
      ∃ other, list.nodes[id]? = some other ∧ other.operation = node.operation := by
    intro id node found
    obtain ⟨other, there, eq⟩ := same.symm.getElem? found
    exact ⟨other, there, (congrArg Instruction.operation eq).symm⟩
  exact {
    chained := same.sameShape.chained setting.chained
    complete := same.complete setting.complete
    order := by rw [← same.order, ← same.length, setting.order]
    steps := by
      intro id node found
      obtain ⟨other, there, eq⟩ := back found
      exact eq ▸ setting.steps there
    runs := by
      intro id node found
      obtain ⟨other, there, eq⟩ := back found
      exact eq ▸ setting.runs there }

theorem running_of_range {list : InstructionList} (order : list.order = List.range list.nodes.length) :
    list.running = list.nodes := by
  have all : ∀ nodes : List Instruction,
      (List.range nodes.length).filterMap (fun id => nodes[id]?) = nodes := by
    intro nodes
    induction nodes with
    | nil => rfl
    | cons node rest ih =>
        rw [List.length_cons, List.range_succ_eq_map, List.filterMap_cons, List.filterMap_map]
        exact congrArg (node :: ·) ih
  rw [InstructionList.running, order]
  exact all list.nodes

theorem Setting.running (setting : Setting index names trace list) : list.running = list.nodes :=
  running_of_range setting.order

theorem Setting.running_stage (setting : Setting index names trace list) (isEntry : Bool)
    (position : Nat) : (stage isEntry list position).running = (stage isEntry list position).nodes :=
  (setting.sameButFacts (sameButFacts_stage isEntry list position)).running

/-- Between two neighbours on a chain the cell of the name keeps what it holds. -/
theorem Setting.between (setting : Setting index names trace list) {previous : Nat}
    (inside : id < list.nodes.length) (known : name ∈ names)
    (nearest : Nearest.below? (list.isHolder (.memory name)) id = some previous) :
    trace id (cell name) = trace (previous + 1) (cell name) := by
  obtain ⟨lower, _, between⟩ := Nearest.below?_eq_some.mp nearest
  have kept : ∀ further, previous + 1 + further ≤ id →
      trace (previous + 1 + further) (cell name) = trace (previous + 1) (cell name) := by
    intro further
    induction further with
    | zero => exact fun _ => rfl
    | succ further ih =>
        intro below
        have position : previous + 1 + further < list.nodes.length := by omega
        have found := List.getElem?_eq_getElem position
        have off : Resource.memory name ∉ (list.nodes[previous + 1 + further]).resources := by
          intro member
          have holder : list.isHolder (.memory name) (previous + 1 + further) = true :=
            InstructionList.isHolder_iff.mpr
              ⟨setting.order ▸ List.mem_range.mpr position, _, found, member⟩
          rw [between _ (by omega) (by omega)] at holder
          cases holder
        have apart := apart_of_off (setting.complete found) known off
        have frame := (setting.runs found).frame (not_mayWrite_of_apart apart)
        rw [← ih (by omega), ← frame]
        rfl
  have all := kept (id - (previous + 1)) (by omega)
  rwa [show previous + 1 + (id - (previous + 1)) = id by omega] at all

/-- A value looked up in front of an instruction is true. -/
theorem Setting.memoryBefore (setting : Setting index names trace list)
    (told : Told trace limit id list) (below : id ≤ limit) (found : list.nodes[id]? = some node)
    {value : Number} (known : list.memoryBefore? node name = some value) :
    trace id (cell name) = value := by
  have inside := (List.getElem?_eq_some_iff.mp found).1
  have running : id ∈ list.order := setting.order ▸ List.mem_range.mpr inside
  obtain ⟨previous, before, o, nearest, beforeFound, there, holds⟩ :=
    InstructionList.memoryBefore?_eq_some setting.chained running found known
  have lower := (Nearest.below?_eq_some.mp nearest).1
  have member := List.mem_of_find?_eq_some there
  have named : o.name = name := Instruction.memory?_name there
  have knownName : name ∈ names := by
    have own := List.mem_map_of_mem (f := MemoryOccurrence.name) member
    rw [named] at own
    exact (((setting.complete beforeFound).names name).mp own).1
  rw [setting.between inside knownName nearest, ← named]
  exact told.holds lower (by omega) beforeFound member holds

/-- What is found out about an occurrence is true behind the instruction. -/
theorem Setting.memoryAfter (setting : Setting index names trace list)
    (told : Told trace limit id list) (below : id < limit) (found : list.nodes[id]? = some node)
    {isEntry : Bool} {o : MemoryOccurrence} (member : o ∈ node.memory) {value : Number}
    (known : Constants.memoryAfter? list isEntry node o = some value)
    (quiet : onlyRead node.operation o.name → trace (id + 1) (cell o.name) = trace id (cell o.name)) :
    trace (id + 1) (cell o.name) = value := by
  have runs := setting.runs found
  unfold Constants.memoryAfter? at known
  split at known
  · next assigns =>
    obtain ⟨opcode, operands, operation⟩ := (setting.steps found).writes.resolve_right (fun silent => by
      rw [isAssignment_of_silent (setting.complete found) silent member] at assigns
      cases assigns)
    have refines : Evaluation.Refines (list.operandBefore? node) (read (trace id)) := by
      intro operand value known
      cases operand with
      | address name => exact congrArg some (setting.memoryBefore told below.le found known)
      | literal _ => exact known
      | expression _ _ => cases known
    rw [Constants.written, operation] at known
    have full := Evaluation.valueIn_writes_mono refines known
    refine runs.value operation ?_ full
    rintro rfl
    rw [Evaluation.valueIn_writes_eq_none (fun _ => rfl) (by decide)] at full
    cases full
  · next reads =>
      have kept : trace (id + 1) (cell o.name) = trace id (cell o.name) := by
        rcases reads_or_apart (setting.complete found) member (by simpa using reads) with only | apart
        · exact quiet only
        · exact runs.frame (not_mayWrite_of_apart apart)
      rw [kept]
      exact setting.memoryBefore told below.le found known

/-! ## Truth of all that is attached -/

theorem visited (isEntry : Bool) (list : InstructionList) {id : Nat} (inside : id < list.nodes.length) :
    ∃ node, (stage isEntry list id).nodes[id]? = some node ∧ ∀ later, id < later →
      (stage isEntry list later).nodes[id]? =
        some (Constants.annotate (stage isEntry list id) isEntry node) := by
  obtain ⟨node, found⟩ : ∃ node, (stage isEntry list id).nodes[id]? = some node := by
    refine ⟨_, List.getElem?_eq_getElem ?_⟩
    rwa [← (sameButFacts_stage isEntry list id).length]
  refine ⟨node, found, ?_⟩
  intro later behind
  have settled := stage_settled isEntry list (Nat.lt_succ_self id) (later - (id + 1))
  rw [show id.succ + (later - (id + 1)) = later by omega, stage_succ,
    InstructionList.getElem?_annotateAt isEntry found, if_pos rfl] at settled
  exact settled

/-- Whether in front of a limit the known values of names that an instruction only reads outlast it. -/
def Quiet (trace : Trace) (limit : Nat) (list : InstructionList) : Prop :=
  ∀ (id : Nat) (node : Instruction) (o : MemoryOccurrence) (value : Number), id < limit →
    list.running[id]? = some node → o ∈ node.memory → o.value = some value →
      onlyRead node.operation o.name → trace (id + 1) (cell o.name) = trace id (cell o.name)

theorem Setting.told_stage (setting : Setting index names trace list) {isEntry : Bool}
    (blank : Told trace limit 0 list) (quiet : Quiet trace limit (stage isEntry list list.nodes.length))
    {position : Nat} (inside : position ≤ list.nodes.length) :
    Told trace limit position (stage isEntry list position) := by
  induction position with
  | zero => exact blank
  | succ position ih =>
      have told := ih (by omega)
      have there := setting.sameButFacts (sameButFacts_stage isEntry list position)
      obtain ⟨node, found, later⟩ := visited isEntry list (Nat.lt_of_succ_le inside)
      have here := later (position + 1) (Nat.lt_succ_self position)
      have last := later list.nodes.length (Nat.lt_of_succ_le inside)
      rw [← setting.running_stage] at last
      refine ⟨?_, ?_⟩
      · intro id other o value before below found' member known
        rcases Nat.lt_succ_iff_lt_or_eq.mp before with earlier | rfl
        · rw [stage_succ, getElem?_annotateAt_of_ne isEntry _ (by omega)] at found'
          exact told.holds earlier below found' member known
        · cases here.symm.trans found'
          obtain ⟨before, beforeIn, rfl⟩ := List.mem_map.mp member
          have quietHere := fun only => quiet _ _ _ _ below last member known only
          rcases Option.or_eq_some_iff.mp known with new | ⟨_, old⟩
          · exact there.memoryAfter told below found beforeIn new quietHere
          · rw [told.blank (Nat.le_refl _) found beforeIn] at old
            cases old
      · intro id other o behind found' member
        rw [stage_succ, getElem?_annotateAt_of_ne isEntry _ (by omega)] at found'
        exact told.blank (by omega) found' member

theorem isAssignment_of_onlyRead
    (touches : Instruction.Touches names node.operation.memoryAccesses node.memory)
    {o : MemoryOccurrence} (member : o ∈ node.memory) (only : onlyRead node.operation o.name) :
    o.isAssignment = false := by
  obtain ⟨a, there, same⟩ := List.mem_map.mp only.1
  have own := touches.named o member ⟨a, (List.mem_filter.mp there).1, same⟩
  have unwritten := only.2
  rw [mem_writtenNames, ← own] at unwritten
  simpa [MemoryOccurrence.isAssignment] using unwritten

/-- Whether the values attached in front of a limit are true. -/
def Truthful (trace : Trace) (limit : Nat) (list : InstructionList) : Prop :=
  ∀ (id : Nat) (node : Instruction) (o : MemoryOccurrence) (value : Number), id < limit →
    list.running[id]? = some node → o ∈ node.memory → o.value = some value →
      trace (id + 1) (cell o.name) = value

theorem Setting.quiet_of_truthful (setting : Setting index names trace list) {isEntry : Bool}
    (blank : ∀ limit, Told trace limit 0 list)
    (truthful : Truthful trace limit (stage isEntry list list.nodes.length)) :
    Quiet trace limit (stage isEntry list list.nodes.length) := by
  induction limit with
  | zero => exact fun _ _ _ _ below => absurd below (Nat.not_lt_zero _)
  | succ limit ih =>
      have quiet := ih (fun id node o value below => truthful id node o value (Nat.lt_succ_of_lt below))
      intro id node o value below found member known only
      rcases Nat.lt_succ_iff_lt_or_eq.mp below with earlier | rfl
      · exact quiet id node o value earlier found member known only
      · rw [truthful id node o value below found member known]
        rw [setting.running_stage] at found
        have inside : id < list.nodes.length := by
          rw [(sameButFacts_stage isEntry list list.nodes.length).length]
          exact (List.getElem?_eq_some_iff.mp found).1
        have told := setting.told_stage (blank id) quiet inside.le
        have there := setting.sameButFacts (sameButFacts_stage isEntry list id)
        obtain ⟨old, oldFound, later⟩ := visited isEntry list inside
        cases (later _ inside).symm.trans found
        obtain ⟨before, beforeIn, rfl⟩ := List.mem_map.mp member
        have reads : before.isAssignment = false :=
          isAssignment_of_onlyRead (there.complete oldFound) beforeIn only
        rcases Option.or_eq_some_iff.mp known with new | ⟨_, kept⟩
        · rw [Constants.memoryAfter?, if_neg (by simp [reads])] at new
          exact (there.memoryBefore told (Nat.le_refl id) oldFound new).symm
        · rw [told.blank (Nat.le_refl _) oldFound beforeIn] at kept
          cases kept

theorem Setting.truthful_iff (setting : Setting index names trace list) {isEntry : Bool}
    (blank : ∀ limit, Told trace limit 0 list) :
    Truthful trace limit (stage isEntry list list.nodes.length) ↔
      Quiet trace limit (stage isEntry list list.nodes.length) := by
  constructor
  · exact setting.quiet_of_truthful blank
  · intro quiet id node o value below found member known
    have told := setting.told_stage (blank limit) quiet (Nat.le_refl _)
    rw [setting.running_stage] at found
    have inside : id < list.nodes.length := by
      rw [(sameButFacts_stage isEntry list list.nodes.length).length]
      exact (List.getElem?_eq_some_iff.mp found).1
    exact told.holds inside below found member known

theorem blank_ofNodes {block : Nat} {title : String} {nodes : List Instruction}
    (new : ∀ node ∈ nodes, node.IsNew) (trace : Trace) (limit : Nat) :
    Told trace limit 0 (.ofNodes block title nodes) where
  holds := fun below => absurd below (Nat.not_lt_zero _)
  blank := fun {_ _ o} _ found member => InstructionList.values_ofNodes new found o member

/-- Whether instructions are new ones for operations that touch no qubit. -/
def NewSteps (nodes : List Instruction) : Prop :=
  ∀ node ∈ nodes, ∃ line category operation, IsStep operation ∧ node = .ofOperation line category operation

theorem NewSteps.isNew {nodes : List Instruction} (new : NewSteps nodes) : ∀ node ∈ nodes, node.IsNew := by
  intro node member
  obtain ⟨line, category, operation, _, rfl⟩ := new node member
  exact Instruction.isNew_ofOperation line category operation

theorem NewSteps.isStep {block : Nat} {title : String} {nodes : List Instruction} (new : NewSteps nodes)
    (found : (InstructionList.ofNodes block title nodes).nodes[id]? = some node) : IsStep node.operation := by
  obtain ⟨old, there, same⟩ := InstructionList.operation_ofNodes found
  obtain ⟨line, category, operation, step, rfl⟩ := new old there
  exact same ▸ step

theorem setting_ofNodes {block : Nat} {title : String} {nodes : List Instruction}
    (new : NewSteps nodes) (runs : Executes index (.ofNodes block title nodes) trace) :
    Setting index (InstructionList.memoryNames nodes) trace (.ofNodes block title nodes) := by
  have order : (InstructionList.ofNodes block title nodes).order =
      List.range (InstructionList.ofNodes block title nodes).nodes.length := by
    rw [InstructionList.length_ofNodes]
    rfl
  exact {
    chained := InstructionList.chained_ofNodes new.isNew
    complete := InstructionList.complete_ofNodes new.isNew
    order := order
    steps := new.isStep
    runs := by
      intro id node found
      rw [← running_of_range order] at found
      exact runs found }

/-- A value attached by propagation holds in every execution exactly if the known values of names that an
    instruction only reads outlast it; and they do if no instruction writes under one name a cell that
    it reads under another. -/
theorem attached_values_hold_iff {block position : Nat} {title : String} {nodes : List Instruction}
    (new : NewSteps nodes) (runs : Executes index (.ofNodes block title nodes) trace)
    (limit : Nat) :
    (Truthful trace limit (Constants.propagateList position (.ofNodes block title nodes)).1 ↔
      Quiet trace limit (Constants.propagateList position (.ofNodes block title nodes)).1) ∧
    ((∀ node ∈ nodes, SeparateReads node.operation) →
      Truthful trace limit (Constants.propagateList position (.ofNodes block title nodes)).1) := by
  have setting := setting_ofNodes new runs
  have result : (Constants.propagateList position (.ofNodes block title nodes)).1 =
      stage (position == 0) (.ofNodes block title nodes)
        (InstructionList.ofNodes block title nodes).nodes.length := by
    rw [Constants.propagateList, InstructionList.annotateAll_fst, setting.order]
    rfl
  have exactly : Truthful trace limit (stage (position == 0) _ _) ↔ _ :=
    setting.truthful_iff (blank_ofNodes new.isNew trace)
  rw [result]
  refine ⟨exactly, ?_⟩
  intro separate
  rw [exactly]
  intro id node o value _ found _ _ only
  have same := sameButFacts_stage (position == 0) (.ofNodes block title nodes)
    (InstructionList.ofNodes block title nodes).nodes.length
  have last := setting.sameButFacts same
  rw [last.running] at found
  obtain ⟨before, there, eq⟩ := same.symm.getElem? found
  obtain ⟨old, oldIn, operation⟩ := InstructionList.operation_ofNodes there
  have sameOperation : before.operation = node.operation := (congrArg Instruction.operation eq).symm
  have apart := separate old oldIn
  rw [operation, sameOperation] at apart
  exact (last.runs found).frame (not_mayWrite (apart o.name only))

/-! ## Two lists, run by a machine -/

theorem executes_run (machine : Machine) (cells : Cells) {list : InstructionList}
    (steps : ∀ node ∈ list.running, IsStep node.operation) :
    Executes machine.index list
      (fun i => machine.run cells ((list.running.map Instruction.operation).take i)) := by
  intro i node found
  have operation : (list.running.map Instruction.operation)[i]? = some node.operation := by
    rw [List.getElem?_map, found]
    rfl
  simp only [Machine.run_take_succ machine cells operation]
  exact machine.step_exec_of_isStep _ (steps node (List.mem_of_getElem? found))

theorem steps_ofNodes {block : Nat} {title : String} {nodes : List Instruction} (new : NewSteps nodes) :
    ∀ node ∈ (InstructionList.ofNodes block title nodes).running, IsStep node.operation := by
  intro node member
  obtain ⟨id, _, found⟩ := List.mem_filterMap.mp member
  exact new.isStep found

/-- A constant that is copied, in memory that is declared. -/
def copied : List Instruction :=
  [.ofOperation 0 .classical (.declare "DECLARE x BIT[1]"),
    .ofOperation 1 .classical (.classical "MOVE" [.address "x", .literal (.ofReal 1)]),
    .ofOperation 2 .classical (.classical "MOVE" [.address "y", .address "x"])]

theorem newSteps_copied : NewSteps copied := by
  intro node member
  simp only [copied, List.mem_cons, List.not_mem_nil, or_false] at member
  rcases member with rfl | rfl | rfl
  · exact ⟨0, .classical, _, .declare _, rfl⟩
  · exact ⟨1, .classical, _, .classical _ _, rfl⟩
  · exact ⟨2, .classical, _, .classical _ _, rfl⟩

theorem separateReads_copied : ∀ node ∈ copied, SeparateReads node.operation := by
  intro node member
  simp only [copied, List.mem_cons, List.not_mem_nil, or_false] at member
  rcases member with rfl | rfl | rfl
  · exact fun name only => absurd (show name ∈ ([] : List String) from only.1) List.not_mem_nil
  · exact fun name only => absurd (show name ∈ ([] : List String) from only.1) List.not_mem_nil
  · intro name only written isWritten
    have first : name = "x" := List.mem_singleton.mp only.1
    have second : written = "y" := List.mem_singleton.mp isWritten
    subst first second
    exact show cell "x" ≠ cell "y" by decide

theorem copied_values_hold :
    Truthful (fun i => zeroMachine.run (fun _ => .ofReal 0)
        (((InstructionList.ofNodes 0 "" copied).running.map Instruction.operation).take i)) 3
      (Constants.propagateList 0 (.ofNodes 0 "" copied)).1 :=
  (attached_values_hold_iff newSteps_copied
    (executes_run zeroMachine _ (steps_ofNodes newSteps_copied)) 3).2 separateReads_copied

/-- A constant in a region, read under the name of the region by an instruction that writes its first
    element. -/
def doubled : List Instruction :=
  [.ofOperation 0 .classical (.classical "MOVE" [.address "r", .literal (.ofReal 1)]),
    .ofOperation 1 .classical (.classical "ADD" [.address "r[0]", .address "r"])]

theorem newSteps_doubled : NewSteps doubled := by
  intro node member
  rcases List.mem_cons.mp member with rfl | member
  · exact ⟨0, .classical, _, .classical _ _, rfl⟩
  · exact ⟨1, .classical, _, .classical _ _, List.mem_singleton.mp member⟩

/-- Without the condition an attached value can be wrong, also where all operations are classical ones. -/
theorem not_always_truthful :
    ¬ ∀ (nodes : List Instruction) (index : Number → String) (trace : Trace) (limit : Nat), NewSteps nodes →
      (∀ node ∈ nodes, ∃ opcode operands, node.operation = .classical opcode operands) →
        Executes index (.ofNodes 0 "" nodes) trace →
          Truthful trace limit (Constants.propagateList 0 (.ofNodes 0 "" nodes)).1 := by
  intro always
  have classical : ∀ node ∈ doubled, ∃ opcode operands, node.operation = .classical opcode operands := by
    intro node member
    rcases List.mem_cons.mp member with rfl | member
    · exact ⟨_, _, rfl⟩
    · cases List.mem_singleton.mp member
      exact ⟨_, _, rfl⟩
  have truthful := always doubled _ _ 2 newSteps_doubled classical
    (executes_run zeroMachine (fun _ => .ofReal 0) (steps_ofNodes newSteps_doubled))
  have attached : ((Constants.propagateList 0 (.ofNodes 0 "" doubled)).1.running[1]?).bind
      (fun node => (node.memory? "r").bind MemoryOccurrence.value) = some (.ofReal 1) := rfl
  obtain ⟨node, found, rest⟩ := Option.bind_eq_some_iff.mp attached
  obtain ⟨o, there, known⟩ := Option.bind_eq_some_iff.mp rest
  have said := truthful 1 node o _ (by decide) found (List.mem_of_find?_eq_some there) known
  rw [Instruction.memory?_name there] at said
  have really : ((zeroMachine.run (fun _ => .ofReal 0)
      (((InstructionList.ofNodes 0 "" doubled).running.map Instruction.operation).take 2)
        (cell "r")).re == 2) = true := by
    decide +kernel
  have wrong := congrArg (fun value : Number => value.re == 2) said
  exact absurd (really.symm.trans wrong) (by decide)

end TwoLane.Indexed
