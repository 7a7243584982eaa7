import TwoLane.Proofs.Execution.Folding.Outcome

/-! # Folding once is enough

Folding a grounded list keeps it grounded. Where all is noted nothing changes in front of any instruction, so behind a
pass each instruction is settled in the outlook that it was folded in, and a second pass leaves the whole list.
-/

namespace TwoLane.Execution

open InstructionList (Rewrite)

variable {whole : Prop} {isEntry : Bool} {list after : InstructionList} {id : Nat} {node node' : Instruction}
  {outlook : Outlook}

/-! ## Folding one instruction -/

/-- Whether a list that comes of folding an instruction differs only in that one, and in what folding may do to it. -/
def Folds (whole : Prop) (isEntry : Bool) (list : InstructionList) (id : Nat) (node : Instruction)
    (after : InstructionList) : Prop :=
  ∃ node', Rewrite list after id node' ∧ Folded whole (list.outlook isEntry id) node node'

section One

variable (ordered : Ordered list) (running : id ∈ list.order) (found : list.nodes[id]? = some node)

include ordered running found

theorem foldClassical_fst (isEntry : Bool) {opcode : String} {operands : List Operand}
    (operation : node.operation = .classical opcode operands) :
    (Folding.foldClassical list node).1 =
      if (list.outlook isEntry id).reduced node.operation != node.operation then
        Folding.detachAll
          ((list.modify id (Folding.noteWritten ((list.outlook isEntry id).written node.operation))).modify id
            (fun n => n.setOperation ((list.outlook isEntry id).reduced node.operation))) id
          (Folding.unnamed node (Folding.operandsOf ((list.outlook isEntry id).reduced node.operation)))
      else list.modify id (Folding.noteWritten ((list.outlook isEntry id).written node.operation)) := by
  unfold Folding.foldClassical
  split
  · next opcode' operands' operation' =>
    cases operation.symm.trans operation'
    dsimp only
    rw [InstructionList.simplify_eq ordered running found isEntry operation,
      InstructionList.writes_eq ordered running found isEntry operation, ordered.chained.numbered found]
    split <;> rfl
  · next other => exact absurd operation (other opcode operands)

theorem params_eq (isEntry : Bool) {gate : String} {params : List Operand} {qubits : List String}
    (operation : node.operation = .gate gate params qubits) :
    params.map (Folding.substitute list node) = params.map (list.outlook isEntry id).substitute := by
  refine List.map_congr_left (fun operand member => ?_)
  refine InstructionList.substitute_eq ordered running found isEntry (fun name named => ?_)
  refine (ordered.covers running found).touches _ ?_
  rw [operation]
  exact memory_mem_touched_gate.mpr (List.mem_flatMap.mpr ⟨operand, member, named⟩)

omit running in
theorem folds_refl (founded : Founded whole (list.outlook isEntry id) node) (fits : Fits node)
    (settled : Settled (list.outlook isEntry id) node) : Folds whole isEntry list id node list :=
  ⟨node, .refl ordered.chained found, folded_refl founded fits settled⟩

theorem foldClassical_folds (founded : Founded whole (list.outlook isEntry id) node) (fits : Fits node)
    (rule : FoldRule.ofCategory node.category = .classical) :
    Folds whole isEntry list id node (Folding.foldClassical list node).1 := by
  cases operation : node.operation with
  | classical opcode operands =>
      have shape := shape_noteWritten ((list.outlook isEntry id).written node.operation) node
      have first := Rewrite.first ordered.chained found shape
      have resources : (Folding.noteWritten ((list.outlook isEntry id).written node.operation) node).resources =
          node.resources := by
        rw [← Instruction.resources_shape, shape, Instruction.resources_shape]
      refine ⟨_, ?_, folded_classical founded fits (ordered.covers running found) (ordered.chained.distinct found)
        operation⟩
      rw [foldClassical_fst ordered running found isEntry operation]
      split
      · exact rewrite_renewed first running found ordered.chained resources _ _
      · exact first
  | _ =>
      unfold Folding.foldClassical
      rw [operation]
      exact folds_refl ordered found founded fits
        (settled_of_unfolded (by simp [operation]) (by simp [rule]) (by simp [rule]))

theorem foldQuantum_folds (founded : Founded whole (list.outlook isEntry id) node) (fits : Fits node)
    (rule : FoldRule.ofCategory node.category = .quantum) :
    Folds whole isEntry list id node (Folding.foldQuantum list isEntry node).1 := by
  have shape : Instruction.shape { node with qubits := node.qubits.map (Folding.followQubit list isEntry node) } =
      node.shape := by
    simp [Instruction.shape, Folding.followQubit, Function.comp_def]
  have first : Rewrite list
      (list.modify id (fun n => { n with qubits := node.qubits.map (Folding.followQubit list isEntry node) })) id
      { node with qubits := node.qubits.map (Folding.followQubit list isEntry node) } :=
    .first ordered.chained found shape
  have folded : (Folding.foldQuantum list isEntry node).1 =
      list.modify id (fun n => { n with qubits := node.qubits.map (Folding.followQubit list isEntry node) }) := by
    rw [Folding.foldQuantum, ordered.chained.numbered found]
  exact ⟨_, folded ▸ first, folded_quantum ordered running found founded fits rule⟩

theorem foldGate_folds (founded : Founded whole (list.outlook isEntry id) node) (fits : Fits node) {gate : String}
    {params : List Operand} {qubits : List String} (operation : node.operation = .gate gate params qubits) :
    Folds whole isEntry list id node (Folding.foldGate list node gate params qubits).1 := by
  have start := Rewrite.refl ordered.chained found
  refine ⟨_, ?_, folded_gate founded fits operation⟩
  rw [← params_eq ordered running found isEntry operation]
  unfold Folding.foldGate
  dsimp only
  rw [ordered.chained.numbered found]
  split
  · exact (rewrite_renewed start running found ordered.chained rfl _ _).modify withoutLinks_settled
      (fun n => (settled_spec n).1)
  · exact start

theorem beforeMeasurement_eq (founded : Founded whole (list.outlook isEntry id) node) {qubit target : String}
    (operation : node.operation = .measure qubit (some target)) :
    ((node.qubit? qubit).bind QubitOccurrence.before).or (list.qubitBefore? isEntry node qubit) =
      (list.outlook isEntry id).qubit qubit := by
  have covers := ordered.covers running found
  rw [InstructionList.qubitBefore?_eq ordered.chained running found (covers.measured_mem operation) isEntry,
    measured_eq founded covers operation]

theorem foldMeasurement_folds (founded : Founded whole (list.outlook isEntry id) node) (fits : Fits node)
    {qubit target : String} (operation : node.operation = .measure qubit (some target)) :
    Folds whole isEntry list id node (Folding.foldMeasurement list isEntry node qubit target).1 := by
  have covers := ordered.covers running found
  unfold Folding.foldMeasurement
  dsimp only
  rw [beforeMeasurement_eq ordered running found founded operation, ordered.chained.numbered found]
  cases certain : ((list.outlook isEntry id).qubit qubit).bind QubitState.outcome? with
  | none =>
      exact folds_refl ordered found founded fits (settled_measurement operation certain)
  | some outcome =>
      have first : Rewrite list (list.modify id (fun n => moved n target (.ofBool outcome))) id
          (moved node target (.ofBool outcome)) :=
        .first ordered.chained found (shape_moved node target _)
      have measured := (resources_moved node target (.ofBool outcome)).symm ▸ covers.measured_mem operation
      exact ⟨_, first.dropped running measured,
        folded_measurement founded fits covers (ordered.chained.distinct found) operation certain⟩

theorem foldNode_folds (founded : Founded whole (list.outlook isEntry id) node) (fits : Fits node) :
    Folds whole isEntry list id node (Folding.foldNode (.ofCategory node.category) list isEntry node).1 := by
  cases rule : FoldRule.ofCategory node.category with
  | classical => exact foldClassical_folds ordered running found founded fits rule
  | quantum => exact foldQuantum_folds ordered running found founded fits rule
  | hybrid =>
      rw [Folding.foldNode, Folding.foldHybrid]
      cases operation : node.operation with
      | gate gate params qubits => exact foldGate_folds ordered running found founded fits operation
      | measure qubit target =>
          cases target with
          | none =>
              exact folds_refl ordered found founded fits
                (settled_of_unfolded (by simp [rule]) (by simp [operation]) (by simp [operation]))
          | some target => exact foldMeasurement_folds ordered running found founded fits operation
      | _ =>
          exact folds_refl ordered found founded fits
            (settled_of_unfolded (by simp [rule]) (by simp [operation]) (by simp [operation]))
  | keep =>
      exact folds_refl ordered found founded fits
        (settled_of_unfolded (by simp [rule]) (by simp [rule]) (by simp [rule]))

/-- Where all is noted a classical instruction notes nothing new. -/
theorem noteWritten_eq_self (founded : Founded True (list.outlook isEntry id) node) {opcode : String}
    {operands : List Operand} (operation : node.operation = .classical opcode operands) :
    Folding.noteWritten ((list.outlook isEntry id).written node.operation) node = node := by
  have same : node.memory.map (note ((list.outlook isEntry id).written node.operation)) = node.memory := by
    refine (List.map_congr_left (fun o member => ?_)).trans (List.map_id _)
    obtain ⟨name, use, links, _⟩ := note_spec ((list.outlook isEntry id).written node.operation) o
    have value : (note ((list.outlook isEntry id).written node.operation) o).value = o.value := by
      rcases note_either (ordered.covers running found) (ordered.chained.distinct found) operation member with
        same | same
      · exact same
      · exact same.trans (founded.memory o member).eq.symm
    cases noted : note ((list.outlook isEntry id).written node.operation) o with
    | mk name' use' value' links' =>
        rw [noted] at name use links value
        cases name
        cases use
        cases links
        cases value
        rfl
  rw [noteWritten_eq, same]

/-- Where all is noted no state of a qubit becomes known. -/
theorem followQubits_eq_self (founded : Founded True (list.outlook isEntry id) node) :
    node.qubits.map (Folding.followQubit list isEntry node) = node.qubits := by
  refine (List.map_congr_left (fun o member => ?_)).trans (List.map_id _)
  have looked := InstructionList.qubitBefore?_of_mem ordered running found isEntry member
  have before : o.before.or ((list.outlook isEntry id).qubit o.name) = o.before := by
    cases known : (list.outlook isEntry id).qubit o.name with
    | none => exact Option.or_none
    | some state =>
        rw [founded.reset trivial o member state known]
        rfl
  have after : o.after.or ((list.outlook isEntry id).state node.operation o) = o.after :=
    (founded.after o member).noted_or.trans (founded.after o member).eq.symm
  rw [Folding.followQubit, looked, follow_eq founded member, before, after]
  rfl

/-- Folding leaves a settled instruction of which all is noted. -/
theorem foldNode_of_settled (founded : Founded True (list.outlook isEntry id) node)
    (settled : Settled (list.outlook isEntry id) node) :
    (Folding.foldNode (.ofCategory node.category) list isEntry node).1 = list := by
  have number := ordered.chained.numbered found
  have covers := ordered.covers running found
  cases rule : FoldRule.ofCategory node.category with
  | classical =>
      rw [Folding.foldNode]
      cases operation : node.operation with
      | classical opcode operands =>
          have noted : list.modify id (Folding.noteWritten ((list.outlook isEntry id).written node.operation)) = list :=
            modify_eq_self found (noteWritten_eq_self ordered running found founded operation)
          rw [foldClassical_fst ordered running found isEntry operation, noted]
          split
          · next changed =>
            obtain ⟨same, text, unnamed⟩ := settled.classical rule opcode operands operation changed
            have set : node.setOperation node.operation = node := by rw [Instruction.setOperation, ← text]
            rw [← same, unnamed, modify_eq_self found set]
            rfl
          · rfl
      | _ =>
          unfold Folding.foldClassical
          rw [operation]
  | quantum =>
      rw [Folding.foldNode, Folding.foldQuantum, number]
      refine modify_eq_self found ?_
      rw [followQubits_eq_self ordered running found founded]
  | hybrid =>
      rw [Folding.foldNode, Folding.foldHybrid]
      cases operation : node.operation with
      | gate gate params qubits =>
          dsimp only
          unfold Folding.foldGate
          dsimp only
          rw [params_eq ordered running found isEntry operation,
            substituted_eq_false.mpr (settled.gate rule gate params qubits operation)]
          rfl
      | measure qubit target =>
          cases target with
          | none => rfl
          | some target =>
              dsimp only
              unfold Folding.foldMeasurement
              dsimp only
              rw [beforeMeasurement_eq ordered running found founded operation,
                settled.measure rule qubit target operation]
      | _ => rfl
  | keep => rfl

end One

/-! ## Folding lists -/

/-- Whether the occurrences of each running instruction fit its operation. -/
def AllFit (list : InstructionList) : Prop :=
  ∀ id ∈ list.order, ∀ node, list.nodes[id]? = some node → Fits node

theorem Fits.of_links (fits : Fits node) (same : node'.withoutLinks = node.withoutLinks) : Fits node' := by
  refine fits.congr (Instruction.operation_congr same) ?_
  have memory := congrArg (fun n : Instruction => n.memory.map (fun o => (o.name, o.use))) same
  simpa only [Instruction.withoutLinks, List.map_map, Function.comp_def] using memory

theorem Settled.of_links (settled : Settled outlook node) (same : node'.withoutLinks = node.withoutLinks) :
    Settled outlook node' := by
  have view := fun {β : Type} (f : Instruction → β) => congrArg f same
  have operation : node'.operation = node.operation := view Instruction.operation
  have category : node'.category = node.category := view Instruction.category
  have text : node'.text = node.text := view Instruction.text
  have unnamed : ∀ operands, Folding.unnamed node' operands = Folding.unnamed node operands := by
    have names := view (fun n => n.memory.map MemoryOccurrence.name)
    simp only [Instruction.withoutLinks, List.map_map, Function.comp_def] at names
    intro operands
    rw [Folding.unnamed, Folding.unnamed, show node'.memory.map MemoryOccurrence.name = _ from names]
  refine ⟨?_, ?_, ?_⟩
  · rw [operation, category, text, unnamed]
    exact settled.classical
  · rw [operation, category]
    exact settled.gate
  · rw [operation, category]
    exact settled.measure

/-- What a pass of folding has made of a list once it has visited some instructions. -/
structure Passing (whole : Prop) (isEntry : Bool) (done : List Nat) (list : InstructionList) : Prop where
  ordered : Ordered list
  grounded : Grounded whole isEntry list
  fit : AllFit list
  settled : whole → ∀ id ∈ done, ∀ node, list.nodes[id]? = some node → Settled (list.outlook isEntry id) node

theorem Passing.foldStep {done : List Nat} (passing : Passing whole isEntry done list) (running : id ∈ list.order) :
    Passing whole isEntry (id :: done) (foldStep isEntry list id) ∧ (foldStep isEntry list id).order = list.order := by
  have ordered := passing.ordered
  obtain ⟨node, found⟩ := ordered.chained.exists_node running
  obtain ⟨node', rewrite, folded⟩ := foldNode_folds ordered running found (passing.grounded id running node found)
    (passing.fit id running node found)
  obtain ⟨other, rewrite', replaces, _⟩ := foldNode_spec ordered running found isEntry
  have covers : Covers list node' :=
    replaces.covers.of_links (Option.some.inj (rewrite.here.symm.trans rewrite'.here))
  have outlook : whole → ∀ j, (list.outlook isEntry j) =
      (Folding.foldNode (.ofCategory node.category) list isEntry node).1.outlook isEntry j := by
    intro w j
    have backed := backedAt_rewrite rewrite running found ordered.chained folded.leaves j
    have memory := fun name => Backed.full (backed (.memory name)) w
    have qubit := fun q => Backed.full (backed (.qubit q)) w
    exact Outlook.ext (funext memory) (funext qubit)
  rw [Execution.foldStep, show list.get? id = some node from found]
  dsimp only
  refine ⟨⟨ordered.rewrite rewrite running found folded.leaves.resources covers,
    passing.grounded.rewritten rewrite running found ordered covers folded.leaves folded.founded, ?_, ?_⟩, rewrite.order⟩
  · intro j runs there thereFound
    rw [rewrite.order] at runs
    rcases rewrite.getElem? thereFound with ⟨_, same⟩ | ⟨_, before, beforeFound, same⟩
    · exact folded.fits.of_links same
    · exact (passing.fit j runs before beforeFound).of_links same
  · intro w j visited there thereFound
    rw [← outlook w j]
    rcases rewrite.getElem? thereFound with ⟨rfl, same⟩ | ⟨differ, before, beforeFound, same⟩
    · exact (folded.settled w).of_links same
    · exact (passing.settled w j ((List.mem_cons.mp visited).resolve_left differ) before beforeFound).of_links same

theorem Passing.foldl {done ids : List Nat} (passing : Passing whole isEntry done list) (running : ids ⊆ list.order) :
    Passing whole isEntry (ids.reverse ++ done) (ids.foldl (Execution.foldStep isEntry) list) ∧
      (ids.foldl (Execution.foldStep isEntry) list).order = list.order := by
  induction ids generalizing list done with
  | nil => exact ⟨passing, rfl⟩
  | cons id rest ih =>
      obtain ⟨first, order⟩ := passing.foldStep (running List.mem_cons_self)
      obtain ⟨further, order'⟩ := ih first (order ▸ fun _ member => running (List.mem_cons_of_mem _ member))
      rw [List.reverse_cons, List.append_assoc]
      exact ⟨further, order'.trans order⟩

/-- A pass of folding keeps what is founded, and where all is noted it settles each instruction. -/
theorem passing_foldList {index : Nat} (ordered : Ordered list) (grounded : Grounded whole (index == 0) list)
    (fit : AllFit list) :
    Passing whole (index == 0) (Folding.foldList index list).1.order (Folding.foldList index list).1 := by
  have start : Passing whole (index == 0) [] list :=
    ⟨ordered, grounded, fit, fun _ _ visited => (List.not_mem_nil visited).elim⟩
  obtain ⟨passed, order⟩ := start.foldl (List.Subset.refl list.order)
  rw [Folding.foldList, foldAll_fst]
  refine ⟨passed.ordered, passed.grounded, passed.fit, fun w id visited => passed.settled w id ?_⟩
  rw [order] at visited
  simpa using visited

/-- A settled list of which all is noted is left by folding, and no text changes. -/
theorem Passing.foldList_eq {index : Nat} (passing : Passing True (index == 0) list.order list) :
    Folding.foldList index list = (list, []) := by
  have each : ∀ ids : List Nat, ids ⊆ list.order → Folding.foldAll (index == 0) list ids = (list, []) := by
    intro ids
    induction ids with
    | nil => exact fun _ => rfl
    | cons id rest ih =>
        intro running
        have here := running List.mem_cons_self
        obtain ⟨node, found⟩ := passing.ordered.chained.exists_node here
        have stays := foldNode_of_settled passing.ordered here found (passing.grounded id here node found)
          (passing.settled trivial id here node found)
        rw [Folding.foldAll, show list.get? id = some node from found]
        dsimp only
        rw [stays, ih (fun _ member => running (List.mem_cons_of_mem _ member))]
        simp [show list.get? id = some node from found, Folding.textChange]
  rw [Folding.foldList, each list.order (List.Subset.refl _)]
  rfl

end TwoLane.Execution
