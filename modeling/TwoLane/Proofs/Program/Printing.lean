import TwoLane.Proofs.Execution.Becoming
import TwoLane.Proofs.Program.Results
import TwoLane.Proofs.Tree.Drafts

/-! # The printed program is the analysed one

The text of an instruction comes from its line of the source, from its operation under the bindings of a circuit body,
or from the operation that folding has given it. In a program that was assembled with its source these agree: a line
shows the operation of its instruction as long as nothing is bound, and every change of an operation writes the text
anew.
-/

namespace TwoLane

open Text (IsTidy)

namespace Instruction

variable {node node' : Instruction}

def Printed (node : Instruction) : Prop :=
  node.text = node.operation.text

theorem Printed.congr (printed : node.Printed) (text : node'.text = node.text)
    (operation : node'.operation = node.operation) : node'.Printed := by
  rw [Printed, text, operation]
  exact printed

theorem printed_withoutLinks : node.withoutLinks.Printed ↔ node.Printed :=
  Iff.rfl

theorem printed_setOperation (node : Instruction) (operation : Operation) : (node.setOperation operation).Printed :=
  rfl

end Instruction

/-! ## Changes of lists -/

namespace InstructionList

open Execution (foldAll_fst foldClassical_cases noteWritten_eq Evolves)

variable {list after : InstructionList} {id index : Nat} {node : Instruction} {change : Instruction → Instruction}

/-- Whether all instructions of a list, those that do not run any more included, have the texts of their operations. -/
def AllPrinted (list : InstructionList) : Prop :=
  ∀ node ∈ list.nodes, node.Printed

theorem AllPrinted.of_links (printed : list.AllPrinted) (same : SameButLinks list after) : after.AllPrinted := by
  intro node' member
  obtain ⟨id, found⟩ := List.getElem?_of_mem member
  obtain ⟨node, there, equal⟩ := same.symm.getElem? found
  rw [← Instruction.printed_withoutLinks, equal]
  exact printed node (List.mem_of_getElem? there)

/-- A change of one instruction after which its text is that of its operation. -/
theorem AllPrinted.modify (printed : list.AllPrinted) (id : Nat)
    (kept : ∀ node, list.nodes[id]? = some node → node.Printed → (change node).Printed) :
    (list.modify id change).AllPrinted := by
  intro node' member
  obtain ⟨i, found⟩ := List.getElem?_of_mem member
  rw [InstructionList.modify, List.getElem?_modify] at found
  obtain ⟨node, there, rfl⟩ := Option.map_eq_some_iff.mp found
  have before := printed node (List.mem_of_getElem? there)
  split
  · next here => exact kept node (here ▸ there) before
  · exact before

theorem AllPrinted.noted (printed : list.AllPrinted) (id : Nat) (text : ∀ node, (change node).text = node.text)
    (operation : ∀ node, (change node).operation = node.operation) : (list.modify id change).AllPrinted :=
  printed.modify id (fun node _ before => before.congr (text node) (operation node))

theorem AllPrinted.detachAll (printed : list.AllPrinted) (id : Nat) (names : List String) :
    (Folding.detachAll list id names).AllPrinted := by
  refine List.foldlRecOn names _ printed (fun list printed name _ => ?_)
  have unlinked := printed.of_links (sameButLinks_unlink list id (.memory name))
  exact unlinked.noted id (fun _ => rfl) (fun _ => rfl)

/-! ## Folding -/

theorem AllPrinted.foldClassical (printed : list.AllPrinted) (node : Instruction) :
    (Folding.foldClassical list node).1.AllPrinted := by
  have noted : ∀ written, (list.modify node.id (Folding.noteWritten written)).AllPrinted := by
    intro written
    refine printed.noted node.id (fun other => ?_) (fun other => ?_)
    all_goals rw [noteWritten_eq]
  rcases foldClassical_cases list node with same | ⟨written, same⟩ | ⟨_, _, written, _, _, _, _, _, same⟩
  · rwa [same]
  · rw [same]
    exact noted written
  · rw [same]
    exact ((noted written).modify node.id (fun other _ _ => other.printed_setOperation _)).detachAll node.id _

theorem AllPrinted.foldGate (printed : list.AllPrinted) (node : Instruction) (name : String) (params : List Operand)
    (qubits : List String) : (Folding.foldGate list node name params qubits).1.AllPrinted := by
  unfold Folding.foldGate
  dsimp only
  split
  · have renamed := printed.modify node.id (fun other _ _ =>
      other.printed_setOperation (.gate name (params.map (Folding.substitute list node)) qubits))
    refine (renamed.detachAll node.id _).noted node.id (fun other => ?_) (fun other => ?_)
    all_goals split <;> rfl
  · exact printed

theorem AllPrinted.foldMeasurement (printed : list.AllPrinted) (isEntry : Bool) (node : Instruction)
    (qubit target : String) : (Folding.foldMeasurement list isEntry node qubit target).1.AllPrinted := by
  unfold Folding.foldMeasurement
  dsimp only
  split
  · exact printed
  · next outcome _ =>
    have moved := printed.modify node.id (fun other _ _ =>
      show (Execution.moved other target (.ofBool outcome)).Printed from
        (other.printed_setOperation (.classical "MOVE" [.address target, .literal (.ofBool outcome)])).congr rfl rfl)
    exact (moved.of_links (sameButLinks_unlink _ node.id (.qubit qubit))).noted node.id (fun _ => rfl) (fun _ => rfl)

theorem AllPrinted.foldStep (isEntry : Bool) (list : InstructionList) (id : Nat) (printed : list.AllPrinted) :
    (Execution.foldStep isEntry list id).AllPrinted := by
  rw [Execution.foldStep]
  split
  · next node _ =>
    cases FoldRule.ofCategory node.category with
    | classical => exact printed.foldClassical node
    | quantum => exact printed.noted node.id (fun _ => rfl) (fun _ => rfl)
    | hybrid =>
        rw [Folding.foldNode, Folding.foldHybrid]
        split
        · exact printed.foldGate node _ _ _
        · exact printed.foldMeasurement isEntry node _ _
        · exact printed
    | keep => exact printed
  · exact printed

/-! ## Steps -/

theorem AllPrinted.annotated (printed : list.AllPrinted) (index : Nat) :
    (Constants.propagateList index list).1.AllPrinted := by
  rw [Constants.propagateList, annotateAll_fst]
  refine List.foldlRecOn list.order _ printed (fun list printed id _ => ?_)
  rw [Constants.annotateAt]
  split
  · next node found =>
    refine printed.modify id (fun other there before => ?_)
    cases found.symm.trans there
    exact before
  · exact printed

/-- Whatever a step makes of a list, the texts stay those of the operations. -/
theorem AllPrinted.evolves (printed : list.AllPrinted) {map : HybridMap} (evolves : Evolves map index list after) :
    after.AllPrinted := by
  cases evolves with
  | stays => exact printed
  | marked judged =>
      exact List.foldlRecOn judged _ printed (fun _ printed liveness _ =>
        printed.noted liveness.id (fun _ => rfl) (fun _ => rfl))
  | annotated => exact printed.annotated index
  | folded =>
      rw [Folding.foldList, foldAll_fst]
      exact List.foldlRecOn list.order _ printed (fun list printed id _ => printed.foldStep (index == 0) list id)
  | removed _ removal =>
      refine AllPrinted.of_links ?_ (sameButLinks_of_removeAll removal)
      exact printed
  | reordered _ installed =>
      obtain ⟨rfl, _, _⟩ := of_reorder_eq_ok installed
      exact printed

theorem allPrinted_dispatchAll {steps : List Step} {state final : Workspace} {reports : List StepReport}
    (printed : ∀ list ∈ state.lists, list.AllPrinted)
    (dispatched : Workspace.dispatchAll steps state = .ok (final, reports)) :
    ∀ list ∈ final.lists, list.AllPrinted := by
  refine Execution.dispatchAll_induction (motive := fun state => ∀ list ∈ state.lists, list.AllPrinted) ?_ printed
    dispatched
  intro state next step report printed first after member
  obtain ⟨list, there, _, _, evolves⟩ := (Execution.allEvolve_dispatch first).exists_mem member
  exact (printed list there).evolves evolves

theorem allPrinted_ofNodes {block : Nat} {title : String} {nodes : List Instruction}
    (new : ∀ node ∈ nodes, node.Printed) : (ofNodes block title nodes).AllPrinted := by
  intro node member
  obtain ⟨id, found⟩ := List.getElem?_of_mem member
  obtain ⟨first, there, same⟩ := withoutLinks_ofNodes found
  rw [← Instruction.printed_withoutLinks, same]
  exact new first (List.mem_of_getElem? there)

end InstructionList

namespace HybridProgram

open InstructionList (AllPrinted allPrinted_ofNodes allPrinted_dispatchAll)

variable {root : Tree} {text : String} {source readout : List String} {program : HybridProgram} {bindings : Bindings}
  {line : Nat} {node : Instruction}

/-! ## New instructions -/

/-- Whether the lines of a source show the instructions of a tree, each one on its line. -/
def ShowsInstructions (root : Tree) (source : List String) : Prop :=
  ∀ node ∈ Classification.instructions root, ∃ content, source[node.line]? = some content ∧
    Text.trim content.toList = (Operation.ofTree node []).text.toList

/-- The source text of an instruction is that of its operation; where qubits are renamed it is not looked at. -/
theorem printed_instruction? (shows : ShowsInstructions root source)
    (found : instruction? (Classification.ofTree root) source bindings line = some node) : node.Printed := by
  obtain ⟨classified, there, same⟩ := Option.map_eq_some_iff.mp found
  obtain ⟨member, rfl, _⟩ := Classification.get?_ofTree there
  obtain ⟨content, shown, trimmed⟩ := shows classified.node member
  dsimp only at same
  split at same
  · next text read =>
    -- nothing is bound here, so the operation is the one that the line was written for
    subst same
    simp only [sourceText?, shown, trimmed] at read
    split at read
    · cases read
    · exact ((Option.some.inj read).symm.trans String.ofList_toList)
  · subst same
    rfl

theorem allPrinted_ofTree (shows : ShowsInstructions root (Text.lines text))
    (built : ofTree root text readout = .ok program) : ∀ list ∈ program.lists, list.AllPrinted := by
  obtain ⟨graph, _, rest⟩ := Result.of_bind_eq_ok built
  obtain ⟨ranked, _, rest⟩ := Result.of_bind_eq_ok rest
  cases rest
  intro list member
  obtain ⟨id, _, rfl⟩ := List.mem_map.mp member
  have new : ∀ node ∈ newNodes ranked (Classification.ofTree root) (Text.lines text) id, node.Printed := by
    intro node member
    obtain ⟨line, _, found⟩ := List.mem_filterMap.mp member
    exact printed_instruction? shows found
  exact show (InstructionList.ofNodes id (ranked.graph.block id).name _).AllPrinted from allPrinted_ofNodes new

/-! ## Assembled programs -/

/-- Whatever steps are carried out on a program that was assembled from tidy texts, with its own source, the text of
    every instruction in every list is that of its operation. -/
theorem texts_follow_operations {statements : List Statement}
    (plain : ∀ text ∈ Statement.textsOfAll statements, IsTidy text)
    (built : ofTree (Draft.ofStatements statements).tree (Draft.ofStatements statements).source readout = .ok program)
    (steps : List Step) : ∃ final reports, Workspace.dispatchAll steps (.ofProgram program) = .ok (final, reports) ∧
      ∀ list ∈ final.lists, ∀ node ∈ list.nodes, node.text = node.operation.text := by
  obtain ⟨_, _, _, analysed⟩ := exists_analysed built
  obtain ⟨final, reports, dispatched, _⟩ := Execution.dispatchAll_refines analysed.sound steps
  have new := allPrinted_ofTree (fun _ member => Draft.exists_line plain member) built
  exact ⟨final, reports, dispatched, allPrinted_dispatchAll new dispatched⟩

/-- A circuit in a circuit that is called in a loop, and operands with more digits than their numbers need. -/
def nestedStatements : List Statement :=
  [.defCircuit "OUTER" ["a", "b"]
      [.defCircuit "INNER" ["c"] [.classical "move" ["t", "1.50"], .gate "RX" ["t"] ["c"], .measure "c" (some "m[0]")],
        .gate "INNER" [] ["b"], .gate "CNOT" [] ["a", "b"]],
    .label "again", .gate "OUTER" [] ["0", "1"], .classical "sub" ["s", "2.0"], .jumpWhen "again" "m[0]"]

/-- Folding writes the number into both copies of the inner body, and every other text is as it was assembled. -/
theorem nested_texts_follow_operations : ∃ program final reports,
    ofTree (Draft.ofStatements nestedStatements).tree (Draft.ofStatements nestedStatements).source ["m"] = .ok program ∧
    Workspace.dispatchAll [.constantPropagation, .constantFolding] (.ofProgram program) = .ok (final, reports) ∧
      final.lists.map InstructionList.texts = [["LABEL @again"], [], ["MOVE t 1.5", "RX(1.5) 1", "MEASURE 1 m[0]"],
        ["CNOT 0 1"], ["SUB s 2", "JUMP-WHEN @again m[0]"], ["LABEL @again"], [],
        ["MOVE t 1.5", "RX(1.5) 1", "MEASURE 1 m[0]"], ["CNOT 0 1"], ["SUB s 2", "JUMP-WHEN @again m[0]"], []] ∧
      ∀ list ∈ final.lists, ∀ node ∈ list.nodes, node.text = node.operation.text := by
  have plain : ∀ text ∈ Statement.textsOfAll nestedStatements, IsTidy text := by decide
  have computed : ((ofTree (Draft.ofStatements nestedStatements).tree (Draft.ofStatements nestedStatements).source
      ["m"]).toOption.bind fun program =>
        (Workspace.dispatchAll [.constantPropagation, .constantFolding] (.ofProgram program)).toOption.map fun result =>
          result.1.lists.map InstructionList.texts) =
      some [["LABEL @again"], [], ["MOVE t 1.5", "RX(1.5) 1", "MEASURE 1 m[0]"],
        ["CNOT 0 1"], ["SUB s 2", "JUMP-WHEN @again m[0]"], ["LABEL @again"], [],
        ["MOVE t 1.5", "RX(1.5) 1", "MEASURE 1 m[0]"], ["CNOT 0 1"], ["SUB s 2", "JUMP-WHEN @again m[0]"], []] := by
    decide +kernel
  obtain ⟨program, isBuilt, rest⟩ := Option.bind_eq_some_iff.mp computed
  obtain ⟨⟨final, reports⟩, runs, texts⟩ := Option.map_eq_some_iff.mp rest
  have built := Result.of_toOption_eq_some isBuilt
  obtain ⟨final', reports', dispatched, follow⟩ :=
    texts_follow_operations plain built [.constantPropagation, .constantFolding]
  cases (Result.of_toOption_eq_some runs).symm.trans dispatched
  exact ⟨program, final, reports, built, dispatched, texts, follow⟩

end HybridProgram

end TwoLane
