import TwoLane.Proofs.Execution.Precedence
import TwoLane.Proofs.Program.Results
import TwoLane.Tree.Draft

/-! # Declarations

A declaration names no reference that it touches, so it is on no chain and waits for nothing. Whatever steps run, it
stays in front of a control instruction, of what comes behind one, and of classical work that no hybrid instruction of
its run needs. A hybrid instruction of its own run may overtake it.
-/

namespace TwoLane

namespace Execution

variable {state next final : Workspace} {list after : InstructionList} {i : Nat}

/-! ## Runs -/

/-- What is left of a list stood in it, and what was steady in it still is. -/
structure Settles (list after : InstructionList) : Prop where
  order : after.order ⊆ list.order
  steady : ∀ {a b : Nat}, Steady list a b → a ∈ after.order → b ∈ after.order → Steady after a b

theorem Settles.trans {last : InstructionList} (first : Settles list after) (second : Settles after last) :
    Settles list last where
  order := List.Subset.trans second.order first.order
  steady := fun steady aRuns bRuns =>
    second.steady (first.steady steady (second.order aRuns) (second.order bRuns)) aRuns bRuns

theorem dispatch_settles (sound : Sound state) {step : Step} {report : StepReport}
    (dispatched : step.dispatch state = .ok (next, report)) (found : state.lists[i]? = some list) :
    ∃ after, next.lists[i]? = some after ∧ Settles list after := by
  obtain ⟨_, each⟩ := allEvolve_dispatch dispatched
  obtain ⟨after, there, evolves⟩ := each found
  refine ⟨after, there, ?_, fun steady aRuns bRuns => ?_⟩
  · exact (evolves.becomes (sound.regular list (List.mem_of_getElem? found)).ordered.chained.numbered).order
  · exact steady.evolves (sound.regular list (List.mem_of_getElem? found))
      ((sound.dispatch dispatched).regular after (List.mem_of_getElem? there)) (sound.holds found) evolves aRuns bRuns

theorem dispatchAll_settles (sound : Sound state) {steps : List Step} {reports : List StepReport}
    (dispatched : Workspace.dispatchAll steps state = .ok (final, reports)) (found : state.lists[i]? = some list) :
    ∃ after, final.lists[i]? = some after ∧ Settles list after := by
  refine (dispatchAll_induction
    (motive := fun here => Sound here ∧ ∃ after, here.lists[i]? = some after ∧ Settles list after) ?_
    ⟨sound, list, found, List.Subset.refl _, fun steady _ _ => steady⟩ dispatched).2
  rintro here next step report ⟨sound, middle, there, settles⟩ first
  obtain ⟨after, behind, settles'⟩ := dispatch_settles sound first there
  exact ⟨sound.dispatch first, after, behind, settles.trans settles'⟩

end Execution

/-! ## Declarations of a program -/

theorem classical_of_declare {node : Tree} {category : Category} {bindings : Bindings} {declaration : String}
    (known : Category.ofTree? node = some category) (declares : Operation.ofTree node bindings = .declare declaration) :
    category = .classical := by
  unfold Category.ofTree? at known
  unfold Operation.ofTree at declares
  cases kind : node.kind with
  | none =>
      rw [kind] at declares
      cases declares
  | some rule =>
      rw [kind] at known declares
      cases rule <;> first
        | (cases declares; done)
        | (cases known; rfl)

namespace InstructionList

/-- What the instruction of a number declares, if it is a declaration. -/
def declaration? (list : InstructionList) (id : Nat) : Option String :=
  (list.nodes[id]?).bind (fun node =>
    match node.operation with
    | .declare declaration => some declaration
    | _ => none)

theorem of_declaration? {list : InstructionList} {id : Nat} {declaration : String}
    (declares : list.declaration? id = some declaration) :
    ∃ node, list.nodes[id]? = some node ∧ node.operation = .declare declaration := by
  obtain ⟨node, found, text⟩ := Option.bind_eq_some_iff.mp declares
  refine ⟨node, found, ?_⟩
  split at text
  · next operation =>
    cases text
    exact operation
  · cases text

theorem resources_of_declare {block id : Nat} {title declaration : String} {nodes : List Instruction}
    {node : Instruction} (new : ∀ node ∈ nodes, node.IsNew)
    (found : (ofNodes block title nodes).nodes[id]? = some node) (declares : node.operation = .declare declaration) :
    node.resources = [] := by
  refine List.eq_nil_iff_forall_not_mem.mpr (fun resource member => ?_)
  cases resource with
  | memory name =>
      have named : name ∈ node.memory.map MemoryOccurrence.name := by simpa [Instruction.resources] using member
      obtain ⟨_, access, accessed, _⟩ := ((complete_ofNodes new found).names name).mp named
      rw [declares] at accessed
      cases accessed
  | qubit name =>
      obtain ⟨access, touched, _⟩ := (Execution.qubit_mem_ofNodes new found).mp member
      rw [declares] at touched
      cases touched

end InstructionList

namespace HybridProgram

open Execution InstructionList Schedule

variable {root : Tree} {text : String} {readout : List String} {program : HybridProgram} {ranked : RankedGraph}
  {lines : Classification} {source : List String} {list : InstructionList} {id : Nat} {declaration : String}

theorem Analysed.idle_declaration (analysed : Analysed program ranked lines source) (member : list ∈ program.lists)
    (declares : list.declaration? id = some declaration) :
    ∃ node, list.nodes[id]? = some node ∧ node.category = .classical ∧ node.resources = [] := by
  obtain ⟨block, _, rfl⟩ := analysed.exists_listOf member
  obtain ⟨node, found, operation⟩ := of_declaration? declares
  have found' : (ofNodes block (ranked.graph.block block).name (newNodes ranked lines source block)).nodes[id]? =
      some node := found
  obtain ⟨new, there, _, category, same⟩ := new_listOf found
  obtain ⟨line, _, read⟩ := List.mem_filterMap.mp (List.mem_of_getElem? there)
  obtain ⟨classified, _, known, rfl⟩ := instruction?_eq_some read
  refine ⟨node, found, category.trans ?_, ?_⟩
  · exact classical_of_declare (analysed.categories known) (same.symm.trans operation)
  · exact resources_of_declare isNew_newNodes found' operation

/-- Every sequence of steps leaves a declaration in front of what comes behind it if a control instruction parts the
    two, or if the other one is classical and no hybrid instruction of its run needs it. -/
theorem steps_keep_declarations (built : ofTree root text readout = .ok program) (names : List String) :
    ∃ report final, (Workspace.ofProgram program).run names = .ok (report, final) ∧
      final.lists.length = program.lists.length ∧
      ∀ (i : Nat) (list after : InstructionList), program.lists[i]? = some list → final.lists[i]? = some after →
        ∀ a ∈ after.order, ∀ b ∈ after.order, (list.declaration? a).isSome = true →
          list.order.idxOf a < list.order.idxOf b →
            (Parted list a b ∨ categoryOf list b = .classical ∧ Unneeded list b) →
              after.order.idxOf a < after.order.idxOf b := by
  obtain ⟨ranked, lines, source, analysed⟩ := exists_analysed built
  obtain ⟨report, final, runs, _, refines⟩ := run_refines analysed.sound names
  refine ⟨report, final, runs, flow_length refines.flow, ?_⟩
  intro i list after found found' a aRuns b bRuns declares before settled
  obtain ⟨⟨last, reports⟩, dispatched, rest⟩ := Result.of_bind_eq_ok runs
  obtain ⟨_, _, same⟩ := Result.of_bind_eq_ok rest
  cases same
  obtain ⟨after', there, settles⟩ := dispatchAll_settles analysed.sound dispatched found
  cases found'.symm.trans there
  obtain ⟨declaration, declares⟩ := Option.isSome_iff_exists.mp declares
  have steady : Steady list a b :=
    ⟨analysed.idle_declaration (List.mem_of_getElem? found) declares, before, settled⟩
  exact (settles.steady steady aRuns bRuns).before

/-- The tree of a program that declares a region, sets one of its bits and measures into the other one. -/
def measuringTree : Tree :=
  (Draft.ofStatements [.declare "ro" "BIT[2]", .classical "MOVE" ["ro[1]", "1"], .measure "0" (some "ro[0]")]).tree

/-- The measurement overtakes the declaration, the assignment does not. -/
theorem measuring_keeps_declaration : ∃ program report final list after,
    ofTree measuringTree "" ["ro[0]"] = .ok program ∧
    (Workspace.ofProgram program).run ["QuantumJIT"] = .ok (report, final) ∧
      program.lists[0]? = some list ∧ final.lists[0]? = some after ∧ list.declaration? 0 = some "DECLARE ro BIT[2]" ∧
      list.order = [0, 1, 2] ∧ after.order = [2, 0, 1] ∧ after.order.idxOf 0 < after.order.idxOf 1 := by
  have computed : ((ofTree measuringTree "" ["ro[0]"]).toOption.bind fun program =>
      ((Workspace.ofProgram program).run ["QuantumJIT"]).toOption.bind fun result =>
        program.lists[0]?.bind fun list => result.2.lists[0]?.map fun after =>
          (list.declaration? 0, list.order, after.order,
            decide (categoryOf list 1 = .classical ∧ Unneeded list 1))) =
      some (some "DECLARE ro BIT[2]", [0, 1, 2], [2, 0, 1], true) := by
    decide +kernel
  obtain ⟨program, built, rest⟩ := Option.bind_eq_some_iff.mp computed
  obtain ⟨⟨report, final⟩, runs, rest⟩ := Option.bind_eq_some_iff.mp rest
  obtain ⟨list, found, rest⟩ := Option.bind_eq_some_iff.mp rest
  obtain ⟨after, found', same⟩ := Option.map_eq_some_iff.mp rest
  simp only [Prod.mk.injEq, decide_eq_true_eq] at same
  obtain ⟨declares, order, order', settled⟩ := same
  have built := Result.of_toOption_eq_some built
  have runs := Result.of_toOption_eq_some runs
  obtain ⟨report', final', runs', _, keeps⟩ := steps_keep_declarations built ["QuantumJIT"]
  cases runs.symm.trans runs'
  refine ⟨program, report, final, list, after, built, runs, found, found', declares, order, order', ?_⟩
  exact keeps 0 list after found found' 0 (by rw [order']; decide) 1 (by rw [order']; decide) (by rw [declares]; rfl)
    (by rw [order]; decide) (.inr settled)

/-- Whether an instruction names a region or one of its elements. -/
def uses (list : InstructionList) (id : Nat) (region : String) : Bool :=
  ((list.nodes[id]?).map (fun node =>
    node.operation.memoryAccesses.any (fun access => Memory.region access.name == region))).getD false

/-- Without the condition a declaration can fall behind a use of the region that it declares. -/
theorem declarations_may_fall_behind :
    ¬ ∀ (statements : List Statement) (readout names : List String) (program : HybridProgram) (report : RunReport)
      (final : Workspace), ofTree (Draft.ofStatements statements).tree (Draft.ofStatements statements).source readout =
          .ok program → (Workspace.ofProgram program).run names = .ok (report, final) →
        ∀ (i : Nat) (list after : InstructionList), program.lists[i]? = some list → final.lists[i]? = some after →
          ∀ (region type : String) (a : Nat), list.declaration? a = some ("DECLARE " ++ region ++ " " ++ type) →
            (∀ b ∈ list.order, uses list b region = true → list.order.idxOf a < list.order.idxOf b) → a ∈ after.order →
              ∀ b ∈ after.order, uses list b region = true → after.order.idxOf a < after.order.idxOf b := by
  intro always
  have computed : ((ofTree (Draft.ofStatements [.declare "ro" "BIT[1]", .measure "0" (some "ro[0]")]).tree
      (Draft.ofStatements [.declare "ro" "BIT[1]", .measure "0" (some "ro[0]")]).source ["ro[0]"]).toOption.bind
        fun program => ((Workspace.ofProgram program).run ["QuantumJIT"]).toOption.bind fun result =>
          program.lists[0]?.bind fun list => result.2.lists[0]?.map fun after =>
            (list.declaration? 0, list.order, after.order, uses list 0 "ro", uses list 1 "ro")) =
      some (some ("DECLARE " ++ "ro" ++ " " ++ "BIT[1]"), [0, 1], [1, 0], false, true) := by
    decide +kernel
  obtain ⟨program, built, rest⟩ := Option.bind_eq_some_iff.mp computed
  obtain ⟨⟨report, final⟩, runs, rest⟩ := Option.bind_eq_some_iff.mp rest
  obtain ⟨list, found, rest⟩ := Option.bind_eq_some_iff.mp rest
  obtain ⟨after, found', same⟩ := Option.map_eq_some_iff.mp rest
  simp only [Prod.mk.injEq] at same
  obtain ⟨declares, order, order', first, second⟩ := same
  have said := always _ _ _ program report final (Result.of_toOption_eq_some built) (Result.of_toOption_eq_some runs) 0
    list after found found' "ro" "BIT[1]" 0 declares (by
      rw [order]
      intro b member used
      rcases List.mem_cons.mp member with rfl | member
      · exact absurd (first.symm.trans used) (by decide)
      · rw [List.mem_singleton.mp member]
        decide) (by rw [order']; decide) 1 (by rw [order']; decide) second
  rw [order'] at said
  exact absurd said (by decide)

end HybridProgram

end TwoLane
