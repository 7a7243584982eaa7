import TwoLane.Proofs.Block.Bound
import TwoLane.Proofs.Block.Levels
import TwoLane.Proofs.Execution.Steps
import TwoLane.Proofs.Program.Flow

/-! # Optimized programs

The lists of an analysed program are regular and nothing is known in them yet, so every sequence of steps runs on them to
its end. It keeps the results of the program, and the order of instructions that conflict.
-/

namespace TwoLane.HybridProgram

open Execution InstructionList

variable {root : Tree} {text : String} {readout : List String} {program : HybridProgram}

/-! ## Lists of analysed programs -/

/-- Whether a program has the lists of ranked blocks that read each line once. -/
structure Analysed (program : HybridProgram) (ranked : RankedGraph) (lines : Classification) (source : List String) :
    Prop where
  lists : program.lists = listsOf ranked lines source
  categories : ∀ {line classified}, Table.get? line lines = some classified →
    Category.ofTree? classified.node = some classified.category
  distinct : ∀ id ∈ ranked.order, (ranked.graph.block id).lines.Nodup
  numbered : ranked.Numbered
  readout : Sorted.Increasing program.readout

theorem exists_analysed (built : ofTree root text readout = .ok program) :
    ∃ ranked lines source, Analysed program ranked lines source := by
  obtain ⟨graph, level, rest⟩ := Result.of_bind_eq_ok built
  obtain ⟨ranked, ranks, rest⟩ := Result.of_bind_eq_ok rest
  cases rest
  obtain ⟨fresh, exits⟩ := BlockGraph.fresh_ofLevel level
  obtain ⟨other, ranks', unfolds, numbered⟩ :=
    BlockGraph.rank_unfolds fresh (Nat.lt_trans (Nat.lt_succ_self 0) exits) (Classification.ofTree root)
  cases ranks.symm.trans ranks'
  refine ⟨ranked, Classification.ofTree root, Text.lines text, rfl, Classification.category_of_get?, ?_, numbered,
    Sorted.increasing_ofList readout⟩
  intro id member
  rw [unfolds.lines id (numbered.isSome_rank.mpr member)]
  exact BlockGraph.nodup_lines (Level.wellFormed_ofTree root) level _

variable {ranked : RankedGraph} {lines : Classification} {source : List String} {list : InstructionList} {i : Nat}

theorem Analysed.exists_listOf (analysed : Analysed program ranked lines source) (member : list ∈ program.lists) :
    ∃ id ∈ ranked.order, listOf ranked lines source id = list := by
  rw [analysed.lists] at member
  exact List.mem_map.mp member

theorem Analysed.sound (analysed : Analysed program ranked lines source) : Sound (Workspace.ofProgram program) where
  regular := by
    intro list member
    obtain ⟨id, ranks, rfl⟩ := analysed.exists_listOf member
    exact regular_listOf analysed.categories (analysed.distinct id ranks)
  readout := analysed.readout
  current := .inl rfl

theorem Analysed.told (analysed : Analysed program ranked lines source) {σ : Type} (device : Device σ)
    (memory : String → Number) : AllTold device memory program.lists := by
  intro visit i list state _ found
  obtain ⟨id, _, rfl⟩ := analysed.exists_listOf (List.mem_of_getElem? found)
  exact show Told device visit (ofNodes id (ranked.graph.block id).name (newNodes ranked lines source id)) state from
    told_ofNodes isNew_newNodes

theorem Analysed.leads_inside (analysed : Analysed program ranked lines source) (member : list ∈ program.lists) :
    ∀ j ∈ list.successors, j < program.lists.length := by
  obtain ⟨id, _, rfl⟩ := analysed.exists_listOf member
  intro j leads
  obtain ⟨target, _, isRank⟩ := List.mem_filterMap.mp (show j ∈ ranked.flowRanks id from leads)
  rw [analysed.lists, listsOf, List.length_map]
  exact (List.getElem?_eq_some_iff.mp (analysed.numbered.getElem?_of_rank isRank)).1

theorem Analysed.guarded (analysed : Analysed program ranked lines source) (member : list ∈ program.lists) :
    ∃ names, Guarded names list := by
  obtain ⟨id, _, rfl⟩ := analysed.exists_listOf member
  have guarded : Guarded (memoryNames (newNodes ranked lines source id))
      (ofNodes id (ranked.graph.block id).name (newNodes ranked lines source id)) := guarded_ofNodes isNew_newNodes
  exact ⟨_, guarded⟩

theorem Analysed.order (analysed : Analysed program ranked lines source) (member : list ∈ program.lists) :
    list.order = List.range list.nodes.length := by
  obtain ⟨id, _, rfl⟩ := analysed.exists_listOf member
  change (ofNodes id (ranked.graph.block id).name (newNodes ranked lines source id)).order =
    List.range (ofNodes id (ranked.graph.block id).name (newNodes ranked lines source id)).nodes.length
  rw [order_ofNodes, length_ofNodes]

/-! ## A program with a loop -/

/-- The tree of a program that flips a qubit again and again until it is measured as zero. -/
def flippingTree : Tree :=
  ⟨0, Rule.program.text, "", [
    ⟨0, Rule.defLabel.text, "", [.leaf 0 .label "@loop"]⟩,
    ⟨1, Rule.gate.text, "", [.leaf 1 .name "X", .leaf 1 .qubit "0"]⟩,
    ⟨2, Rule.classicalUnary.text, "", [.leaf 2 .name "MOVE", .leaf 2 .addr "s", .leaf 2 .number "2"]⟩,
    ⟨3, Rule.classicalUnary.text, "", [.leaf 3 .name "MOVE", .leaf 3 .addr "r", .leaf 3 .addr "s"]⟩,
    ⟨4, Rule.measure.text, "", [.leaf 4 .qubit "0", .leaf 4 .addr "c"]⟩,
    ⟨5, Rule.jumpWhen.text, "", [.leaf 5 .label "@loop", .leaf 5 .addr "c"]⟩]⟩

/-- Fold what is known, put quantum work off and remove what is not needed. -/
def lateSteps : List String :=
  ["ConstantPropagation", "ConstantFolding", "LastPossibleQuantumExecution", "DeadCodeElimination"]

def accessedNames (list : InstructionList) : List (List String) :=
  list.nodes.map (fun node => node.operation.memoryAccesses.map MemoryAccess.name)

/-- The first passage of the loop loses its measurement and turns around a gate and an assignment, the others move the
    measurement in front of an assignment. -/
theorem flipping_runs : ∃ program report final, ofTree flippingTree "" ["r"] = .ok program ∧
    (Workspace.ofProgram program).run lateSteps = .ok (report, final) ∧
      program.readout = ["r"] ∧ program.lists.map InstructionList.successors = [[1, 2], [1, 2], []] ∧
      program.lists.map InstructionList.order = [[0, 1, 2, 3, 4, 5], [0, 1, 2, 3, 4, 5], []] ∧
      final.lists.map InstructionList.order = [[0, 3, 4, 1, 5], [0, 1, 4, 3, 5], []] ∧
      final.lists.map accessedNames = [[[], [], ["s"], ["r"], ["c"], ["c"]], [[], [], ["s"], ["r"], ["c"], ["c"]], []] := by
  have computed : ((ofTree flippingTree "" ["r"]).toOption.bind fun program =>
      ((Workspace.ofProgram program).run lateSteps).toOption.map fun result =>
        (program.readout, result.2.lists.map accessedNames, [program.lists.map InstructionList.successors,
          program.lists.map InstructionList.order, result.2.lists.map InstructionList.order])) =
      some (["r"], [[[], [], ["s"], ["r"], ["c"], ["c"]], [[], [], ["s"], ["r"], ["c"], ["c"]], []],
        [[[1, 2], [1, 2], []], [[0, 1, 2, 3, 4, 5], [0, 1, 2, 3, 4, 5], []],
          [[0, 3, 4, 1, 5], [0, 1, 4, 3, 5], []]]) := by
    decide +kernel
  obtain ⟨program, built, rest⟩ := Option.bind_eq_some_iff.mp computed
  obtain ⟨⟨report, final⟩, runs, same⟩ := Option.map_eq_some_iff.mp rest
  simp only [Prod.mk.injEq, List.cons.injEq, and_true] at same
  obtain ⟨observed, accessed, flow, before, orders⟩ := same
  exact ⟨program, report, final, Result.of_toOption_eq_some built, Result.of_toOption_eq_some runs, observed, flow,
    before, orders, accessed⟩

/-! ## Results -/

/-- Every sequence of steps runs to its end on a program. It keeps the flow of its lists, and on every device and for
    every memory what is read out behind each path and what decides the jumps on it. -/
theorem steps_keep_results (built : ofTree root text readout = .ok program) (names : List String) :
    ∃ report final, (Workspace.ofProgram program).run names = .ok (report, final) ∧
      final.lists.map InstructionList.successors = program.lists.map InstructionList.successors ∧
      (∀ list ∈ program.lists, ∀ j ∈ list.successors, j < program.lists.length) ∧
      ∀ (σ : Type) (device : Device σ) (memory : String → Number),
        SameResults device memory program.readout program.lists final.lists := by
  obtain ⟨ranked, lines, source, analysed⟩ := exists_analysed built
  obtain ⟨report, final, runs, _, refines⟩ := run_refines analysed.sound names
  refine ⟨report, final, runs, refines.flow, fun list member => analysed.leads_inside member, ?_⟩
  intro σ device memory
  exact (refines.results (analysed.told device memory)).2

/-- Around the loop the same is read out before and after. -/
theorem flipping_keeps_results : ∃ program report final, ofTree flippingTree "" ["r"] = .ok program ∧
    (Workspace.ofProgram program).run lateSteps = .ok (report, final) ∧
      final.lists.map InstructionList.order = [[0, 3, 4, 1, 5], [0, 1, 4, 3, 5], []] ∧
      ∀ (σ : Type) (device : Device σ) (memory : String → Number),
        passed device final.lists 0 (start device memory) [0, 1, 1, 2] =
          passed device program.lists 0 (start device memory) [0, 1, 1, 2] ∧
        (runPath device final.lists 0 (start device memory) [0, 1, 1, 2]).memory "r" =
          (runPath device program.lists 0 (start device memory) [0, 1, 1, 2]).memory "r" := by
  obtain ⟨program, report, final, built, runs, readout, flow, _, orders, _⟩ := flipping_runs
  obtain ⟨report', final', runs', _, _, keeps⟩ := steps_keep_results built lateSteps
  cases runs.symm.trans runs'
  have leads : ∀ {i j : Nat} {next}, ([[1, 2], [1, 2], []] : List (List Nat))[i]? = some next → j ∈ next →
      ∃ list, program.lists[i]? = some list ∧ j ∈ list.successors := by
    intro i j next found member
    rw [← flow, List.getElem?_map] at found
    obtain ⟨list, there, rfl⟩ := Option.map_eq_some_iff.mp found
    exact ⟨list, there, member⟩
  have length : program.lists.length = 3 := by
    simpa using congrArg List.length flow
  have around : IsPath program.lists [0, 1, 1, 2] := by
    refine ⟨rfl, ?_, by decide, ?_⟩
    · refine .cons_cons (leads rfl ?_) (.cons_cons (leads rfl ?_) (.cons_cons (leads rfl ?_) (.singleton 2))) <;> decide
    · rw [length]
      decide
  refine ⟨program, report, final, built, runs, orders, fun σ device memory => ?_⟩
  have same := keeps σ device memory
  exact ⟨same.decisions around, same.readout around "r" (readout ▸ List.mem_singleton_self "r")⟩

/-! ## Conflicts -/

/-- Every sequence of steps keeps the order of conflicting instructions: what is left of a list stood in the list before,
    and two instructions of it whose operations conflict come in the same order as before. -/
theorem steps_keep_conflicts (built : ofTree root text readout = .ok program) (names : List String) :
    ∃ report final, (Workspace.ofProgram program).run names = .ok (report, final) ∧
      final.lists.length = program.lists.length ∧
      ∀ (i : Nat) (list after : InstructionList), program.lists[i]? = some list → final.lists[i]? = some after →
        ∀ x ∈ after.order, ∀ y ∈ after.order, x ≠ y → x ∈ list.order ∧ y ∈ list.order ∧
          ∀ a b : Instruction, after.nodes[x]? = some a → after.nodes[y]? = some b →
            Conflict a.operation b.operation →
              (after.order.idxOf x < after.order.idxOf y ↔ list.order.idxOf x < list.order.idxOf y) := by
  obtain ⟨ranked, lines, source, analysed⟩ := exists_analysed built
  obtain ⟨report, final, runs, sound, refines⟩ := run_refines analysed.sound names
  refine ⟨report, final, runs, flow_length refines.flow, ?_⟩
  intro i list after found found' x xRuns y yRuns differ
  have member := List.mem_of_getElem? found
  have ordered := (sound.regular after (List.mem_of_getElem? found')).ordered
  obtain ⟨roles, guards⟩ := refines.each found found'
  obtain ⟨names, guarded⟩ := analysed.guarded member
  have there : ∀ {id : Nat}, id ∈ after.order → id ∈ list.order := by
    intro id runs
    have inside : id < list.nodes.length := by
      obtain ⟨before, there, _⟩ := roles.getElem? (List.getElem?_eq_getElem (ordered.chained.inside id runs))
      exact (List.getElem?_eq_some_iff.mp there).1
    rw [analysed.order member]
    exact List.mem_range.mpr inside
  refine ⟨there xRuns, there yRuns, fun a b xFound yFound conflict => ?_⟩
  have before : ∀ {id : Nat}, id ∈ list.order → list.order.idxOf id = id := by
    intro id runs
    rw [analysed.order member] at runs ⊢
    have inside : id < (List.range list.nodes.length).length := by
      rw [List.length_range]
      exact List.mem_range.mp runs
    simpa using List.nodup_range.idxOf_getElem id inside
  rw [before (there xRuns), before (there yRuns)]
  exact idxOf_lt_of_conflict ordered (guards guarded) xRuns yRuns xFound yFound conflict differ

/-- The jump stays behind the assignment of what decides it. -/
theorem flipping_keeps_conflicts : ∃ program report final list after a b, ofTree flippingTree "" ["r"] = .ok program ∧
    (Workspace.ofProgram program).run lateSteps = .ok (report, final) ∧
      program.lists[0]? = some list ∧ final.lists[0]? = some after ∧
      list.order = [0, 1, 2, 3, 4, 5] ∧ after.order = [0, 3, 4, 1, 5] ∧
      after.nodes[4]? = some a ∧ after.nodes[5]? = some b ∧ Conflict a.operation b.operation ∧
      (after.order.idxOf 4 < after.order.idxOf 5 ↔ list.order.idxOf 4 < list.order.idxOf 5) := by
  obtain ⟨program, report, final, built, runs, _, _, before, orders, accessed⟩ := flipping_runs
  obtain ⟨report', final', runs', _, keeps⟩ := steps_keep_conflicts built lateSteps
  cases runs.symm.trans runs'
  have first : ∀ {α : Type} {view : InstructionList → α} {lists : List InstructionList} {here : α} {rest : List α},
      lists.map view = here :: rest → ∃ list, lists[0]? = some list ∧ view list = here := by
    intro α view lists here rest same
    cases lists with
    | nil => cases same
    | cons list _ => exact ⟨list, rfl, (List.cons.inj same).1⟩
  obtain ⟨list, there, listOrder⟩ := first before
  obtain ⟨after, here, afterOrder⟩ := first orders
  obtain ⟨after', here', names⟩ := first accessed
  cases here.symm.trans here'
  have names_at : ∀ {id : Nat}, ([[], [], ["s"], ["r"], ["c"], ["c"]] : List (List String))[id]? = some ["c"] →
      ∃ node access, after.nodes[id]? = some node ∧ access ∈ node.operation.memoryAccesses ∧ access.name = "c" := by
    intro id named
    rw [← names, accessedNames, List.getElem?_map] at named
    obtain ⟨node, found, same⟩ := Option.map_eq_some_iff.mp named
    obtain ⟨access, member, name⟩ := List.mem_map.mp (same ▸ List.mem_singleton_self "c")
    exact ⟨node, access, found, member, name⟩
  obtain ⟨a, m, aFound, mIn, mName⟩ := @names_at 4 rfl
  obtain ⟨b, m', bFound, mIn', mName'⟩ := @names_at 5 rfl
  have conflict : Conflict a.operation b.operation := by
    refine .inr (.inr (.inr ⟨m, mIn, m', mIn', ?_⟩))
    rw [mName, mName']
    exact Memory.mayOverlap_self "c"
  obtain ⟨_, _, same⟩ :=
    keeps 0 list after there here 4 (by rw [afterOrder]; decide) 5 (by rw [afterOrder]; decide) (by decide)
  exact ⟨program, report, final, list, after, a, b, built, runs, there, here, listOrder, afterOrder, aFound, bFound,
    conflict, same a b aFound bFound conflict⟩

end TwoLane.HybridProgram
