import TwoLane.Proofs.Execution.Coherence
import TwoLane.Proofs.Program.Results

/-! # One round is enough

Propagation visits an instruction behind all that it looks up, so that one pass notes all that follows. Folding then
takes away nothing from which a noted fact follows, and it uses up all that was noted. So wherever a run has come, a
second round of propagation and folding finds no constant, rewrites nothing and leaves every list as it is.
-/

namespace TwoLane

namespace Execution

variable {isEntry : Bool} {list : InstructionList} {index : Nat} {state : Workspace}

theorem Coherent.round (coherent : Coherent (index == 0) list) (regular : Regular list) :
    ∃ once, (Folding.foldList index (Constants.propagateList index list).1).1 = once ∧
      Constants.propagateList index once = (once, []) ∧ Folding.foldList index once = (once, []) := by
  obtain ⟨grounded, fit⟩ := coherent.propagated regular.ordered
  have passing := passing_foldList (keeps_propagate regular index).regular.ordered grounded fit
  refine ⟨_, rfl, ?_, passing.foldList_eq⟩
  rw [Constants.propagateList, passing.grounded.annotateAll_eq passing.ordered (List.Subset.refl _)]
  rfl

/-- Passes that leave each list as it is leave all of them, and report nothing. -/
theorem zipIdx_map_still {α : Type} {pass : Nat → InstructionList → InstructionList × List α}
    {lists : List InstructionList} (still : ∀ i list, lists[i]? = some list → pass i list = (list, [])) :
    let results := lists.zipIdx.map (fun entry => pass entry.2 entry.1)
    results.map Prod.fst = lists ∧ results.flatMap Prod.snd = [] := by
  have each : ∀ entry ∈ lists.zipIdx, pass entry.2 entry.1 = (entry.1, []) :=
    fun entry member => still entry.2 entry.1 (List.mem_zipIdx_iff_getElem?.mp member)
  have same : lists.zipIdx.map (fun entry => pass entry.2 entry.1) = lists.map (fun list => (list, [])) :=
    calc
      _ = lists.zipIdx.map (fun entry => (entry.1, [])) := List.map_congr_left each
      _ = (lists.zipIdx.map Prod.fst).map (fun list => (list, [])) := by rw [List.map_map]; rfl
      _ = _ := by rw [List.zipIdx_map_fst]
  dsimp only
  rw [same]
  simp [Function.comp_def]

def round : List Step :=
  [.constantPropagation, .constantFolding]

theorem dispatchAll_round (state : Workspace) : Workspace.dispatchAll round state =
    .ok (⟨(Folding.fold (Constants.propagate state.lists).1).1, [], state.readout⟩,
      [⟨"ConstantPropagation", .constants (Constants.propagate state.lists).2⟩,
        ⟨"ConstantFolding", .folding (Folding.fold (Constants.propagate state.lists).1).2⟩]) :=
  rfl

theorem AllCoherent.round (coherent : AllCoherent state.lists) (sound : Sound state) :
    ∃ once reports, Workspace.dispatchAll round state = .ok (once, reports) ∧
      Workspace.dispatchAll round once =
        .ok (once, [⟨"ConstantPropagation", .constants []⟩, ⟨"ConstantFolding", .folding []⟩]) := by
  refine ⟨_, _, dispatchAll_round state, ?_⟩
  have still : ∀ i list, (Folding.fold (Constants.propagate state.lists).1).1[i]? = some list →
      Constants.propagateList i list = (list, []) ∧ Folding.foldList i list = (list, []) := by
    intro i once found
    simp only [Folding.fold, Constants.propagate, List.getElem?_map, List.getElem?_zipIdx, Nat.zero_add,
      Option.map_map] at found
    obtain ⟨list, there, same⟩ := Option.map_eq_some_iff.mp found
    obtain ⟨_, same', settled⟩ := (coherent i list there).round (sound.regular list (List.mem_of_getElem? there))
    cases same.symm.trans same'
    exact settled
  generalize (Folding.fold (Constants.propagate state.lists).1).1 = once at still
  have propagated : Constants.propagate once = (once, []) := by
    obtain ⟨first, second⟩ := zipIdx_map_still (fun i list found => (still i list found).1)
    exact Prod.ext first second
  have folded : Folding.fold once = (once, []) := by
    obtain ⟨first, second⟩ := zipIdx_map_still (fun i list found => (still i list found).2)
    exact Prod.ext first second
  rw [dispatchAll_round, propagated, folded]

theorem run_eq_ok {final : Workspace} {names : List String} {reports : List StepReport} {metrics : Metrics}
    (dispatched : Workspace.dispatchAll (names.filterMap Step.ofName?) state = .ok (final, reports))
    (measured : final.metrics = .ok metrics) : state.run names = .ok (⟨reports, final.texts, metrics⟩, final) := by
  rw [Workspace.run, dispatched]
  change (final.metrics >>= fun metrics => Except.ok (RunReport.mk reports final.texts metrics, final)) = _
  rw [measured]
  rfl

end Execution

namespace HybridProgram

open Execution

variable {root : Tree} {text : String} {readout : List String} {program : HybridProgram} {ranked : RankedGraph}
  {lines : Classification} {source : List String}

theorem Analysed.coherent (analysed : Analysed program ranked lines source) : AllCoherent program.lists := by
  intro i list found
  obtain ⟨id, _, rfl⟩ := analysed.exists_listOf (List.mem_of_getElem? found)
  have coherent : Coherent (i == 0) (InstructionList.ofNodes id (ranked.graph.block id).name
    (newNodes ranked lines source id)) := coherent_ofNodes isNew_newNodes _
  exact ⟨coherent.grounded, coherent.fit⟩

/-- Wherever a run of a program has come, one round of propagation and folding is enough: a second one reports no
    constant and no rewrite, and it leaves the workspace as it is. -/
theorem second_round_changes_nothing (built : ofTree root text readout = .ok program) (names : List String) :
    ∃ report state first once, (Workspace.ofProgram program).run names = .ok (report, state) ∧
      state.run ["ConstantPropagation", "ConstantFolding"] = .ok (first, once) ∧
      once.run ["ConstantPropagation", "ConstantFolding"] = .ok ({ first with
        steps := [⟨"ConstantPropagation", .constants []⟩, ⟨"ConstantFolding", .folding []⟩] }, once) := by
  obtain ⟨ranked, lines, source, analysed⟩ := exists_analysed built
  obtain ⟨state, reports, dispatched, sound, _⟩ := dispatchAll_refines analysed.sound (names.filterMap Step.ofName?)
  obtain ⟨metrics, measured⟩ := metrics_eq_ok sound
  have coherent := analysed.coherent.dispatchAll analysed.sound dispatched
  obtain ⟨once, reports', round, again⟩ := coherent.round sound
  obtain ⟨once', _, round', sound', _⟩ := dispatchAll_refines sound Execution.round
  cases round.symm.trans round'
  obtain ⟨metrics', measured'⟩ := metrics_eq_ok sound'
  have named : ["ConstantPropagation", "ConstantFolding"].filterMap Step.ofName? = Execution.round := by decide
  exact ⟨_, state, _, once, run_eq_ok dispatched measured, run_eq_ok (named ▸ round) measured',
    run_eq_ok (named ▸ again) measured'⟩

/-- With quantum work early the first round folds two assignments and, in the first passage of the loop, a
    measurement. The second one has nothing left to do. -/
theorem flipping_second_round : ∃ program report state first once, ofTree flippingTree "" ["r"] = .ok program ∧
    (Workspace.ofProgram program).run ["QuantumJIT"] = .ok (report, state) ∧
    report.blocks.map BlockText.instructions =
      [["LABEL @loop", "X 0", "MEASURE 0 c", "MOVE s 2", "MOVE r s", "JUMP-WHEN @loop c"],
        ["LABEL @loop", "X 0", "MEASURE 0 c", "MOVE s 2", "MOVE r s", "JUMP-WHEN @loop c"], []] ∧
    state.run ["ConstantPropagation", "ConstantFolding"] = .ok (first, once) ∧
    first.blocks.map BlockText.instructions =
      [["LABEL @loop", "X 0", "MOVE c 1", "MOVE s 2", "MOVE r 2", "JUMP-WHEN @loop c"],
        ["LABEL @loop", "X 0", "MEASURE 0 c", "MOVE s 2", "MOVE r 2", "JUMP-WHEN @loop c"], []] ∧
    once.run ["ConstantPropagation", "ConstantFolding"] = .ok ({ first with
      steps := [⟨"ConstantPropagation", .constants []⟩, ⟨"ConstantFolding", .folding []⟩] }, once) := by
  have computed : ((ofTree flippingTree "" ["r"]).toOption.bind fun program =>
      ((Workspace.ofProgram program).run ["QuantumJIT"]).toOption.bind fun early =>
        (early.2.run ["ConstantPropagation", "ConstantFolding"]).toOption.map fun folded =>
          (early.1.blocks.map BlockText.instructions, folded.1.blocks.map BlockText.instructions)) =
      some ([["LABEL @loop", "X 0", "MEASURE 0 c", "MOVE s 2", "MOVE r s", "JUMP-WHEN @loop c"],
          ["LABEL @loop", "X 0", "MEASURE 0 c", "MOVE s 2", "MOVE r s", "JUMP-WHEN @loop c"], []],
        [["LABEL @loop", "X 0", "MOVE c 1", "MOVE s 2", "MOVE r 2", "JUMP-WHEN @loop c"],
          ["LABEL @loop", "X 0", "MEASURE 0 c", "MOVE s 2", "MOVE r 2", "JUMP-WHEN @loop c"], []]) := by
    decide +kernel
  obtain ⟨program, built, rest⟩ := Option.bind_eq_some_iff.mp computed
  obtain ⟨⟨report, state⟩, runs, rest⟩ := Option.bind_eq_some_iff.mp rest
  obtain ⟨⟨first, once⟩, round, same⟩ := Option.map_eq_some_iff.mp rest
  obtain ⟨before, after⟩ := Prod.mk.inj same
  have isBuilt := Result.of_toOption_eq_some built
  obtain ⟨_, _, _, _, runs', round', again⟩ := second_round_changes_nothing isBuilt ["QuantumJIT"]
  cases (Result.of_toOption_eq_some runs).symm.trans runs'
  cases (Result.of_toOption_eq_some round).symm.trans round'
  exact ⟨program, report, state, first, once, isBuilt, runs', before, round', after, again⟩

end HybridProgram

end TwoLane
