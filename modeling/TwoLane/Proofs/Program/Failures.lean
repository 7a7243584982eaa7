import TwoLane.Proofs.Execution.Becoming
import TwoLane.Proofs.Program.Results

/-! # No step fails

On a program every sequence of steps runs to its end. Whatever has run before, hybrid maps are those of the lists as
they are. So the lanes can be balanced where hybrid lines are known, and each instruction is folded by a rule that
accepts it.
-/

namespace TwoLane

/-! ## Folding by rules that accept -/

namespace Folding

/-- Fold instructions one after the other, up to the first one that is missing or that its rule does not accept. -/
def foldStrictly (isEntry : Bool) (list : InstructionList) :
    List Nat → Except OptimizeError (InstructionList × List TextChange)
  | [] => .ok (list, [])
  | id :: rest => do
      let node ← OptimizeError.lift (list.get id)
      let folded ← foldAt (.ofCategory node.category) list id isEntry
      let change ← if folded.2 then (OptimizeError.lift (folded.1.get id)).map (textChange node) else .ok none
      let further ← foldStrictly isEntry folded.1 rest
      .ok (further.1, change.toList ++ further.2)

theorem lift_get_eq_ok {list : InstructionList} {id : Nat} {node : Instruction} (found : list.nodes[id]? = some node) :
    OptimizeError.lift (list.get id) = .ok node := by
  rw [InstructionList.get, InstructionList.get?, found]
  rfl

/-- No instruction is missing, and all of them are accepted. -/
theorem foldStrictly_eq_ok {list : InstructionList} {ids : List Nat} (isEntry : Bool)
    (numbered : ∀ {id : Nat} {node : Instruction}, list.nodes[id]? = some node → node.id = id)
    (inside : ∀ id ∈ ids, id < list.nodes.length) :
    foldStrictly isEntry list ids = .ok (foldAll isEntry list ids) := by
  induction ids generalizing list with
  | nil => rfl
  | cons id rest ih =>
      have here := inside id List.mem_cons_self
      have found : list.nodes[id]? = some list.nodes[id] := List.getElem?_eq_getElem here
      generalize list.nodes[id] = node at found
      have accepted : FoldRule.accepts (.ofCategory node.category) node.category = true := by
        rw [FoldRule.accepts, beq_self_eq_true, Bool.or_true]
      have becomes := Execution.becomes_foldNode (numbered found) found accepted isEntry
      have folded : foldAt (.ofCategory node.category) list id isEntry =
          .ok (foldNode (.ofCategory node.category) list isEntry node) := by
        rw [foldAt, lift_get_eq_ok found]
        exact if_pos accepted
      have numbered' : ∀ {id' : Nat} {node' : Instruction},
          (foldNode (.ofCategory node.category) list isEntry node).1.nodes[id']? = some node' → node'.id = id' := by
        intro id' node' found'
        obtain ⟨before, there, same⟩ := becomes.nodes found'
        exact same.id.trans (numbered there)
      have further := ih numbered' (fun other member => becomes.length ▸ inside other (List.mem_cons_of_mem _ member))
      obtain ⟨node', found'⟩ : ∃ node', (foldNode (.ofCategory node.category) list isEntry node).1.nodes[id]? =
          some node' := ⟨_, List.getElem?_eq_getElem (becomes.length ▸ here)⟩
      rw [foldStrictly, foldAll, InstructionList.get?, found, lift_get_eq_ok found]
      dsimp only [bind, Except.bind]
      rw [folded]
      dsimp only
      rw [further, lift_get_eq_ok found', InstructionList.get?, found']
      split <;> rfl

end Folding

/-! ## Workspaces -/

namespace HybridProgram

open Execution

/-- Whether a workspace has no stale hybrid maps, and nothing in it makes a step fail: where hybrid lines are known
    there is one map per list, and balancing gives each list an order that it accepts, and each instruction is folded by
    a rule that accepts it. -/
structure Ready (state : Workspace) : Prop where
  current : Current state
  aligned : state.knowsHybrids = true → state.checkAlignment = .ok ()
  balanced : state.knowsHybrids = true → ∀ {i : Nat} {list}, state.lists[i]? = some list → ∃ order,
    Schedule.balanced list ((state.hybrids[i]?).getD []) = .ok order ∧
      (order = [] ∨ ∃ after, list.reorder order = .ok after)
  folded : ∀ isEntry, ∀ list ∈ state.lists,
    Folding.foldStrictly isEntry list list.order = .ok (Folding.foldAll isEntry list list.order)

variable {state : Workspace} {root : Tree} {text : String} {readout : List String} {program : HybridProgram}

theorem ready_of_sound (sound : Sound state) : Ready state where
  current := sound.current
  aligned := fun known => (balanced_of_knowsHybrids sound known).1
  balanced := by
    intro known i list found
    obtain ⟨order, given, accepted⟩ := (balanced_of_knowsHybrids sound known).2 found
    exact ⟨order, given, accepted.imp_right (fun reorders => ⟨_, reorder_eq_ok reorders.perm⟩)⟩
  folded := fun isEntry list member =>
    have chained := (sound.regular list member).ordered.chained
    Folding.foldStrictly_eq_ok isEntry chained.numbered chained.inside

/-- Every sequence of step names runs to its end on a program, and the workspace is ready in front of each of its steps
    and behind it. -/
theorem runs_stay_ready (built : ofTree root text readout = .ok program) (names : List String) :
    (∃ report final, (Workspace.ofProgram program).run names = .ok (report, final) ∧ Ready final) ∧
    ∀ (done rest : List Step) (step : Step), names.filterMap Step.ofName? = done ++ step :: rest →
      ∃ here reports next report, Workspace.dispatchAll done (Workspace.ofProgram program) = .ok (here, reports) ∧
        step.dispatch here = .ok (next, report) ∧ Ready here ∧ Ready next := by
  obtain ⟨ranked, lines, source, analysed⟩ := exists_analysed built
  obtain ⟨report, final, runs, sound, _⟩ := run_refines analysed.sound names
  refine ⟨⟨report, final, runs, ready_of_sound sound⟩, fun done rest step _ => ?_⟩
  obtain ⟨here, reports, dispatched, soundHere, _⟩ := dispatchAll_refines analysed.sound done
  obtain ⟨next, report, carried, soundNext, _⟩ := dispatch_refines soundHere step
  exact ⟨here, reports, next, report, dispatched, carried, ready_of_sound soundHere, ready_of_sound soundNext⟩

/-- Find hybrid lines, start quantum work early, balance the lanes and fold, with an unknown name in between. -/
def balancingSteps : List String :=
  ["HybridDependencies", "QuantumJIT", "Unrolling", "ReOrdering", "ConstantPropagation", "ConstantFolding",
    "ReOrdering"]

/-- Around the loop hybrid lines are still known when the lanes are balanced, though the orders are new. -/
theorem flipping_stays_ready : ∃ program, ofTree flippingTree "" ["r"] = .ok program ∧
    (∃ report final, (Workspace.ofProgram program).run balancingSteps = .ok (report, final) ∧ Ready final) ∧
    ∃ here reports next report,
      Workspace.dispatchAll [.hybridDependencies, .earlyQuantum] (Workspace.ofProgram program) = .ok (here, reports) ∧
      Step.reordering.dispatch here = .ok (next, report) ∧ here.knowsHybrids = true ∧
      here.lists.map InstructionList.order ≠ program.lists.map InstructionList.order ∧ Ready here ∧ Ready next := by
  have computed : ((ofTree flippingTree "" ["r"]).toOption.bind fun program =>
      (Workspace.dispatchAll [.hybridDependencies, .earlyQuantum] (Workspace.ofProgram program)).toOption.map
        fun result => (result.1.knowsHybrids, decide (result.1.lists.map InstructionList.order ≠
          program.lists.map InstructionList.order))) = some (true, true) := by
    decide +kernel
  obtain ⟨program, built, rest⟩ := Option.bind_eq_some_iff.mp computed
  obtain ⟨⟨here, reports⟩, dispatched, same⟩ := Option.map_eq_some_iff.mp rest
  obtain ⟨known, moved⟩ := Prod.mk.inj same
  have built := Result.of_toOption_eq_some built
  obtain ⟨runs, each⟩ := runs_stay_ready built balancingSteps
  obtain ⟨here', _, next, report, dispatched', carried, ready, readyNext⟩ :=
    each [.hybridDependencies, .earlyQuantum] [.constantPropagation, .constantFolding, .reordering] .reordering
      (by decide +kernel)
  cases (Result.of_toOption_eq_some dispatched).symm.trans dispatched'
  exact ⟨program, built, runs, here, reports, next, report, dispatched', carried, known, of_decide_eq_true moved, ready,
    readyNext⟩

end HybridProgram

end TwoLane
