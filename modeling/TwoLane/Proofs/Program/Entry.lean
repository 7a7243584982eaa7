import TwoLane.Proofs.Block.Nested
import TwoLane.Proofs.Program.Results
import TwoLane.Tree.Draft

/-! # The entry of a program

The first list is the one of the entry. A block leads to the exit or to one that was asked for, and only a label of the
program itself that is named as the entry is asked for under that name. Without such a label no list leads back to the
first one, so it runs once.
-/

namespace TwoLane

/-- Only what the program itself has is named as the entry: a mark would show. -/
theorem Spot.of_named_start {spot : Spot} {calls : List Nat} (same : spot.blockName calls = "start") :
    calls = [] ∧ spot.word = "start" := by
  have chars := congrArg String.toList same
  rw [Spot.blockName, String.toList_append] at chars
  cases calls with
  | nil => exact ⟨rfl, by simpa [Spot.blockName, Spot.markOf] using same⟩
  | cons line outer =>
      obtain ⟨rest, mark⟩ := BlockName.markOf_start line outer
      rw [mark] at chars
      have separator : '@' ∈ "start".toList := chars ▸ List.mem_append_right _ List.mem_cons_self
      exact absurd separator (by decide)

namespace Inlining

open CallChain

variable {root : Level} {last : Inlining} {asked : Filling → Prop} {inner : LevelInstance} {outer : CallChain}
  {calls : List Nat} {callers : CallStack} {filling : Filling} {block id : Nat}

/-- Whether a block is the exit of the program or was asked for. -/
def ExitOrAsked (asked : Filling → Prop) (block : Nat) : Prop :=
  block = BlockGraph.halt ∨ ∃ filling, asked filling ∧ filling.block = block

theorem LeadsToLabel.exitOrAsked {label : String} {targets : List Nat}
    (leads : LeadsToLabel asked (inner :: outer) label targets) (head : targets.head? = some block) :
    ExitOrAsked asked block := by
  obtain ⟨home, mark, position, target, _, known, first⟩ := leads
  cases head.symm.trans first
  exact .inr ⟨_, known, rfl⟩

theorem Continues.exitOrAsked {chain : CallChain} {position : Nat} (continues : Continues asked chain inner position block)
    (exits : ExitOrAsked asked inner.exit) : ExitOrAsked asked block := by
  unfold Continues at continues
  split at continues
  · exact .inr ⟨_, continues, rfl⟩
  · exact continues ▸ exits

theorem Nested.exit (nested : Nested root asked (inner :: outer) calls callers) : ExitOrAsked asked inner.exit := by
  generalize same : inner :: outer = chain at nested
  induction nested generalizing inner outer with
  | program =>
      cases same
      exact .inl rfl
  | call _ _ _ _ continues ih =>
      cases same
      exact continues.exitOrAsked (ih rfl)

/-- A run of lines leads to the exit of the program or to blocks that were asked for. -/
theorem LeadsOn.exitOrAsked {ending : Ending} {targets : List Nat}
    (nested : Nested root asked (inner :: outer) calls callers) (leads : LeadsOn asked inner outer ending targets) :
    ∀ target ∈ targets, ExitOrAsked asked target := by
  cases ending with
  | leave =>
      rintro target member
      rw [show targets = [inner.exit] from leads] at member
      exact List.mem_singleton.mp member ▸ nested.exit
  | halt =>
      rintro target member
      rw [show targets = [BlockGraph.halt] from leads] at member
      exact .inl (List.mem_singleton.mp member)
  | label name position =>
      obtain ⟨block, rfl, known⟩ := leads
      rintro target member
      exact .inr ⟨_, known, (List.mem_singleton.mp member).symm⟩
  | call call line position =>
      obtain ⟨body, after, block, rfl, _, _, known⟩ := leads
      rintro target member
      exact .inr ⟨_, known, (List.mem_singleton.mp member).symm⟩
  | jump label line =>
      obtain ⟨block, rfl, toLabel⟩ := leads
      rintro target member
      exact List.mem_singleton.mp member ▸ toLabel.exitOrAsked rfl
  | conditionalJump label line position =>
      obtain ⟨block, after, rfl, toLabel, continues⟩ := leads
      rintro target member
      rcases List.mem_cons.mp member with rfl | behind
      · exact toLabel.exitOrAsked rfl
      · exact List.mem_singleton.mp behind ▸ continues.exitOrAsked nested.exit

theorem Built.branches_asked (wf : root.WellFormed) (built : Built root last) :
    ∀ target ∈ last.graph.branches id, ExitOrAsked (HandedOut root last) target := by
  have sound := built.sound wf
  by_cases filled : id ∈ last.filled
  · rcases sound.filled id filled with rfl | ⟨filling, rfl, known, written⟩
    · rw [show last.graph.branches BlockGraph.halt = [] from congrArg (fun content => content.2.2) sound.exit.2]
      exact fun _ none => absurd none List.not_mem_nil
    · obtain ⟨calls, callers, nested⟩ : Framed root (HandedOut root last) filling := by
        rcases known with rfl | handed
        · exact ⟨[], [], .program⟩
        · exact handed.framed
      obtain ⟨inner, outer, head⟩ := nested.opened.exists_cons
      exact LeadsOn.exitOrAsked (head ▸ nested) (written.leads head)
  · rw [show last.graph.branches id = [] from congrArg (fun content => content.2.2) (sound.fresh id filled)]
    exact fun _ none => absurd none List.not_mem_nil

theorem HandedOut.label_start (wf : root.WellFormed) (built : Built root last) (handed : HandedOut root last filling)
    (entry : filling.block = BlockGraph.start) : ∃ line, root.labelLine? "start" = some line := by
  obtain ⟨spot, calls, asked⟩ := handed.askedAs wf
  obtain ⟨rfl, word⟩ := Spot.of_named_start ((sentinel_iff wf built asked).1.mp entry)
  have opened := asked.2.opened
  obtain ⟨inner, outer, head⟩ := opened.exists_cons
  obtain ⟨rfl, circuit⟩ := (head ▸ opened : Opened root (inner :: outer) []).of_no_calls
  have stands := asked.2.stands head
  cases spot with
  | label name =>
      cases word
      exact stands.imp (fun line there => there.1)
  | entry name => cases circuit.symm.trans stands.1
  | afterCall line => simpa [Spot.word] using congrArg (fun word => word.toList.head?) word
  | afterJump line => simpa [Spot.word] using congrArg (fun word => word.toList.head?) word

end Inlining

theorem BlockGraph.label_of_branch_start {level : Level} {graph : BlockGraph} {id : Nat} (wf : level.WellFormed)
    (built : ofLevel level = .ok graph) (leads : start ∈ graph.branches id) :
    ∃ line, level.labelLine? "start" = some line := by
  obtain ⟨last, _, rfl, built, _⟩ := built_ofLevel wf built
  rcases built.branches_asked wf start leads with exit | ⟨filling, handed, same⟩
  · cases exit
  · exact handed.label_start wf built same

theorem BlockGraph.name_start {level : Level} {graph : BlockGraph} (wf : level.WellFormed)
    (built : ofLevel level = .ok graph) : (graph.block start).name = "start" := by
  obtain ⟨last, _, rfl, built, _⟩ := built_ofLevel wf built
  obtain ⟨block, found, named⟩ := Option.map_eq_some_iff.mp (built.sound wf).start
  rw [block_of_getElem? found, named]

namespace HybridProgram

variable {root : Tree} {text : String} {readout : List String} {program : HybridProgram}

theorem ne_of_path {next : Nat → List Nat} {node first last : Nat} (away : ∀ other, node ∉ next other)
    (path : Reach.Path next first last) (differs : first ≠ node) : last ≠ node := by
  induction path with
  | refl => exact differs
  | @step first second _ leads _ ih => exact ih (fun same => away first (same ▸ leads))

theorem not_mem_successorsAt {lists : List InstructionList} {node : Nat} (away : ∀ list ∈ lists, node ∉ list.successors)
    (i : Nat) : node ∉ successorsAt lists i := by
  rw [successorsAt]
  cases found : lists[i]? with
  | none => exact List.not_mem_nil
  | some list => exact away list (List.mem_of_getElem? found)

theorem label_of_leads_first {ranked : RankedGraph} {graph : BlockGraph} {lines : Classification} {source : List String}
    {level : Level} (wf : level.WellFormed) (built : BlockGraph.ofLevel level = .ok graph)
    (unfolds : ranked.Unfolds graph) (numbered : ranked.Numbered) {list : InstructionList}
    (member : list ∈ listsOf ranked lines source) (leads : 0 ∈ list.successors) :
    ∃ line, level.labelLine? "start" = some line := by
  obtain ⟨id, ordered, rfl⟩ := List.mem_map.mp member
  obtain ⟨target, flows, isRank⟩ := List.mem_filterMap.mp (show 0 ∈ ranked.flowRanks id from leads)
  -- only the entry has the first rank, so the origin of the block branches to the entry
  cases (numbered.getElem?_of_rank unfolds.start).symm.trans (numbered.getElem?_of_rank isRank)
  have onward := List.mem_map_of_mem (f := ranked.graph.origin) flows
  rw [unfolds.flow id (numbered.isSome_rank.mpr ordered), unfolds.entry] at onward
  exact BlockGraph.label_of_branch_start wf built onward

/-- The first list of a program is the one of the entry. Where no label of the program itself is named as the entry, no
    list leads to the first one, and no way along the lists comes back to it. -/
theorem entry_runs_once (built : ofTree root text readout = .ok program) :
    (∃ list, program.lists[0]? = some list ∧ list.block = BlockGraph.start ∧ list.name = "start") ∧
      ((Level.ofTree root).labelLine? "start" = none →
        (∀ list ∈ program.lists, 0 ∉ list.successors) ∧
          ∀ i j k, j ∈ successorsAt program.lists i → Reach.Path (successorsAt program.lists) j k → k ≠ 0) := by
  obtain ⟨graph, level, rest⟩ := Result.of_bind_eq_ok built
  obtain ⟨ranked, ranks, rest⟩ := Result.of_bind_eq_ok rest
  cases rest
  have wf := Level.wellFormed_ofTree root
  obtain ⟨fresh, exits⟩ := BlockGraph.fresh_ofLevel level
  obtain ⟨other, ranks', unfolds, numbered⟩ :=
    BlockGraph.rank_unfolds fresh (Nat.lt_trans (Nat.lt_succ_self 0) exits) (Classification.ofTree root)
  cases ranks.symm.trans ranks'
  refine ⟨⟨_, getElem?_listsOf (numbered.getElem?_of_rank unfolds.start), rfl, ?_⟩, fun unlabelled => ?_⟩
  · have named := unfolds.name _ (Option.isSome_of_eq_some unfolds.start)
    rw [unfolds.entry, BlockGraph.name_start wf level] at named
    exact named
  · have away : ∀ list ∈ listsOf ranked (Classification.ofTree root) (Text.lines text), 0 ∉ list.successors := by
      intro list member leads
      obtain ⟨line, defined⟩ := label_of_leads_first wf level unfolds numbered member leads
      cases unlabelled.symm.trans defined
    refine ⟨away, fun i j k leads path => ?_⟩
    exact ne_of_path (not_mem_successorsAt away) path (fun same => not_mem_successorsAt away i (same ▸ leads))

/-- A circuit with a loop of its own around a label named as the entry, called over and over again. -/
def roundStatements : List Statement :=
  [.defCircuit "A" ["q"] [.label "start", .measure "q" (some "c"), .jumpWhen "start" "c"], .label "top",
    .gate "A" [] ["0"], .jump "top"]

/-- No loop of the program goes through the entry. -/
theorem round_enters_once : ∃ program, ofTree (Draft.ofStatements roundStatements).tree
      (Draft.ofStatements roundStatements).source ["c"] = .ok program ∧
    (Level.ofTree (Draft.ofStatements roundStatements).tree).labelLine? "start" = none ∧
    program.lists.map InstructionList.name = ["start", "A@5", "start@5", "return.5", "top", "A@5"] ∧
    program.lists.map InstructionList.successors = [[1], [2, 3], [2, 3], [4], [5], [2, 3]] ∧
    (∀ list ∈ program.lists, 0 ∉ list.successors) ∧
    ∀ i j k, j ∈ successorsAt program.lists i → Reach.Path (successorsAt program.lists) j k → k ≠ 0 := by
  have computed : ((ofTree (Draft.ofStatements roundStatements).tree (Draft.ofStatements roundStatements).source
      ["c"]).toOption.map fun program =>
        (program.lists.map InstructionList.name, program.lists.map InstructionList.successors)) =
      some (["start", "A@5", "start@5", "return.5", "top", "A@5"], [[1], [2, 3], [2, 3], [4], [5], [2, 3]]) := by
    decide +kernel
  have unlabelled : (Level.ofTree (Draft.ofStatements roundStatements).tree).labelLine? "start" = none := by
    decide +kernel
  obtain ⟨program, built, same⟩ := Option.map_eq_some_iff.mp computed
  obtain ⟨names, flow⟩ := Prod.mk.inj same
  have built := Result.of_toOption_eq_some built
  exact ⟨program, built, unlabelled, names, flow, (entry_runs_once built).2 unlabelled⟩

/-- A jump to a label of the program that is named as the entry goes back to the first list. -/
theorem entry_may_run_again : ¬ ∀ (root : Tree) (text : String) (readout : List String) (program : HybridProgram),
    ofTree root text readout = .ok program → ∀ list ∈ program.lists, 0 ∉ list.successors := by
  intro always
  have computed : ((ofTree (Draft.ofStatements [.label "start", .gate "H" [] ["0"], .jump "start"]).tree
      (Draft.ofStatements [.label "start", .gate "H" [] ["0"], .jump "start"]).source []).toOption.map fun program =>
        program.lists.map InstructionList.successors) = some [[0]] := by
    decide +kernel
  obtain ⟨program, built, flow⟩ := Option.map_eq_some_iff.mp computed
  obtain ⟨list, only, leads⟩ := List.map_eq_singleton_iff.mp flow
  refine always _ _ _ program (Result.of_toOption_eq_some built) list (only ▸ List.mem_cons_self) ?_
  rw [leads]
  exact List.mem_cons_self

end HybridProgram

end TwoLane
