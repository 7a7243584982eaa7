import TwoLane.Proofs.Block.Fresh
import TwoLane.Proofs.Block.Paths

/-! # The shape of a block graph

The construction fills each block of its graph but the exit once, from one place of a level. Behind its last line such a
block leads to one block, or to two where that line is a conditional jump of the level.
-/

namespace TwoLane

theorem Level.conditional_followRun {level : Level} (one : level.OneEach) (isFirst : Bool) (position : Nat)
    (lines : List Nat) (inside : lines ⊆ level.lines) :
    ((level.followRun isFirst position lines).1.getLast?.bind level.conditionalJumpAt?).isSome = true ↔
      ∃ label line there, (level.followRun isFirst position lines).2 = .conditionalJump label line there := by
  induction lines generalizing isFirst position with
  | nil => simp [followRun]
  | cons line rest ih =>
      obtain ⟨here, further⟩ := List.cons_subset.mp inside
      obtain ⟨turn, only, alone⟩ := one.exists_only here
      by_cases opens : isFirst = true ∨ level.labelAt? line = none
      · rw [followRun_cons opens position rest only]
        cases turn with
        | plain =>
            have step := ih false (position + 1) further
            dsimp only
            rw [← step]
            cases last : (level.followRun false (position + 1) rest).1.getLast? with
            | none => simp [List.getLast?_cons, last, only.2.2.2]
            | some other => simp [List.getLast?_cons, last]
        | call _ => simp
        | halt | jump _ | conditionalJump _ => simp [only.2.2.2]
      · -- A label line ends the block, and carries nothing else.
        obtain ⟨later, labelled⟩ := not_or.mp opens
        obtain ⟨name, label⟩ := Option.ne_none_iff_exists'.mp labelled
        cases Bool.eq_false_iff.mpr later
        cases alone (by simp [label])
        rw [followRun_label label]
        simp [only.2.2.2]

namespace Inlining

open CallChain
open Relation (ReflTransGen)

variable {root : Level} {state next last : Inlining} {filling other : Filling} {id : Nat}

theorem LeadsOn.length_eq {asked : Filling → Prop} {inner : LevelInstance} {outer : CallChain} {ending : Ending}
    {targets : List Nat} (leads : LeadsOn asked inner outer ending targets) :
    (targets.length = 1 ∨ targets.length = 2) ∧
      (targets.length = 2 ↔ ∃ label line position, ending = .conditionalJump label line position) := by
  cases ending with
  | leave | halt =>
      cases leads
      simp
  | label _ _ | jump _ _ =>
      obtain ⟨_, rfl, _⟩ := leads
      simp
  | call _ _ _ =>
      obtain ⟨_, _, _, rfl, _⟩ := leads
      simp
  | conditionalJump _ _ _ =>
      obtain ⟨_, _, rfl, _⟩ := leads
      simp

/-! ## Steps of a construction -/

def Covered (state : Inlining) (id : Nat) : Prop :=
  id ∈ state.filled ∨ ∃ filling ∈ state.waiting, filling.block = id

/-- What any further step does: it fills the block that comes first, or leaves all blocks as they are where that one is
    filled already. -/
theorem Built.step_cases (wf : root.WellFormed) (built : Built root state) (leads : Leads state next) :
    ((∀ filling ∈ state.waiting.head?, filling.block ∈ state.filled) ∧ next.graph = state.graph ∧
        next.filled = state.filled ∧ ∀ id, Covered state id → Covered next id) ∨
      ∃ filling rest calls, state.waiting = filling :: rest ∧ filling.block ∉ state.filled ∧
        Opened root filling.chain calls ∧ Fills root filling { state with waiting := rest } next := by
  rcases Inlining.step_cases leads with ⟨none, rfl⟩ | ⟨filling, rest, head, ⟨already, rfl⟩ | ⟨empty, run⟩⟩
  · exact .inl ⟨by simp [none], rfl, rfl, fun _ covered => covered⟩
  · refine .inl ⟨by simpa [head] using already, rfl, rfl, ?_⟩
    rintro id (filled | ⟨other, waits, rfl⟩)
    · exact .inl filled
    · rcases List.mem_cons.mp (head ▸ waits) with rfl | later
      · exact .inl already
      · exact .inr ⟨other, later, rfl⟩
  · obtain ⟨spot, calls, granted⟩ := (built.sound wf).waiting filling (head ▸ List.mem_cons_self)
    exact .inr ⟨filling, rest, calls, head, empty, granted.opened, fill_fills wf granted.opened granted.named run⟩

/-! ## No block is left out -/

theorem Fills.covered (fills : Fills root filling state next)
    (before : ∀ id < state.graph.size, id = filling.block ∨ Covered state id) :
    ∀ id < next.graph.size, Covered next id := by
  intro id inside
  rcases fills.made id inside with old | new
  · rcases before id old with rfl | filled | ⟨other, waits, same⟩
    · exact .inl (fills.filled ▸ List.mem_cons_self)
    · exact .inl (fills.filled ▸ List.mem_cons_of_mem _ filled)
    · exact .inr ⟨other, fills.still other waits, same⟩
  · exact .inr new

/-- In every state that the construction comes to, each block of the graph is filled or waits. -/
theorem Built.covered (wf : root.WellFormed) (built : Built root state) : ∀ id < state.graph.size, Covered state id := by
  obtain ⟨second, leads, further⟩ := built
  induction further with
  | refl =>
      refine (first_fills wf leads).covered (fun id inside => ?_)
      have either : id = BlockGraph.start ∨ id = BlockGraph.halt := by
        simp only [BlockGraph.size, BlockGraph.initial, BlockGraph.start, BlockGraph.halt, List.length_cons,
          List.length_nil] at inside ⊢
        omega
      exact either.imp_right (fun exit => .inl (List.mem_singleton.mpr exit))
  | @tail middle last before step ih =>
      have there : Built root middle := ⟨second, leads, before⟩
      rcases there.step_cases wf step with ⟨_, graph, _, still⟩ | ⟨filling, rest, _, head, _, _, fills⟩
      · exact fun id inside => still id (ih id (graph ▸ inside))
      · refine fills.covered (fun id inside => ?_)
        rcases ih id inside with filled | ⟨other, waits, rfl⟩
        · exact .inr (.inl filled)
        · rcases List.mem_cons.mp (head ▸ waits) with rfl | later
          · exact .inl rfl
          · exact .inr (.inr ⟨other, later, rfl⟩)

/-! ## Blocks are filled once -/

/-- Whether a block is filled from a place on the way to a state: the place comes up while the block is not filled. -/
def FilledFrom (root : Level) (last : Inlining) (filling : Filling) : Prop :=
  ∃ state rest next, ReflTransGen Leads (.initial root) state ∧ state.waiting = filling :: rest ∧
    filling.block ∉ state.filled ∧ Leads state next ∧ ReflTransGen Leads next last

theorem FilledFrom.step (filledFrom : FilledFrom root state filling) (leads : Leads state next) :
    FilledFrom root next filling := by
  obtain ⟨earlier, rest, behind, before, head, empty, fills, further⟩ := filledFrom
  exact ⟨earlier, rest, behind, before, head, empty, fills, further.tail leads⟩

/-- What happened when a block was filled: the block was blank, and the place is one of the program. -/
theorem exists_fills (wf : root.WellFormed) {rest : List Filling} (before : ReflTransGen Leads (.initial root) state)
    (head : state.waiting = filling :: rest) (empty : filling.block ∉ state.filled) (leads : Leads state next) :
    Built root next ∧ (∃ calls, Opened root filling.chain calls) ∧ ∃ earlier : Inlining,
      earlier.graph.content filling.block = ([], [], []) ∧ Fills root filling earlier next := by
  rcases before.cases_head with rfl | ⟨second, start, onward⟩
  · cases head
    exact ⟨⟨next, leads, .refl⟩, ⟨[], .program⟩, _, rfl, first_fills wf leads⟩
  · have built : Built root state := ⟨second, start, onward⟩
    refine ⟨built.step leads, ?_⟩
    rcases built.step_cases wf leads with ⟨already, _⟩ | ⟨_, _, calls, head', _, opened, fills⟩
    · exact absurd (already filling (by simp [head])) empty
    · cases head.symm.trans head'
      exact ⟨⟨calls, opened⟩, { state with waiting := rest }, (built.sound wf).fresh filling.block empty, fills⟩

theorem Built.content_eq (wf : root.WellFormed) (built : Built root state) (further : ReflTransGen Leads state last)
    (filled : id ∈ state.filled) : last.graph.content id = state.graph.content id := by
  induction further with
  | refl => rfl
  | tail before step ih =>
      rw [← ih]
      rcases (built.trans before).step_cases wf step with ⟨_, graph, _⟩ | ⟨filling, rest, _, _, empty, _, fills⟩
      · rw [graph]
      · have kept := (built.carries wf before).filled id filled
        exact fills.others id (fun same => empty (same ▸ kept))

theorem FilledFrom.written (wf : root.WellFormed) (filledFrom : FilledFrom root last filling) :
    (∃ calls, Opened root filling.chain calls) ∧ Written last.graph (HandedOut root last) filling := by
  obtain ⟨state, rest, next, before, head, empty, leads, further⟩ := filledFrom
  obtain ⟨built, opened, earlier, blank, fills⟩ := exists_fills wf before head empty leads
  have filled : filling.block ∈ next.filled := fills.filled ▸ List.mem_cons_self
  exact ⟨opened, (fills.written blank).mono (fun other waits => ⟨next, built, waits, further⟩)
    (built.content_eq wf further filled)⟩

/-- Each filled block but the exit was filled from a place. -/
theorem Built.exists_filledFrom (wf : root.WellFormed) (built : Built root state) :
    ∀ id ∈ state.filled, id = BlockGraph.halt ∨ ∃ filling, FilledFrom root state filling ∧ filling.block = id := by
  obtain ⟨second, leads, further⟩ := built
  induction further with
  | refl =>
      intro id filled
      rw [(first_fills wf leads).filled] at filled
      rcases List.mem_cons.mp filled with rfl | exit
      · have empty : BlockGraph.start ∉ [BlockGraph.halt] := by decide
        exact .inr ⟨first root, ⟨.initial root, [], second, .refl, rfl, empty, leads, .refl⟩, rfl⟩
      · exact .inl (List.mem_singleton.mp exit)
  | @tail middle last before step ih =>
      have there : Built root middle := ⟨second, leads, before⟩
      have kept : ∀ id ∈ middle.filled, id = BlockGraph.halt ∨
          ∃ filling, FilledFrom root last filling ∧ filling.block = id := by
        intro id filled
        refine (ih id filled).imp_right ?_
        rintro ⟨filling, filledFrom, same⟩
        exact ⟨filling, filledFrom.step step, same⟩
      rcases there.step_cases wf step with ⟨_, _, same, _⟩ | ⟨filling, rest, _, head, empty, _, fills⟩
      · rwa [same]
      · intro id filled
        rw [fills.filled] at filled
        rcases List.mem_cons.mp filled with rfl | earlier
        · exact .inr ⟨filling, ⟨middle, rest, last, .head leads before, head, empty, step, .refl⟩, rfl⟩
        · exact kept id earlier

theorem filled_of_leads (wf : root.WellFormed) {rest : List Filling} {later : Inlining}
    (before : ReflTransGen Leads (.initial root) state) (head : state.waiting = filling :: rest)
    (empty : filling.block ∉ state.filled) (leads : Leads state next) (further : ReflTransGen Leads state later) :
    later = state ∨ filling.block ∈ later.filled := by
  rcases further.cases_head with rfl | ⟨behind, leads', onward⟩
  · exact .inl rfl
  · cases leads.symm.trans leads'
    obtain ⟨built, _, _, _, fills⟩ := exists_fills wf before head empty leads
    exact .inr ((built.carries wf onward).filled _ (fills.filled ▸ List.mem_cons_self))

theorem FilledFrom.unique (wf : root.WellFormed) (filledFrom : FilledFrom root last filling)
    (filledFrom' : FilledFrom root last other) (same : filling.block = other.block) : filling = other := by
  obtain ⟨state, rest, next, before, head, empty, leads, _⟩ := filledFrom
  obtain ⟨state', rest', next', before', head', empty', leads', _⟩ := filledFrom'
  have determined : Relator.RightUnique (α := Inlining) Leads := fun a b c ab ac => Except.ok.inj (ab.symm.trans ac)
  have equal : state' = state := by
    rcases ReflTransGen.total_of_right_unique determined before before' with onward | onward
    · exact (filled_of_leads wf before head empty leads onward).resolve_right (fun filled => empty' (same ▸ filled))
    · exact ((filled_of_leads wf before' head' empty' leads' onward).resolve_right
        (fun filled => empty (same ▸ filled))).symm
  cases equal
  cases head.symm.trans head'
  rfl

/-! ## The shape of a finished graph -/

/-- What the graph that a construction has come to looks like. -/
structure Shaped (root : Level) (last : Inlining) : Prop where
  /-- The exit holds no lines and leads nowhere. -/
  exit : (last.graph.block BlockGraph.halt).lines = [] ∧ last.graph.branches BlockGraph.halt = []
  /-- Every branch leads to a block of the graph. -/
  inside : ∀ id < last.graph.size, ∀ target ∈ last.graph.branches id, target < last.graph.size
  /-- No block is filled twice, and none from two places. -/
  once : last.filled.Nodup ∧ ∀ filling other, FilledFrom root last filling → FilledFrom root last other →
    filling.block = other.block → filling = other
  /-- Every block but the exit is filled from a place in an instance of a level. It leads to one block or to two, and to
      two exactly if its last line is a conditional jump of this level. -/
  ways : ∀ id < last.graph.size, id ≠ BlockGraph.halt → ∃ filling inner outer, FilledFrom root last filling ∧
    filling.block = id ∧ filling.chain = inner :: outer ∧
    (last.graph.block id).lines = (inner.level.runFrom filling.position).1 ∧
    ((last.graph.branches id).length = 1 ∨ (last.graph.branches id).length = 2) ∧
    ((last.graph.branches id).length = 2 ↔
      ((last.graph.block id).lastLine?.bind inner.level.conditionalJumpAt?).isSome = true)

theorem FilledFrom.ways (wf : root.WellFormed) (one : ∀ level, Level.Within root level → level.OneEach)
    (filledFrom : FilledFrom root last filling) : ∃ inner outer, filling.chain = inner :: outer ∧
      (last.graph.block filling.block).lines = (inner.level.runFrom filling.position).1 ∧
      ((last.graph.branches filling.block).length = 1 ∨ (last.graph.branches filling.block).length = 2) ∧
      ((last.graph.branches filling.block).length = 2 ↔
        ((last.graph.block filling.block).lastLine?.bind inner.level.conditionalJumpAt?).isSome = true) := by
  obtain ⟨⟨calls, opened⟩, written⟩ := filledFrom.written wf
  obtain ⟨inner, outer, head⟩ := opened.exists_cons
  obtain ⟨few, two⟩ := (written.leads head).length_eq
  refine ⟨inner, outer, head, written.lines head, few, two.trans ?_⟩
  have oneEach := one inner.level ((head ▸ opened).within inner List.mem_cons_self)
  have below : inner.level.lines.drop filling.position ⊆ inner.level.lines := (List.drop_sublist _ _).subset
  rw [Block.lastLine?, written.lines head]
  exact (Level.conditional_followRun oneEach true filling.position _ below).symm

end Inlining

/-- Every graph that is built of a program is well-shaped. -/
theorem BlockGraph.shaped_ofLevel {root : Level} {graph : BlockGraph} (wf : root.WellFormed)
    (one : ∀ level, Level.Within root level → level.OneEach) (made : ofLevel root = .ok graph) :
    ∃ last, Inlining.steps root.fillingBound (.initial root) = .ok last ∧ last.graph = graph ∧
      Inlining.Shaped root last := by
  obtain ⟨last, run, rfl, built, done⟩ := built_ofLevel wf made
  have sound := built.sound wf
  refine ⟨last, run, rfl, ?_, (fresh_ofLevel made).1.inside, ⟨sound.once, ?_⟩, ?_⟩
  · exact ⟨congrArg Prod.fst sound.exit.2, congrArg (fun content => content.2.2) sound.exit.2⟩
  · exact fun _ _ filledFrom filledFrom' same => filledFrom.unique wf filledFrom' same
  · intro id inside notExit
    have filled : id ∈ last.filled := by
      rcases built.covered wf id inside with filled | ⟨filling, waits, _⟩
      · exact filled
      · rw [done] at waits
        cases waits
    obtain ⟨filling, filledFrom, rfl⟩ := (built.exists_filledFrom wf id filled).resolve_left notExit
    obtain ⟨inner, outer, ways⟩ := filledFrom.ways wf one
    exact ⟨filling, inner, outer, filledFrom, rfl, ways⟩

namespace Inlining

def roundLevel : Level :=
  { Level.ofLines [0, 1, 2] with
    labels := [("loop", 0)]
    conditionalJumps := [(2, "loop")]
    calls := [(1, ⟨"gate", ["3"]⟩)]
    circuits := [("gate", gateLevel)] }

theorem roundLevel_wellFormed : roundLevel.WellFormed := by
  refine .intro (by decide) (by decide) ?_
  intro name body member
  cases List.mem_singleton.mp member
  exact .intro (by decide) (by decide) (fun none => by cases none)

theorem within_roundLevel {level : Level} (within : Level.Within roundLevel level) :
    level = roundLevel ∨ level = gateLevel :=
  within.of_single rfl rfl

end Inlining

theorem BlockGraph.shaped_roundLevel : ∃ last, ofLevel Inlining.roundLevel = .ok last.graph ∧
    Inlining.Shaped Inlining.roundLevel last := by
  obtain ⟨graph, made⟩ : ∃ graph, ofLevel Inlining.roundLevel = .ok graph := ⟨_, rfl⟩
  have one : ∀ level, Level.Within Inlining.roundLevel level → level.OneEach := by
    intro level within
    rcases Inlining.within_roundLevel within with rfl | rfl <;> unfold Level.OneEach <;> decide
  obtain ⟨last, _, rfl, shaped⟩ := shaped_ofLevel Inlining.roundLevel_wellFormed one made
  exact ⟨last, made, shaped⟩

end TwoLane
