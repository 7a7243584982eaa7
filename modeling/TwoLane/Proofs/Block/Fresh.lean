import TwoLane.Block.Inlining
import TwoLane.Proofs.Block.Copies
import TwoLane.Proofs.Result

/-! # Graphs of levels

Whatever the level, its graph has branches to blocks of the graph only, and no copies, loops or ranks. While it is
built all blocks that wait, and all that follow a call, are blocks of the graph.
-/

namespace TwoLane

namespace BlockGraph

variable {graph : BlockGraph} {id source target : Nat}

theorem Fresh.modify (fresh : graph.Fresh) {change : Block → Block}
    (own : ∀ block, (change block).copiedFrom = block.copiedFrom)
    (loops : ∀ block, (change block).loopBack = block.loopBack) (ranks : ∀ block, (change block).rank = block.rank)
    (leads : ∀ block, ∀ target ∈ (change block).branches, target ∈ block.branches ∨ target < graph.size) :
    (graph.modify id change).Fresh where
  inside := by
    intro other inside target member
    rw [size_modify] at inside ⊢
    rw [branches] at member
    rcases graph.block_modify id other change with same | ⟨_, same⟩ <;> rw [same] at member
    · exact fresh.inside other inside target member
    · exact (leads _ target member).elim (fresh.inside other inside target) (fun here => here)
  own := by
    intro other
    rcases graph.block_modify id other change with same | ⟨_, same⟩ <;> rw [same]
    · exact fresh.own other
    · exact (own _).trans (fresh.own other)
  loopless := by
    intro other
    rcases graph.block_modify id other change with same | ⟨_, same⟩ <;> rw [same]
    · exact fresh.loopless other
    · exact (loops _).trans (fresh.loopless other)
  unranked := by
    intro other
    rcases graph.block_modify id other change with same | ⟨_, same⟩ <;> rw [same]
    · exact fresh.unranked other
    · exact (ranks _).trans (fresh.unranked other)

theorem Fresh.addBranch (fresh : graph.Fresh) (source : Nat) (inside : target < graph.size) :
    (graph.addBranch source target).Fresh := by
  refine fresh.modify (fun _ => rfl) (fun _ => rfl) (fun _ => rfl) (fun block other member => ?_)
  rcases List.mem_append.mp member with old | new
  · exact .inl old
  · exact .inr (List.mem_singleton.mp new ▸ inside)

theorem size_request (graph : BlockGraph) (name : String) :
    graph.size ≤ (graph.request name).2.size ∧ (graph.request name).1 < (graph.request name).2.size := by
  have inside := nameAt?_lt (nameAt?_request graph name)
  refine ⟨?_, inside⟩
  rw [request]
  split
  · exact Nat.le_refl _
  · rw [size, size, List.length_append]
    exact Nat.le_add_right _ _

theorem Fresh.request (fresh : graph.Fresh) (name : String) : (graph.request name).2.Fresh := by
  have keep : ∀ {β : Type} (field : Block → β) (value : β), (∀ id, field (graph.block id) = value) →
      field (.named name) = value → ∀ id, field ((graph.request name).2.block id) = value := by
    intro β field value old new id
    rcases graph.block_of_request name id with same | ⟨_, same⟩ <;> rw [same]
    · exact old id
    · exact new
  refine ⟨?_, keep _ _ fresh.own rfl, keep _ _ fresh.loopless rfl, keep _ _ fresh.unranked rfl⟩
  intro id _ target member
  rw [branches, (graph.block_request name id).2.1] at member
  exact Nat.lt_of_lt_of_le (branches_lt fresh.inside id target member) (graph.size_request name).1

end BlockGraph

namespace Inlining

/-- Whether a block to be filled, and what follows its calls, are blocks of a graph. -/
structure Housed (graph : BlockGraph) (filling : Filling) : Prop where
  block : filling.block < graph.size
  exits : ∀ inner ∈ filling.chain, inner.exit < graph.size

/-- A state whose graph is fresh and houses all blocks that wait. -/
structure Tidy (state : Inlining) : Prop where
  fresh : state.graph.Fresh
  halt : BlockGraph.halt < state.graph.size
  waiting : ∀ filling ∈ state.waiting, Housed state.graph filling

variable {state next : Inlining} {chain : CallChain} {id block position line : Nat}

theorem Housed.mono {graph later : BlockGraph} {filling : Filling} (housed : Housed graph filling)
    (larger : graph.size ≤ later.size) : Housed later filling :=
  ⟨Nat.lt_of_lt_of_le housed.block larger, fun inner member => Nat.lt_of_lt_of_le (housed.exits inner member) larger⟩

theorem findLabel?_subset {label : String} {home : CallChain} {mark : String}
    (found : chain.findLabel? label = some (home, mark, position)) : home ⊆ chain := by
  induction chain with
  | nil => cases found
  | cons inner outer ih =>
      rw [CallChain.findLabel?] at found
      split at found
      · cases found
        exact List.Subset.refl _
      · exact List.Subset.trans (ih found) (List.subset_cons_self _ _)

/-- What happens to a tidy state when a block is asked for: it stays tidy and houses the block. -/
structure Gives (state : Inlining) (id : Nat) (next : Inlining) : Prop where
  tidy : Tidy next
  larger : state.graph.size ≤ next.graph.size
  inside : id < next.graph.size

theorem gives_request (tidy : Tidy state) (name : String) (position : Nat)
    (exits : ∀ inner ∈ chain, inner.exit < state.graph.size) :
    Gives state (state.request name chain position).1 (state.request name chain position).2 := by
  obtain ⟨larger, inside⟩ := state.graph.size_request name
  refine ⟨⟨tidy.fresh.request name, Nat.lt_of_lt_of_le tidy.halt larger, ?_⟩, larger, inside⟩
  intro filling member
  rcases List.mem_append.mp member with old | new
  · exact (tidy.waiting filling old).mono larger
  · rw [List.mem_singleton.mp new]
    exact ⟨inside, fun inner member => Nat.lt_of_lt_of_le (exits inner member) larger⟩

theorem gives_following (tidy : Tidy state) (kind : String) (line position : Nat)
    {inner : LevelInstance} {outer : CallChain} (exits : ∀ other ∈ inner :: outer, other.exit < state.graph.size) :
    Gives state (state.following kind (inner :: outer) inner line position).1
      (state.following kind (inner :: outer) inner line position).2 := by
  rw [following]
  split
  · exact gives_request tidy _ _ exits
  · exact ⟨tidy, Nat.le_refl _, exits inner List.mem_cons_self⟩

theorem gives_target (tidy : Tidy state) (exits : ∀ inner ∈ chain, inner.exit < state.graph.size) {label : String}
    (asked : state.target chain label line = .ok (id, next)) : Gives state id next := by
  rw [target] at asked
  split at asked
  · next home mark position found =>
      cases asked
      exact gives_request tidy _ _ (fun inner member => exits inner (findLabel?_subset found member))
  · cases asked

theorem size_addBranch (state : Inlining) (source target : Nat) :
    (state.addBranch source target).graph.size = state.graph.size := by
  rw [Inlining.addBranch, BlockGraph.addBranch, BlockGraph.size_modify]

theorem Tidy.addBranch (tidy : Tidy state) (source : Nat) {target : Nat} (inside : target < state.graph.size) :
    Tidy (state.addBranch source target) where
  fresh := tidy.fresh.addBranch source inside
  halt := (size_addBranch state source target).symm ▸ tidy.halt
  waiting := fun filling member =>
    (tidy.waiting filling member).mono (Nat.le_of_eq (size_addBranch state source target).symm)

theorem tidy_enter (tidy : Tidy state) {inner : LevelInstance} {outer : CallChain} {call : Call}
    (exits : ∀ other ∈ inner :: outer, other.exit < state.graph.size)
    (entered : state.enter (inner :: outer) inner block call line position = .ok next) : Tidy next := by
  obtain ⟨body, _, rest⟩ := Result.of_bind_eq_ok entered
  cases rest
  have behind := gives_following tidy "return." line position exits
  have exits' : ∀ other ∈ (⟨body, inner.mark ++ "@" ++ toString line,
      (state.following "return." (inner :: outer) inner line position).1,
      passQubits body.formals call.qubits inner.bindings, some call.name⟩ : LevelInstance) :: inner :: outer,
      other.exit < (state.following "return." (inner :: outer) inner line position).2.graph.size :=
    List.forall_mem_cons.mpr ⟨behind.inside, fun other member => Nat.lt_of_lt_of_le (exits other member) behind.larger⟩
  have entry := gives_request behind.tidy (call.name ++ (inner.mark ++ "@" ++ toString line)) 0 exits'
  exact entry.tidy.addBranch block entry.inside

theorem tidy_close (tidy : Tidy state) {inner : LevelInstance} {outer : CallChain} {ending : Ending}
    (exits : ∀ other ∈ inner :: outer, other.exit < state.graph.size)
    (closed : state.close (inner :: outer) inner block ending = .ok next) : Tidy next := by
  cases ending with
  | leave =>
      cases closed
      exact tidy.addBranch block (exits inner List.mem_cons_self)
  | halt =>
      cases closed
      exact tidy.addBranch block tidy.halt
  | label name position =>
      cases closed
      have given := gives_request tidy (name ++ inner.mark) position exits
      exact given.tidy.addBranch block given.inside
  | call call line position => exact tidy_enter tidy exits closed
  | jump label line =>
      obtain ⟨⟨id, middle⟩, asked, led⟩ := Result.of_bind_eq_ok closed
      cases led
      have given := gives_target tidy exits asked
      exact given.tidy.addBranch block given.inside
  | conditionalJump label line position =>
      obtain ⟨⟨id, middle⟩, asked, led⟩ := Result.of_bind_eq_ok closed
      cases led
      have given := gives_target tidy exits asked
      have exits' : ∀ other ∈ inner :: outer, other.exit < (middle.addBranch block id).graph.size := by
        intro other member
        rw [size_addBranch]
        exact Nat.lt_of_lt_of_le (exits other member) given.larger
      have behind := gives_following (given.tidy.addBranch block given.inside) "after." line position exits'
      exact behind.tidy.addBranch block behind.inside

theorem tidy_fill (tidy : Tidy state) {filling : Filling} (housed : Housed state.graph filling)
    (run : state.fill filling = .ok next) : Tidy next := by
  obtain ⟨chain, block, position⟩ := filling
  cases chain with
  | nil =>
      cases run
      exact tidy
  | cons inner outer =>
      have written : ∀ change : Block → Block, (∀ b, (change b).copiedFrom = b.copiedFrom) →
          (∀ b, (change b).loopBack = b.loopBack) → (∀ b, (change b).rank = b.rank) →
          (∀ b, (change b).branches = b.branches) →
          Tidy ⟨state.graph.modify block change, state.waiting, block :: state.filled⟩ := by
        intro change own loops ranks branches
        have same := BlockGraph.size_modify state.graph block change
        exact ⟨tidy.fresh.modify own loops ranks (fun b _ member => .inl (branches b ▸ member)), same.symm ▸ tidy.halt,
          fun other member => (tidy.waiting other member).mono (Nat.le_of_eq same.symm)⟩
      rw [fill] at run
      refine tidy_close ?_ ?_ run
      · exact written _ (fun _ => rfl) (fun _ => rfl) (fun _ => rfl) (fun _ => rfl)
      · intro other member
        rw [BlockGraph.size_modify]
        exact housed.exits other member

theorem tidy_step (tidy : Tidy state) (run : state.step = .ok next) : Tidy next := by
  rw [step] at run
  split at run
  · cases run
    exact tidy
  · next filling rest waits =>
      have further : Tidy { state with waiting := rest } :=
        ⟨tidy.fresh, tidy.halt, fun other member => tidy.waiting other (waits ▸ List.mem_cons_of_mem _ member)⟩
      split at run
      · cases run
        exact further
      · exact tidy_fill further (tidy.waiting filling (waits ▸ List.mem_cons_self)) run

theorem tidy_steps {bound : Nat} (tidy : Tidy state) (run : steps bound state = .ok next) : Tidy next := by
  induction bound generalizing state with
  | zero =>
      cases run
      exact tidy
  | succ bound ih =>
      rw [steps] at run
      split at run
      · cases run
        exact tidy
      · obtain ⟨middle, first, further⟩ := Result.of_bind_eq_ok run
        exact ih (tidy_step tidy first) further

theorem fresh_initial : BlockGraph.initial.Fresh where
  inside := by
    intro id inside target member
    rcases id with _ | _ | id <;> cases member
  own := fun id => by rcases id with _ | _ | id <;> rfl
  loopless := fun id => by rcases id with _ | _ | id <;> rfl
  unranked := fun id => by rcases id with _ | _ | id <;> rfl

theorem tidy_initial (root : Level) : Tidy (.initial root) where
  fresh := fresh_initial
  halt := Nat.lt_succ_self 1
  waiting := by
    intro filling member
    rw [List.mem_singleton.mp member]
    refine ⟨Nat.zero_lt_two, fun inner here => ?_⟩
    rw [List.mem_singleton.mp here]
    exact Nat.lt_succ_self 1

end Inlining

theorem BlockGraph.fresh_ofLevel {level : Level} {graph : BlockGraph} (built : BlockGraph.ofLevel level = .ok graph) :
    graph.Fresh ∧ BlockGraph.halt < graph.size := by
  rw [BlockGraph.ofLevel] at built
  split at built
  · cases built
    exact ⟨Inlining.fresh_initial.addBranch _ (by decide), by decide⟩
  · obtain ⟨last, run, rfl⟩ := Result.of_map_eq_ok built
    have tidy := Inlining.tidy_steps (Inlining.tidy_initial level) run
    exact ⟨tidy.fresh, tidy.halt⟩

theorem BlockGraph.inhabited_ofLevel {level : Level} {graph : BlockGraph}
    (built : BlockGraph.ofLevel level = .ok graph) : BlockGraph.start < graph.size :=
  Nat.lt_trans (Nat.lt_succ_self 0) (BlockGraph.fresh_ofLevel built).2

end TwoLane
