import Mathlib.Data.List.Basic
import TwoLane.Block.Basic

/-! # Block graphs by name

Blocks are found by name, so the names in a graph under construction are all different, and a block keeps its
position and its name for good.
-/

namespace TwoLane.BlockGraph

def nameAt? (graph : BlockGraph) (id : Nat) : Option String :=
  (graph.blocks[id]?).map Block.name

def NamesDistinct (graph : BlockGraph) : Prop :=
  ∀ a b name, graph.nameAt? a = some name → graph.nameAt? b = some name → a = b

/-- Every block of the first graph is in the second one, at its position and with its name. -/
def Keeps (graph later : BlockGraph) : Prop :=
  ∀ id name, graph.nameAt? id = some name → later.nameAt? id = some name

theorem Keeps.refl (graph : BlockGraph) : graph.Keeps graph := fun _ _ h => h

theorem Keeps.trans {a b c : BlockGraph} (hab : a.Keeps b) (hbc : b.Keeps c) : a.Keeps c :=
  fun id name h => hbc id name (hab id name h)

theorem nameAt?_lt {graph : BlockGraph} {id name} (h : graph.nameAt? id = some name) :
    id < graph.size := by
  obtain ⟨block, found, _⟩ := Option.map_eq_some_iff.mp h
  exact (List.getElem?_eq_some_iff.mp found).1

theorem block_of_getElem? {graph : BlockGraph} {id block} (h : graph.blocks[id]? = some block) :
    graph.block id = block := by
  simp [BlockGraph.block, h]

theorem getElem?_block {graph : BlockGraph} {id : Nat} (inside : id < graph.size) :
    graph.blocks[id]? = some (graph.block id) := by
  rw [block, List.getElem?_eq_getElem inside]
  rfl

theorem block_of_le {graph : BlockGraph} {id : Nat} (outside : graph.size ≤ id) :
    graph.block id = .named "" := by
  rw [block, List.getElem?_eq_none outside]
  rfl

theorem branches_lt {graph : BlockGraph}
    (inside : ∀ id < graph.size, ∀ target ∈ graph.branches id, target < graph.size) :
    ∀ id, ∀ target ∈ graph.branches id, target < graph.size := by
  intro id target leads
  by_cases there : id < graph.size
  · exact inside id there target leads
  · rw [branches, block_of_le (Nat.le_of_not_lt there)] at leads
    cases leads

/-! ## Changing one block -/

theorem modify_blocks (graph : BlockGraph) (id other : Nat) (change : Block → Block) :
    (graph.modify id change).blocks[other]? =
      if id = other then (graph.blocks[other]?).map change else graph.blocks[other]? := by
  simp only [BlockGraph.modify, List.getElem?_modify]
  split <;> simp

theorem nameAt?_modify {graph : BlockGraph} {id : Nat} {change : Block → Block}
    (same : ∀ block, (change block).name = block.name) (other : Nat) :
    (graph.modify id change).nameAt? other = graph.nameAt? other := by
  simp only [nameAt?, modify_blocks]
  split
  · simp [Function.comp_def, same]
  · rfl

theorem nameAt?_addBranch (graph : BlockGraph) (source target id : Nat) :
    (graph.addBranch source target).nameAt? id = graph.nameAt? id := by
  apply nameAt?_modify
  intro _
  rfl

theorem block_modify_self {graph : BlockGraph} {id : Nat} (inside : id < graph.size)
    (change : Block → Block) : (graph.modify id change).block id = change (graph.block id) := by
  have found := List.getElem?_eq_getElem (show id < graph.blocks.length from inside)
  simp [BlockGraph.block, modify_blocks, found]

theorem block_modify_of_ne {graph : BlockGraph} {id other : Nat} (h : id ≠ other)
    (change : Block → Block) : (graph.modify id change).block other = graph.block other := by
  simp [BlockGraph.block, modify_blocks, h]

theorem size_modify (graph : BlockGraph) (id : Nat) (change : Block → Block) :
    (graph.modify id change).size = graph.size := by
  rw [size, modify, List.length_modify]
  rfl

theorem block_modify (graph : BlockGraph) (id other : Nat) (change : Block → Block) :
    (graph.modify id change).block other = graph.block other ∨
      id = other ∧ (graph.modify id change).block other = change (graph.block other) := by
  by_cases same : id = other
  · subst same
    by_cases inside : id < graph.size
    · exact .inr ⟨rfl, block_modify_self inside change⟩
    · refine .inl ?_
      have outside : (graph.modify id change).blocks[id]? = none := by
        refine List.getElem?_eq_none ?_
        rw [modify, List.length_modify]
        exact Nat.le_of_not_lt inside
      rw [block, block, outside, List.getElem?_eq_none (Nat.le_of_not_lt inside)]
  · exact .inl (block_modify_of_ne same change)

theorem view_modify {β : Type} {change : Block → Block} (view : Block → β)
    (blind : ∀ block, view (change block) = view block) (graph : BlockGraph) (id other : Nat) :
    view ((graph.modify id change).block other) = view (graph.block other) := by
  rcases graph.block_modify id other change with same | ⟨_, same⟩ <;> rw [same]
  exact blind _

theorem view_addBranch {β : Type} (view : Block → β)
    (blind : ∀ (block : Block) targets, view { block with branches := targets } = view block) (graph : BlockGraph)
    (source target id : Nat) : view ((graph.addBranch source target).block id) = view (graph.block id) :=
  view_modify view (fun block => blind block (block.branches ++ [target])) graph source id

/-! ## Asking for a block -/

theorem idOf?_eq_some {graph : BlockGraph} {name id} (h : graph.idOf? name = some id) :
    graph.nameAt? id = some name := by
  obtain ⟨inside, found, _⟩ := List.findIdx?_eq_some_iff_getElem.mp h
  rw [nameAt?, List.getElem?_eq_getElem inside]
  simpa using found

theorem nameAt?_ne_of_idOf?_eq_none {graph : BlockGraph} {name} (h : graph.idOf? name = none)
    (id : Nat) : graph.nameAt? id ≠ some name := by
  intro named
  obtain ⟨block, found, same⟩ := Option.map_eq_some_iff.mp named
  have other := List.findIdx?_eq_none_iff.mp h block (List.mem_of_getElem? found)
  simp [same] at other

theorem nameAt?_append (graph : BlockGraph) (block : Block) (id : Nat) :
    nameAt? ⟨graph.blocks ++ [block]⟩ id =
      if id = graph.size then some block.name else graph.nameAt? id := by
  unfold BlockGraph.size
  by_cases last : id = graph.blocks.length
  · simp [nameAt?, last]
  · rw [if_neg last]
    by_cases inside : id < graph.blocks.length
    · simp [nameAt?, List.getElem?_append_left inside]
    · have before : graph.blocks[id]? = none := List.getElem?_eq_none (by omega)
      have behind : (graph.blocks ++ [block])[id]? = none :=
        List.getElem?_eq_none (by simp; omega)
      simp [nameAt?, before, behind]

theorem nameAt?_request (graph : BlockGraph) (name : String) :
    (graph.request name).2.nameAt? (graph.request name).1 = some name := by
  unfold BlockGraph.request
  cases found : graph.idOf? name with
  | some id => exact idOf?_eq_some found
  | none => simp [nameAt?_append, Block.named]

theorem keeps_request (graph : BlockGraph) (name : String) :
    graph.Keeps (graph.request name).2 := by
  intro id other named
  unfold BlockGraph.request
  cases graph.idOf? name with
  | some _ => exact named
  | none =>
      have inside := nameAt?_lt named
      simp only [nameAt?_append]
      rw [if_neg (by omega)]
      exact named

theorem namesDistinct_request {graph : BlockGraph} (distinct : graph.NamesDistinct)
    (name : String) : (graph.request name).2.NamesDistinct := by
  unfold BlockGraph.request
  cases found : graph.idOf? name with
  | some _ => exact distinct
  | none =>
      have unused := nameAt?_ne_of_idOf?_eq_none found
      intro a b shared ha hb
      simp only [nameAt?_append, Block.named] at ha hb
      split at ha <;> split at hb
      · omega
      · exact absurd (Option.some.inj ha ▸ hb) (unused b)
      · exact absurd (Option.some.inj hb ▸ ha) (unused a)
      · exact distinct a b shared ha hb

/-- Asking for a block changes nothing but a position where there was no block. -/
theorem block_of_request (graph : BlockGraph) (name : String) (id : Nat) :
    (graph.request name).2.block id = graph.block id ∨
      graph.block id = .named "" ∧ (graph.request name).2.block id = .named name := by
  unfold BlockGraph.request
  cases graph.idOf? name with
  | some _ => exact .inl rfl
  | none =>
      by_cases inside : id < graph.blocks.length
      · exact .inl (by simp [BlockGraph.block, List.getElem?_append_left inside])
      · have before : graph.blocks[id]? = none := List.getElem?_eq_none (by omega)
        by_cases last : id = graph.blocks.length
        · exact .inr (by simp [BlockGraph.block, last])
        · have behind : (graph.blocks ++ [Block.named name])[id]? = none :=
            List.getElem?_eq_none (by simp; omega)
          exact .inl (by simp only [BlockGraph.block, behind, before])

theorem lt_size_or_eq_request {graph : BlockGraph} {name : String} {id : Nat}
    (inside : id < (graph.request name).2.size) : id < graph.size ∨ id = (graph.request name).1 := by
  unfold BlockGraph.request at inside ⊢
  cases found : graph.idOf? name with
  | some _ =>
      rw [found] at inside
      exact .inl inside
  | none =>
      simp only [found, size, List.length_append, List.length_singleton] at inside ⊢
      omega

theorem block_request (graph : BlockGraph) (name : String) (id : Nat) :
    ((graph.request name).2.block id).lines = (graph.block id).lines ∧
      ((graph.request name).2.block id).branches = (graph.block id).branches ∧
      ((graph.request name).2.block id).bindings = (graph.block id).bindings := by
  rcases graph.block_of_request name id with same | ⟨blank, new⟩
  · rw [same]
    exact ⟨rfl, rfl, rfl⟩
  · rw [blank, new]
    exact ⟨rfl, rfl, rfl⟩

end TwoLane.BlockGraph
