import TwoLane.Proofs.Chain.Threads
import TwoLane.Proofs.Memory.Indexed
import TwoLane.Proofs.Schedule.Emission

/-! # Instructions that may change places

Two instructions of a list are tied if one depends on the other or if both reset all qubits. An order that moves no two
tied instructions past each other is reached by swaps of neighbours that are not tied. In a new list such neighbours
share no memory and no qubit: names that may overlap are on one chain, and a reset of all qubits is on each chain of a
qubit.
-/

namespace TwoLane

/-! ## Swaps of neighbours -/

/-- Whether a list comes from another one by swaps of neighbours that are free to change places. -/
inductive Swaps {α : Type} (free : α → α → Prop) : List α → List α → Prop
  | nil : Swaps free [] []
  | cons (a : α) {l l' : List α} (further : Swaps free l l') : Swaps free (a :: l) (a :: l')
  | swap {a b : α} (l : List α) (apart : free a b) : Swaps free (a :: b :: l) (b :: a :: l)
  | trans {l m n : List α} (first : Swaps free l m) (second : Swaps free m n) : Swaps free l n

namespace Swaps

variable {α β : Type} {free : α → α → Prop} {a : α} {l l' front back : List α}

theorem refl (l : List α) : Swaps free l l := by
  induction l with
  | nil => exact .nil
  | cons a l ih => exact .cons a ih

theorem perm (swaps : Swaps free l l') : l.Perm l' := by
  induction swaps with
  | nil => exact .nil
  | cons a _ ih => exact ih.cons a
  | swap l _ => exact .swap _ _ l
  | trans _ _ ih ih' => exact ih.trans ih'

theorem imp {free' : α → α → Prop} (weaker : ∀ a b, free a b → free' a b) (swaps : Swaps free l l') :
    Swaps free' l l' := by
  induction swaps with
  | nil => exact .nil
  | cons a _ ih => exact .cons a ih
  | swap l apart => exact .swap l (weaker _ _ apart)
  | trans _ _ ih ih' => exact .trans ih ih'

/-- An element moves behind others that it may change places with. -/
theorem behind (each : ∀ x ∈ front, free a x) : Swaps free (a :: (front ++ back)) (front ++ a :: back) := by
  induction front with
  | nil => exact .refl _
  | cons x rest ih =>
      have further := ih (fun other member => each other (List.mem_cons_of_mem _ member))
      exact .trans (.swap (rest ++ back) (each x List.mem_cons_self)) (.cons x further)

theorem filterMap {f : α → Option β} {free' : β → β → Prop}
    (each : ∀ a b, free a b → ∀ x ∈ f a, ∀ y ∈ f b, free' x y) (swaps : Swaps free l l') :
    Swaps free' (l.filterMap f) (l'.filterMap f) := by
  induction swaps with
  | nil => exact .nil
  | @cons a l l' _ ih =>
      rw [List.filterMap_cons, List.filterMap_cons]
      cases f a with
      | none => exact ih
      | some x => exact .cons x ih
  | @swap a b l apart =>
      simp only [List.filterMap_cons]
      cases first : f a with
      | none => exact .refl _
      | some x =>
          cases second : f b with
          | none => exact .refl _
          | some y => exact .swap _ (each a b apart x first y second)
  | trans _ _ ih ih' => exact .trans ih ih'

/-- Orders of the same elements are reached from each other if pairs that they order differently may change places. -/
theorem of_perm (distinct : l.Nodup) (perm : l.Perm l')
    (turned : l'.Pairwise (fun b a => [a, b].Sublist l → free a b)) : Swaps free l l' := by
  -- what stands in front of the first element of one order in the other one may change places with it
  induction l generalizing l' with
  | nil =>
      rw [List.nil_perm.mp perm]
      exact .nil
  | cons a rest ih =>
      obtain ⟨front, back, rfl⟩ := List.append_of_mem (perm.subset List.mem_cons_self)
      have others : rest.Perm (front ++ back) := (perm.trans List.perm_middle).cons_inv
      have fewer : (front ++ back).Sublist (front ++ a :: back) := (List.sublist_cons_self a back).append_left front
      refine .trans (.cons a (ih (List.nodup_cons.mp distinct).2 others ?_)) (.behind fun x member => ?_)
      · exact (turned.sublist fewer).imp (fun both sublist => both (sublist.cons a))
      · have later : x ∈ rest := others.mem_iff.mpr (List.mem_append_left _ member)
        exact (List.pairwise_append.mp turned).2.2 x member a List.mem_cons_self
          ((List.singleton_sublist.mpr later).cons_cons a)

end Swaps

/-! ## Ties -/

namespace InstructionList

open Execution (Ordered Covers resetsAll)

variable {list after : InstructionList} {names : List String} {a b : Nat} {x y : Instruction}

/-- Whether two instructions are tied: one depends on the other, or both reset all qubits. -/
def Tied (list : InstructionList) (a b : Nat) : Prop :=
  a ∈ list.dependencies b ∨ b ∈ list.dependencies a ∨ (resetsAll list a = true ∧ resetsAll list b = true)

instance (list : InstructionList) (a b : Nat) : Decidable (list.Tied a b) :=
  inferInstanceAs (Decidable (_ ∨ _))

/-- Whether a list is another one with its instructions in an order that moves no two tied ones past each other. -/
def Rearranges (list after : InstructionList) : Prop :=
  ∃ order, list.reorder order = .ok after ∧
    ∀ a b, list.Tied a b → [a, b].Sublist list.order → [a, b].Sublist order

/-- Whether two running instructions are not tied. -/
structure Loose (list : InstructionList) (a b : Nat) : Prop where
  first : a ∈ list.order
  second : b ∈ list.order
  differ : a ≠ b
  untied : ¬ list.Tied a b

theorem Loose.symm (loose : list.Loose a b) : list.Loose b a := by
  refine ⟨loose.second, loose.first, loose.differ.symm, fun tied => loose.untied ?_⟩
  rcases tied with needed | needed | ⟨first, second⟩
  · exact .inr (.inl needed)
  · exact .inl needed
  · exact .inr (.inr ⟨second, first⟩)

theorem Rearranges.swaps (distinct : list.order.Nodup) (rearranges : list.Rearranges after) :
    ∃ order, after = { list with order := order } ∧ Swaps list.Loose list.order order := by
  obtain ⟨order, reordered, kept⟩ := rearranges
  obtain ⟨same, members, length⟩ := of_reorder_eq_ok reordered
  have perm : list.order.Perm order := by
    have sub : list.order.Subperm order := List.subperm_of_subset distinct (fun j => (members j).mpr)
    exact sub.perm_of_length_le (Nat.le_of_eq length)
  refine ⟨order, same, .of_perm distinct perm (List.pairwise_iff_forall_sublist.mpr fun {b a} turned before => ?_)⟩
  have ordered : a ≠ b := by
    have both := distinct.sublist before
    simpa using both
  refine ⟨before.subset (by simp), before.subset (by simp), ordered, fun tied => ?_⟩
  have places : ∀ {a b : Nat}, [a, b].Sublist order → order.idxOf a < order.idxOf b :=
    List.pairwise_iff_forall_sublist.mp (Schedule.pairwise_idxOf (perm.nodup distinct))
  exact Nat.lt_asymm (places turned) (places (kept a b tied before))

end InstructionList

/-! ## Instructions apart from each other -/

namespace Instruction

/-- The memory references that an instruction touches or that its operation names. -/
def mentioned (node : Instruction) : List String :=
  node.memory.map MemoryOccurrence.name ++ node.operation.memoryAccesses.map MemoryAccess.name

/-- Whether one of two instructions resets all qubits although the other one touches or resets any. -/
def Clears (x y : Instruction) : Prop :=
  x.operation.isGlobalReset = true ∧ (y.operation.isGlobalReset = true ∨ y.qubits ≠ [])

/-- Whether two instructions share no memory and no qubit. -/
structure Apart (x y : Instruction) : Prop where
  memory : ∀ a ∈ x.mentioned, ∀ b ∈ y.mentioned, Memory.mayOverlap a b = false
  qubits : ∀ q, .qubit q ∈ x.resources → .qubit q ∉ y.resources
  leaves : ¬ Clears x y
  left : ¬ Clears y x

theorem Apart.symm {x y : Instruction} (apart : Apart x y) : Apart y x :=
  ⟨fun a here b there => (Memory.mayOverlap_comm a b).trans (apart.memory b there a here),
    fun q here there => apart.qubits q there here, apart.left, apart.leaves⟩

end Instruction

namespace InstructionList

open Execution (Ordered Covers resetsAll)
open Instruction (Apart Clears Touches)

variable {list after : InstructionList} {names : List String} {a b : Nat} {x y : Instruction}

theorem tied_of_isHolder (chained : list.Chained) (differ : a ≠ b) {resource : Resource}
    (first : list.isHolder resource a = true) (second : list.isHolder resource b = true) : list.Tied a b := by
  rcases Nat.lt_or_gt_of_ne differ with less | more
  · exact .inl (chained.mem_dependencies second first less)
  · exact .inr (.inl (chained.mem_dependencies first second more))

/-- Memory references of two instructions that may overlap put both on one chain. -/
theorem exists_shared (touches : Touches names x.operation.memoryAccesses x.memory)
    (touches' : Touches names y.operation.memoryAccesses y.memory) {m n : String}
    (first : m ∈ x.memory.map MemoryOccurrence.name) (second : n ∈ y.memory.map MemoryOccurrence.name)
    (overlaps : Memory.mayOverlap m n = true) :
    ∃ name, name ∈ x.memory.map MemoryOccurrence.name ∧ name ∈ y.memory.map MemoryOccurrence.name := by
  obtain ⟨mListed, access, own, mOverlaps⟩ := (touches.names m).mp first
  obtain ⟨nListed, access', own', nOverlaps⟩ := (touches'.names n).mp second
  by_cases same : m = n
  · exact ⟨m, first, same ▸ second⟩
  · cases part : Memory.isElement m with
    | false =>
        exact ⟨m, first, (touches'.names m).mpr ⟨mListed, access', own', Indexed.mayOverlap_trans part overlaps nOverlaps⟩⟩
    | true =>
        have whole : Memory.isElement n = false := by
          simp only [Memory.mayOverlap, Bool.or_eq_true, beq_iff_eq, same, false_or, Bool.and_eq_true, part] at overlaps
          simpa using overlaps.2
        rw [Memory.mayOverlap_comm] at overlaps
        exact ⟨n, (touches.names n).mpr ⟨nListed, access, own, Indexed.mayOverlap_trans whole overlaps mOverlaps⟩, second⟩

theorem Loose.not_shared (loose : list.Loose a b) (chained : list.Chained) (found : list.nodes[a]? = some x)
    (found' : list.nodes[b]? = some y) {resource : Resource} (here : resource ∈ x.resources) : resource ∉ y.resources :=
  fun there => loose.untied (tied_of_isHolder chained loose.differ (isHolder_iff.mpr ⟨loose.first, x, found, here⟩)
    (isHolder_iff.mpr ⟨loose.second, y, found', there⟩))

/-- A reset of all qubits is tied to all other ones and to all that touch a qubit. -/
theorem Loose.not_clears (loose : list.Loose a b) (ordered : Ordered list) (found : list.nodes[a]? = some x)
    (found' : list.nodes[b]? = some y) : ¬ Clears x y := by
  rintro ⟨global, global' | touching⟩
  · refine loose.untied (.inr (.inr ⟨?_, ?_⟩))
    · simpa [resetsAll, found] using global
    · simpa [resetsAll, found'] using global'
  · obtain ⟨o, member⟩ := List.exists_mem_of_ne_nil _ touching
    have there : .qubit o.name ∈ y.resources := List.mem_append_right _ (List.mem_map_of_mem member)
    have here := (ordered.covers loose.first found).resets global o.name b
      (isHolder_iff.mpr ⟨loose.second, y, found', there⟩)
    exact loose.not_shared ordered.chained found found' here there

theorem mem_memory_of_mentioned (covers : Covers list x) {name : String} (mentioned : name ∈ x.mentioned) :
    name ∈ x.memory.map MemoryOccurrence.name := by
  rcases List.mem_append.mp mentioned with occurs | named
  · exact occurs
  · have resource := covers.touches _ (Execution.memory_mem_touched.mpr (List.mem_map.mp named))
    simpa [Instruction.resources] using resource

/-- Instructions of a list that are not tied share no memory and no qubit. -/
theorem Loose.apart (loose : list.Loose a b) (ordered : Ordered list) (complete : Complete names list)
    (found : list.nodes[a]? = some x) (found' : list.nodes[b]? = some y) : Apart x y where
  memory := by
    intro m first n second
    by_contra overlaps
    obtain ⟨name, here, there⟩ := exists_shared (complete found) (complete found')
      (mem_memory_of_mentioned (ordered.covers loose.first found) first)
      (mem_memory_of_mentioned (ordered.covers loose.second found') second) (Bool.not_eq_false _ ▸ overlaps)
    have shared : .memory name ∉ y.resources :=
      loose.not_shared ordered.chained found found' (by simpa [Instruction.resources] using here)
    exact shared (by simpa [Instruction.resources] using there)
  qubits := fun q here => loose.not_shared ordered.chained found found' here
  leaves := loose.not_clears ordered found found'
  left := loose.symm.not_clears ordered found' found

theorem Rearranges.running (rearranges : list.Rearranges after) (ordered : Ordered list) (complete : Complete names list) :
    Swaps Apart list.running after.running := by
  obtain ⟨order, rfl, swaps⟩ := rearranges.swaps ordered.chained.order
  exact swaps.filterMap (fun a b loose x found y found' => loose.apart ordered complete found found')

end InstructionList

end TwoLane
