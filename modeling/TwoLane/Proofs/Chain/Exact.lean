import TwoLane.Proofs.Chain.Links
import TwoLane.Proofs.Chain.Occurrences

/-! # Exact chains

The running instructions that touch a resource form a chain in the order of their numbers: each is linked
to the nearest one before it and the nearest one behind it, and to nothing else.
-/

namespace TwoLane

/-! ## Nearest numbers -/

namespace Nearest

/-- The last number below a bound that has a property. -/
def below? (p : Nat → Bool) (bound : Nat) : Option Nat :=
  ((List.range bound).filter p).getLast?

/-- The first number above another one, and below a bound, that has a property. -/
def above? (p : Nat → Bool) (bound id : Nat) : Option Nat :=
  (List.range bound).find? (fun i => id < i && p i)

theorem below?_succ (p : Nat → Bool) (bound : Nat) :
    below? p (bound + 1) = if p bound then some bound else below? p bound := by
  rw [below?, List.range_succ, List.filter_append]
  by_cases here : p bound
  · simp [here]
  · simp [here, below?]

theorem below?_eq_some {p : Nat → Bool} {bound id : Nat} :
    below? p bound = some id ↔ id < bound ∧ p id = true ∧ ∀ j, id < j → j < bound → p j = false := by
  induction bound with
  | zero => simp [below?]
  | succ bound ih =>
      rw [below?_succ]
      split
      · next here =>
          rw [Option.some.injEq]
          constructor
          · rintro rfl
            exact ⟨by omega, here, fun j above inside => by omega⟩
          · rintro ⟨inside, holds, between⟩
            by_contra differ
            have := between bound (by omega) (by omega)
            simp_all
      · next absent =>
          rw [ih]
          constructor
          · rintro ⟨inside, holds, between⟩
            refine ⟨by omega, holds, fun j above below => ?_⟩
            rcases Nat.lt_succ_iff_lt_or_eq.mp below with below | rfl
            · exact between j above below
            · simpa using absent
          · rintro ⟨inside, holds, between⟩
            refine ⟨?_, holds, fun j above below => between j above (by omega)⟩
            rcases Nat.lt_succ_iff_lt_or_eq.mp inside with inside | rfl
            · exact inside
            · exact absurd holds absent

theorem below?_eq_none {p : Nat → Bool} {bound : Nat} :
    below? p bound = none ↔ ∀ j < bound, p j = false := by
  simp [below?]

theorem above?_eq_some {p : Nat → Bool} {bound id other : Nat} :
    above? p bound id = some other ↔
      id < other ∧ other < bound ∧ p other = true ∧ ∀ j, id < j → j < other → p j = false := by
  simp only [above?, List.find?_range_eq_some, Bool.and_eq_true, decide_eq_true_eq, List.mem_range,
    Bool.not_eq_true', Bool.and_eq_false_iff, decide_eq_false_iff_not]
  constructor
  · rintro ⟨⟨above, holds⟩, inside, between⟩
    exact ⟨above, inside, holds, fun j lower upper => (between j upper).resolve_left (by omega)⟩
  · rintro ⟨above, inside, holds, between⟩
    refine ⟨⟨above, holds⟩, inside, fun j upper => ?_⟩
    by_cases lower : id < j
    · exact .inr (between j lower upper)
    · exact .inl lower

theorem above?_eq_none {p : Nat → Bool} {bound id : Nat} :
    above? p bound id = none ↔ ∀ j, id < j → j < bound → p j = false := by
  simp only [above?, List.find?_eq_none, List.mem_range, Bool.and_eq_true, decide_eq_true_eq, not_and,
    Bool.not_eq_true]
  exact ⟨fun h j above inside => h j inside above, fun h j inside above => h j above inside⟩

/-- Of two neighbours each is the nearest one of the other. -/
theorem above?_of_below? {p : Nat → Bool} {bound id other : Nat} (inside : id < bound)
    (holds : p id = true) (h : below? p id = some other) : above? p bound other = some id := by
  obtain ⟨lower, _, between⟩ := below?_eq_some.mp h
  exact above?_eq_some.mpr ⟨lower, inside, holds, between⟩

theorem below?_of_above? {p : Nat → Bool} {bound id other : Nat} (holds : p id = true)
    (h : above? p bound id = some other) : below? p other = some id := by
  obtain ⟨upper, _, _, between⟩ := above?_eq_some.mp h
  exact below?_eq_some.mpr ⟨upper, holds, between⟩

end Nearest

/-! ## Chains of a list -/

namespace InstructionList

/-- Whether the instruction of a number touches a resource. -/
def holdsAt (list : InstructionList) (resource : Resource) (id : Nat) : Bool :=
  ((list.nodes[id]?).map (fun node => node.holds resource)).getD false

/-- Whether the instruction of a number runs and touches a resource. -/
def isHolder (list : InstructionList) (resource : Resource) (id : Nat) : Bool :=
  list.contains id && list.holdsAt resource id

def nearest (list : InstructionList) (resource : Resource) (id : Nat) : Links :=
  ⟨(Nearest.below? (list.isHolder resource) id).toList,
    (Nearest.above? (list.isHolder resource) list.nodes.length id).toList⟩

/-- The running instructions of a list are linked exactly along its chains. -/
structure Chained (list : InstructionList) : Prop where
  numbered : ∀ {id : Nat} {node : Instruction}, list.nodes[id]? = some node → node.id = id
  order : list.order.Nodup
  inside : ∀ id ∈ list.order, id < list.nodes.length
  distinct : ∀ {id : Nat} {node : Instruction}, list.nodes[id]? = some node → node.resources.Nodup
  exact : ∀ {id : Nat} {node : Instruction} {resource links}, id ∈ list.order →
    list.nodes[id]? = some node → node.links? resource = some links → links = list.nearest resource id

theorem Chained.exists_node {list : InstructionList} (chained : list.Chained) {id : Nat}
    (running : id ∈ list.order) : ∃ node, list.nodes[id]? = some node :=
  ⟨_, List.getElem?_eq_getElem (chained.inside id running)⟩

theorem isHolder_iff {list : InstructionList} {resource : Resource} {id : Nat} :
    list.isHolder resource id = true ↔
      id ∈ list.order ∧ ∃ node, list.nodes[id]? = some node ∧ resource ∈ node.resources := by
  simp only [isHolder, holdsAt, contains, Instruction.holds, Bool.and_eq_true,
    List.contains_iff_mem]
  cases list.nodes[id]? <;> simp

end InstructionList

/-! ## New lists -/

namespace Instruction

theorem withoutLinks_foldl (f : Resource → Links → Links) (resources : List Resource)
    (node : Instruction) :
    (resources.foldl (fun acc r => acc.modifyLinks r (f r)) node).withoutLinks =
      node.withoutLinks := by
  induction resources generalizing node with
  | nil => rfl
  | cons r rest ih => rw [List.foldl_cons, ih, withoutLinks_modifyLinks]

theorem links?_foldl (f : Resource → Links → Links) {resources : List Resource}
    (distinct : resources.Nodup) (node : Instruction) (resource : Resource) :
    (resources.foldl (fun acc r => acc.modifyLinks r (f r)) node).links? resource =
      if resource ∈ resources then (node.links? resource).map (f resource)
      else node.links? resource := by
  induction resources generalizing node with
  | nil => simp
  | cons r rest ih =>
      obtain ⟨absent, further⟩ := List.nodup_cons.mp distinct
      rw [List.foldl_cons, ih further, links?_modifyLinks]
      by_cases here : r = resource
      · subst here
        simp [absent]
      · simp [here, Ne.symm here]

theorem nodup_resources {node : Instruction}
    (memory : (node.memory.map MemoryOccurrence.name).Nodup)
    (qubits : (node.qubits.map QubitOccurrence.name).Nodup) : node.resources.Nodup := by
  have first : (node.memory.map (fun o => Resource.memory o.name)).Nodup := by
    have := memory.map (f := Resource.memory) (fun a b same => Resource.memory.inj same)
    simpa [Function.comp_def] using this
  have second : (node.qubits.map (fun o => Resource.qubit o.name)).Nodup := by
    have := qubits.map (f := Resource.qubit) (fun a b same => Resource.qubit.inj same)
    simpa [Function.comp_def] using this
  refine List.nodup_append.mpr ⟨first, second, ?_⟩
  intro a aIn b bIn same
  obtain ⟨_, _, rfl⟩ := List.mem_map.mp aIn
  obtain ⟨_, _, rfl⟩ := List.mem_map.mp bIn
  cases same

/-- An instruction made for a list: nothing is known about its occurrences, and they are not linked. -/
structure IsNew (node : Instruction) : Prop where
  memory : Records node.operation.memoryAccesses node.memory
  qubits : RecordsQubits node.operation.qubitAccesses node.qubits

theorem isNew_ofOperation (line : Nat) (category : Category) (operation : Operation) :
    (ofOperation line category operation).IsNew :=
  ⟨records_ofOperation line category operation, recordsQubits_ofOperation line category operation⟩

end Instruction

namespace InstructionList

open Instruction

variable {block : Nat} {name : String} {nodes : List Instruction}

/-- The memory references that new instructions name. -/
def memoryNames (nodes : List Instruction) : List String :=
  Sorted.ofList (nodes.flatMap (fun n => n.memory.map MemoryOccurrence.name))

def qubitNames (nodes : List Instruction) : List String :=
  Sorted.ofList (nodes.flatMap (fun n => n.qubits.map QubitOccurrence.name))

/-- New instructions with their implied occurrences. -/
def completed (nodes : List Instruction) : List Instruction :=
  nodes.map (withImplied (qubitNames nodes) (memoryNames nodes))

theorem getElem?_ofNodes (id : Nat) :
    (ofNodes block name nodes).nodes[id]? =
      ((completed nodes)[id]?).map (fun node => { link (completed nodes) id node with id := id }) := by
  change ((completed nodes).zipIdx.map
    (fun entry => { link (completed nodes) entry.2 entry.1 with id := entry.2 }))[id]? = _
  rw [List.getElem?_map, List.getElem?_zipIdx, Nat.zero_add]
  cases (completed nodes)[id]? <;> rfl

theorem withoutLinks_link (complete : List Instruction) (id : Nat) (node : Instruction) :
    (link complete id node).withoutLinks = node.withoutLinks :=
  withoutLinks_foldl _ node.resources node

theorem withoutLinks_ofNodes {id : Nat} {node : Instruction}
    (found : (ofNodes block name nodes).nodes[id]? = some node) :
    ∃ new, nodes[id]? = some new ∧ node.withoutLinks =
      { (withImplied (qubitNames nodes) (memoryNames nodes) new).withoutLinks with id := id } := by
  rw [getElem?_ofNodes, completed, List.getElem?_map, Option.map_map] at found
  obtain ⟨new, there, rfl⟩ := Option.map_eq_some_iff.mp found
  refine ⟨new, there, ?_⟩
  have same := withoutLinks_link (completed nodes) id
    (withImplied (qubitNames nodes) (memoryNames nodes) new)
  exact congrArg (fun n : Instruction => { n with id := id }) same

theorem values_ofNodes (new : ∀ node ∈ nodes, node.IsNew) {id : Nat} {node : Instruction}
    (found : (ofNodes block name nodes).nodes[id]? = some node) : ∀ o ∈ node.memory, o.value = none := by
  intro o member
  obtain ⟨old, there, same⟩ := withoutLinks_ofNodes found
  have memory := congrArg (fun n : Instruction => n.memory.map MemoryOccurrence.value) same
  simp only [Instruction.withoutLinks, List.map_map, Function.comp_def] at memory
  have known : o.value ∈ node.memory.map MemoryOccurrence.value := List.mem_map_of_mem member
  rw [memory] at known
  obtain ⟨before, beforeIn, eq⟩ := List.mem_map.mp known
  rw [← eq]
  exact (Instruction.blank_withImplied (new old (List.mem_of_getElem? there)).memory before beforeIn).1

theorem operation_ofNodes {id : Nat} {node : Instruction}
    (found : (ofNodes block name nodes).nodes[id]? = some node) :
    ∃ new ∈ nodes, new.operation = node.operation := by
  obtain ⟨new, there, same⟩ := withoutLinks_ofNodes found
  exact ⟨new, List.mem_of_getElem? there, (congrArg Instruction.operation same).symm⟩

theorem length_ofNodes : (ofNodes block name nodes).nodes.length = nodes.length := by
  simp [ofNodes]

theorem order_ofNodes : (ofNodes block name nodes).order = List.range nodes.length := rfl

theorem touches_completed (new : ∀ node ∈ nodes, node.IsNew) {node : Instruction}
    (member : node ∈ nodes) :
    Touches (memoryNames nodes) node.operation.memoryAccesses
      (withImplied (qubitNames nodes) (memoryNames nodes) node).memory := by
  refine touches_withImplied (new node member).memory ?_
  intro a named
  have there := ((new node member).memory.names a.name).mpr ⟨a, named, rfl⟩
  exact Sorted.mem_ofList.mpr (List.mem_flatMap.mpr ⟨node, member, there⟩)

theorem unlinked_completed (new : ∀ node ∈ nodes, node.IsNew) {node : Instruction}
    (member : node ∈ completed nodes) :
    node.resources.Nodup ∧ ∀ {resource links}, node.links? resource = some links → links = .none := by
  obtain ⟨old, oldIn, rfl⟩ := List.mem_map.mp member
  have memory := touches_completed new oldIn
  have qubits : RecordsQubits _ (withImplied (qubitNames nodes) (memoryNames nodes) old).qubits :=
    recordsQubits_withImplied (new old oldIn).qubits
  refine ⟨nodup_resources memory.distinct qubits.distinct, ?_⟩
  intro resource links found
  cases resource with
  | memory name =>
      obtain ⟨o, there, rfl⟩ := Option.map_eq_some_iff.mp found
      exact (blank_withImplied (new old oldIn).memory o (List.mem_of_find?_eq_some there)).2
  | qubit name =>
      obtain ⟨o, there, rfl⟩ := Option.map_eq_some_iff.mp found
      exact (qubits.blank o (List.mem_of_find?_eq_some there)).2.2

/-- Whether every instruction has the occurrences that its operation has in a list with the given names. -/
def Complete (names : List String) (list : InstructionList) : Prop :=
  ∀ {id : Nat} {node : Instruction}, list.nodes[id]? = some node →
    Touches names node.operation.memoryAccesses node.memory

theorem complete_ofNodes (new : ∀ node ∈ nodes, node.IsNew) :
    Complete (memoryNames nodes) (ofNodes block name nodes) := by
  intro id node found
  obtain ⟨old, there, same⟩ := withoutLinks_ofNodes found
  have operation := congrArg Instruction.operation same
  have memory := congrArg (fun n : Instruction => n.memory.map (fun o => (o.name, o.use))) same
  simp only [withoutLinks, List.map_map, Function.comp_def] at operation memory
  rw [operation]
  exact (touches_completed new (List.mem_of_getElem? there)).congr memory.symm

theorem isHolder_ofNodes (resource : Resource) (id : Nat) :
    (ofNodes block name nodes).isHolder resource id =
      (((completed nodes)[id]?).map (fun n => n.resources.contains resource)).getD false := by
  rw [isHolder, holdsAt, getElem?_ofNodes]
  cases found : (completed nodes)[id]? with
  | none => simp
  | some node =>
      have inside : id < nodes.length := by
        have := (List.getElem?_eq_some_iff.mp found).1
        simpa [completed] using this
      have same := resources_congr (withoutLinks_link (completed nodes) id node)
      have running : (ofNodes block name nodes).contains id = true := by
        simp [contains, order_ofNodes, inside]
      simp only [running, Option.map_some, Option.getD_some, holds, Bool.true_and]
      exact congrArg (fun r : List Resource => r.contains resource) same

/-- A new list is linked exactly along its chains. -/
theorem chained_ofNodes (new : ∀ node ∈ nodes, node.IsNew) :
    (ofNodes block name nodes).Chained where
  numbered := by
    intro id node found
    rw [getElem?_ofNodes] at found
    obtain ⟨_, _, rfl⟩ := Option.map_eq_some_iff.mp found
    rfl
  order := List.nodup_range
  inside := by
    intro id member
    rw [length_ofNodes]
    exact List.mem_range.mp member
  distinct := by
    intro id node found
    rw [getElem?_ofNodes] at found
    obtain ⟨old, there, rfl⟩ := Option.map_eq_some_iff.mp found
    have same := resources_congr (withoutLinks_link (completed nodes) id old)
    exact same ▸ (unlinked_completed new (List.mem_of_getElem? there)).1
  exact := by
    intro id node resource links _ found linked
    rw [getElem?_ofNodes] at found
    obtain ⟨old, there, rfl⟩ := Option.map_eq_some_iff.mp found
    obtain ⟨distinct, blank⟩ := unlinked_completed new (List.mem_of_getElem? there)
    have before : (link (completed nodes) id old).links? resource = some links := linked
    rw [link, links?_foldl _ distinct] at before
    split at before
    · obtain ⟨old', oldLinks, rfl⟩ := Option.map_eq_some_iff.mp before
      have holders : (ofNodes block name nodes).isHolder resource = fun i =>
          (((completed nodes)[i]?).map (fun n => n.resources.contains resource)).getD false :=
        funext (isHolder_ofNodes resource)
      have size : (ofNodes block name nodes).nodes.length = (completed nodes).length := by
        rw [length_ofNodes, completed, List.length_map]
      rw [blank oldLinks, nearest, holders, size]
      rfl
    · next absent =>
        have held := (isSome_links? old resource).symm.trans (congrArg Option.isSome before)
        exact absurd (List.contains_iff_mem.mp held) absent

end InstructionList

end TwoLane
