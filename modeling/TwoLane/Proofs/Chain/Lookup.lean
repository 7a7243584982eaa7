import TwoLane.Proofs.Chain.Facts

/-! # Looking up along chains

What is looked up in front of an instruction is what the nearest holder of the name before it left, or what there is
at the start of the list. Said in this way it has a meaning at every number and for every name, and where a list
changes it follows the chain from holder to holder.
-/

namespace TwoLane

namespace Nearest

variable {α : Type} {p p' : Nat → Bool} {left left' : Nat → Option α} {start start' : Option α} {id bound : Nat}

/-- What the last number below a bound that has a property left, or what there is at the start. -/
def look (p : Nat → Bool) (left : Nat → Option α) (start : Option α) (bound : Nat) : Option α :=
  match below? p bound with
  | none => start
  | some id => left id

theorem below?_of_gap (within : id ≤ bound) (gap : ∀ j, id ≤ j → j < bound → p j = false) :
    below? p bound = below? p id := by
  cases found : below? p id with
  | none =>
      refine below?_eq_none.mpr (fun j inside => ?_)
      by_cases lower : j < id
      · exact below?_eq_none.mp found j lower
      · exact gap j (by omega) inside
  | some i =>
      obtain ⟨lower, holds, between⟩ := below?_eq_some.mp found
      refine below?_eq_some.mpr ⟨by omega, holds, fun j above inside => ?_⟩
      by_cases front : j < id
      · exact between j above front
      · exact gap j (by omega) inside

theorem look_congr (same : ∀ i < bound, p i = true → left i = left' i) :
    look p left start bound = look p left' start bound := by
  rw [look, look]
  cases found : below? p bound with
  | none => rfl
  | some i =>
      obtain ⟨lower, holds, _⟩ := below?_eq_some.mp found
      exact same i lower holds

/-- What is looked up is related if it is related at the numbers that stay, and if each number that goes, with none that
    stays behind it, left something related to what is looked up at it. -/
theorem look_related {related : Option α → Option α → Prop}
    (trans : ∀ {a b c}, related a b → related b c → related a c) (starts : related start start')
    (fewer : ∀ i, p' i = true → p i = true) (kept : ∀ i < bound, p' i = true → related (left i) (left' i))
    (passed : ∀ i < bound, p i = true → p' i = false → (∀ j, i < j → j < bound → p' j = false) →
      related (left i) (look p left start i)) :
    related (look p left start bound) (look p' left' start' bound) := by
  induction bound using Nat.strongRecOn with
  | _ bound ih =>
      cases found : below? p bound with
      | none =>
          have gone : below? p' bound = none := by
            refine below?_eq_none.mpr (fun j inside => ?_)
            have off := below?_eq_none.mp found j inside
            cases holds : p' j with
            | false => rfl
            | true => exact absurd (fewer j holds) (by simp [off])
          rw [look, look, found, gone]
          exact starts
      | some i =>
          obtain ⟨lower, holds, between⟩ := below?_eq_some.mp found
          have gap : ∀ j, i < j → j < bound → p' j = false := by
            intro j above inside
            cases stays : p' j with
            | false => rfl
            | true => exact absurd (fewer j stays) (by simp [between j above inside])
          have here : look p left start bound = left i := by rw [look, found]
          rw [here]
          cases stays : p' i with
          | true =>
              have nearest : below? p' bound = some i := below?_eq_some.mpr ⟨lower, stays, gap⟩
              rw [look, nearest]
              exact kept i lower stays
          | false =>
              -- the number goes, so the look-up goes on from it
              have further : look p' left' start' bound = look p' left' start' i := by
                rw [look, look, below?_of_gap (Nat.le_of_lt lower)]
                intro j least inside
                rcases Nat.lt_or_eq_of_le least with above | rfl
                · exact gap j above inside
                · exact stays
              rw [further]
              refine trans (passed i lower holds stays gap) (ih i lower (fun j inside => kept j (by omega)) ?_)
              intro j inside holds' goes noneStays
              refine passed j (by omega) holds' goes (fun k above inside' => ?_)
              rcases Nat.lt_trichotomy k i with front | rfl | back
              · exact noneStays k above front
              · exact stays
              · exact gap k back inside'

end Nearest

/-! ## What is known at a number -/

/-- What is known about memory references and qubits at some point. -/
@[ext] structure Outlook where
  memory : String → Option Number
  qubit : String → Option QubitState

theorem memory_mem_resources {node : Instruction} {name : String} :
    Resource.memory name ∈ node.resources ↔ ∃ o ∈ node.memory, o.name = name := by
  simp [Instruction.resources]

theorem qubit_mem_resources {node : Instruction} {name : String} :
    Resource.qubit name ∈ node.resources ↔ ∃ o ∈ node.qubits, o.name = name := by
  simp [Instruction.resources]

namespace Instruction

variable {node : Instruction} {name : String}

def leavesMemory (name : String) (node : Instruction) : Option Number :=
  (node.memory? name).bind MemoryOccurrence.value

def leavesQubit (name : String) (node : Instruction) : Option QubitState :=
  (node.qubit? name).bind QubitOccurrence.after

theorem exists_memory (held : Resource.memory name ∈ node.resources) : ∃ o, node.memory? name = some o := by
  have known := node.isSome_links? (.memory name)
  rw [holds, List.contains_iff_mem.mpr held, links?, Option.isSome_map] at known
  exact Option.isSome_iff_exists.mp known

theorem exists_qubit (held : Resource.qubit name ∈ node.resources) : ∃ o, node.qubit? name = some o := by
  have known := node.isSome_links? (.qubit name)
  rw [holds, List.contains_iff_mem.mpr held, links?, Option.isSome_map] at known
  exact Option.isSome_iff_exists.mp known

theorem leavesMemory_withoutLinks (name : String) (node : Instruction) :
    node.withoutLinks.leavesMemory name = node.leavesMemory name := by
  simp only [leavesMemory, memory?, withoutLinks, List.find?_map, Option.bind_map]
  rfl

theorem leavesQubit_withoutLinks (name : String) (node : Instruction) :
    node.withoutLinks.leavesQubit name = node.leavesQubit name := by
  simp only [leavesQubit, qubit?, withoutLinks, List.find?_map, Option.bind_map]
  rfl

end Instruction

namespace InstructionList

variable {list : InstructionList} {id : Nat} {node : Instruction} {name : String}

/-- What the nearest running instruction before a number that touches a resource leaves, or what there is at the
    start. -/
def lookFor {α : Type} (list : InstructionList) (resource : Resource) (leaves : Instruction → Option α)
    (start : Option α) (id : Nat) : Option α :=
  Nearest.look (list.isHolder resource) (fun i => (list.nodes[i]?).bind leaves) start id

/-- What is known in front of a number. -/
def outlook (list : InstructionList) (isEntry : Bool) (id : Nat) : Outlook where
  memory name := list.lookFor (.memory name) (Instruction.leavesMemory name) none id
  qubit name := list.lookFor (.qubit name) (Instruction.leavesQubit name) (if isEntry then some .zero else none) id

/-- A value looked up by an instruction that touches the reference is what is known in front of it. -/
theorem memoryBefore?_eq (chained : list.Chained) (running : id ∈ list.order) (found : list.nodes[id]? = some node)
    (held : Resource.memory name ∈ node.resources) (isEntry : Bool) :
    list.memoryBefore? node name = (list.outlook isEntry id).memory name := by
  obtain ⟨o, occurs⟩ := Instruction.exists_memory held
  have linked : node.links? (.memory name) = some o.links := by simp [Instruction.links?, occurs]
  have previous := congrArg Links.previous (chained.exact running found linked)
  rw [memoryBefore?, occurs, Option.map_some, previous, nearest, outlook]
  cases below : Nearest.below? (list.isHolder (.memory name)) id with
  | none => simp [lookFor, Nearest.look, below]
  | some i =>
      simp only [lookFor, Nearest.look, below, Option.toList_some]
      rfl

/-- A state looked up by an instruction that touches the qubit is what is known in front of it. -/
theorem qubitBefore?_eq (chained : list.Chained) (running : id ∈ list.order) (found : list.nodes[id]? = some node)
    (held : Resource.qubit name ∈ node.resources) (isEntry : Bool) :
    list.qubitBefore? isEntry node name = (list.outlook isEntry id).qubit name := by
  obtain ⟨o, occurs⟩ := Instruction.exists_qubit held
  have linked : node.links? (.qubit name) = some o.links := by simp [Instruction.links?, occurs]
  have previous := congrArg Links.previous (chained.exact running found linked)
  rw [qubitBefore?, occurs, Option.map_some, previous, nearest, outlook]
  cases below : Nearest.below? (list.isHolder (.qubit name)) id with
  | none => simp [lookFor, Nearest.look, below]
  | some i =>
      simp only [lookFor, Nearest.look, below, Option.toList_some]
      rfl

end InstructionList

end TwoLane
