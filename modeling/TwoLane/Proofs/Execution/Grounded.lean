import TwoLane.Proofs.Chain.Dependencies
import TwoLane.Proofs.Constants.Founded
import TwoLane.Proofs.Execution.Analyses

/-! # Grounded lists

A list is grounded if all that is noted in it is founded. Rewriting one instruction keeps that as long as the instruction
leaves on its chains what it left before, or what was found out about it. One propagation through a grounded list notes
the whole of what can be found out, since an instruction is visited behind all that it looks up.
-/

namespace TwoLane.Execution

open InstructionList (Rewrite)

variable {whole : Prop} {isEntry : Bool} {list after : InstructionList} {id : Nat} {node node' : Instruction}
  {outlook : Outlook}

/-- Whether all that is noted about the running instructions of a list is founded. -/
def Grounded (whole : Prop) (isEntry : Bool) (list : InstructionList) : Prop :=
  ∀ id ∈ list.order, ∀ node, list.nodes[id]? = some node → Founded whole (list.outlook isEntry id) node

/-- Whether an instruction that takes the place of another one leaves all that this one left, where it is still on a
    chain, and what it goes off the chains of was as it found it. -/
structure Leaves (whole : Prop) (outlook : Outlook) (node node' : Instruction) : Prop where
  memory : ∀ o' ∈ node'.memory, ∃ o ∈ node.memory, o.name = o'.name ∧ Backed whole o.value o'.value
  qubits : ∀ o' ∈ node'.qubits, ∃ o ∈ node.qubits, o.name = o'.name ∧ Backed whole o.after o'.after
  memoryGone : ∀ o ∈ node.memory, Resource.memory o.name ∉ node'.resources →
    Backed whole o.value (outlook.memory o.name)
  qubitGone : ∀ o ∈ node.qubits, Resource.qubit o.name ∉ node'.resources →
    Backed whole o.after (outlook.qubit o.name)

theorem leavesMemory_of_mem (distinct : node.resources.Nodup) {o : MemoryOccurrence} (member : o ∈ node.memory) :
    node.leavesMemory o.name = o.value := by
  rw [Instruction.leavesMemory, InstructionList.memory?_of_mem distinct member, Option.bind_some]

theorem leavesQubit_of_mem (distinct : node.resources.Nodup) {o : QubitOccurrence} (member : o ∈ node.qubits) :
    node.leavesQubit o.name = o.after := by
  rw [Instruction.leavesQubit, InstructionList.qubit?_of_mem distinct member, Option.bind_some]

theorem Leaves.resources (leaves : Leaves whole outlook node node') : node'.resources ⊆ node.resources := by
  intro r member
  cases r with
  | memory name =>
      obtain ⟨o', there', rfl⟩ := memory_mem_resources.mp member
      obtain ⟨o, there, same, _⟩ := leaves.memory o' there'
      exact memory_mem_resources.mpr ⟨o, there, same⟩
  | qubit name =>
      obtain ⟨o', there', rfl⟩ := qubit_mem_resources.mp member
      obtain ⟨o, there, same, _⟩ := leaves.qubits o' there'
      exact qubit_mem_resources.mpr ⟨o, there, same⟩

theorem Leaves.refl (node : Instruction) : Leaves whole outlook node node where
  memory := fun o member => ⟨o, member, rfl, .refl _⟩
  qubits := fun o member => ⟨o, member, rfl, .refl _⟩
  memoryGone := fun o member gone => absurd (memory_mem_resources.mpr ⟨o, member, rfl⟩) gone
  qubitGone := fun o member gone => absurd (qubit_mem_resources.mpr ⟨o, member, rfl⟩) gone

/-! ## Rewriting -/

section Rewriting

variable (rewrite : Rewrite list after id node') (running : id ∈ list.order) (found : list.nodes[id]? = some node)
  (fewer : node'.resources ⊆ node.resources)

include rewrite

theorem isHolder_of_ne {r : Resource} {i : Nat} (differ : i ≠ id) : after.isHolder r i = list.isHolder r i := by
  have same := congrArg (Option.map (fun n : Instruction => n.holds r)) (rewrite.others i differ)
  simp only [Option.map_map, Function.comp_def, Instruction.holds_withoutLinks] at same
  rw [InstructionList.isHolder, InstructionList.isHolder, InstructionList.contains, InstructionList.contains,
    rewrite.order, InstructionList.holdsAt, InstructionList.holdsAt, same]

include running

theorem isHolder_here {r : Resource} : after.isHolder r id = true ↔ r ∈ node'.resources := by
  obtain ⟨there, thereFound, same⟩ := Option.map_eq_some_iff.mp rewrite.here
  rw [InstructionList.isHolder_iff, rewrite.order]
  constructor
  · rintro ⟨_, other, otherFound, member⟩
    cases thereFound.symm.trans otherFound
    exact Instruction.resources_congr same ▸ member
  · intro member
    exact ⟨running, there, thereFound, Instruction.resources_congr same ▸ member⟩

include found fewer

/-- A rewritten list looks up what is backed if the instruction leaves what is backed, or goes off the chain and left what
    it looks up itself. -/
theorem lookFor_rewrite {α : Type} {leaves : Instruction → Option α} (links : ∀ n, leaves n.withoutLinks = leaves n)
    {r : Resource} (start : Option α) (kept : r ∈ node'.resources → Backed whole (leaves node) (leaves node'))
    (gone : r ∈ node.resources → r ∉ node'.resources → Backed whole (leaves node) (list.lookFor r leaves start id))
    (j : Nat) : Backed whole (list.lookFor r leaves start j) (after.lookFor r leaves start j) := by
  have left : (after.nodes[id]?).bind leaves = leaves node' := by
    obtain ⟨there, thereFound, same⟩ := Option.map_eq_some_iff.mp rewrite.here
    rw [thereFound, Option.bind_some, ← links, same, links]
  have leftBefore : (list.nodes[id]?).bind leaves = leaves node := by rw [found, Option.bind_some]
  refine Nearest.look_related (fun first second => first.trans second) (.refl start) ?_ ?_ ?_
  · intro i holds
    by_cases here : i = id
    · subst here
      have member := (isHolder_here rewrite running).mp holds
      exact InstructionList.isHolder_iff.mpr ⟨running, node, found, fewer member⟩
    · rwa [isHolder_of_ne rewrite here] at holds
  · intro i _ holds
    by_cases here : i = id
    · subst here
      rw [left, leftBefore]
      exact kept ((isHolder_here rewrite running).mp holds)
    · have same := congrArg (fun n : Option Instruction => n.bind leaves) (rewrite.others i here)
      simp only [Option.bind_map, Function.comp_def, links] at same
      exact .of_eq same.symm
  · intro i _ holds goes _
    have here : i = id := by
      by_contra differ
      rw [isHolder_of_ne rewrite differ, holds] at goes
      cases goes
    subst here
    rw [leftBefore]
    refine gone ?_ (fun member => ?_)
    · obtain ⟨_, other, otherFound, member⟩ := InstructionList.isHolder_iff.mp holds
      cases found.symm.trans otherFound
      exact member
    · rw [(isHolder_here rewrite running).mpr member] at goes
      cases goes

omit fewer

/-- What is known in front of the numbers of a rewritten list. -/
theorem backedAt_rewrite (chained : list.Chained) (leaves : Leaves whole (list.outlook isEntry id) node node') (j : Nat)
    (r : Resource) : Outlook.BackedAt whole (list.outlook isEntry j) (after.outlook isEntry j) r := by
  have distinct := chained.distinct found
  have distinct' : node'.resources.Nodup := by
    obtain ⟨there, thereFound, same⟩ := Option.map_eq_some_iff.mp rewrite.here
    exact Instruction.resources_congr same ▸ rewrite.chained.distinct thereFound
  cases r with
  | memory name =>
      refine lookFor_rewrite rewrite running found leaves.resources (Instruction.leavesMemory_withoutLinks name) none
        ?_ ?_ j
      · intro held
        obtain ⟨o', there', rfl⟩ := memory_mem_resources.mp held
        obtain ⟨o, there, same, backed⟩ := leaves.memory o' there'
        have before := leavesMemory_of_mem distinct there
        rw [same] at before
        rw [before, leavesMemory_of_mem distinct' there']
        exact backed
      · intro held goes
        obtain ⟨o, there, rfl⟩ := memory_mem_resources.mp held
        rw [leavesMemory_of_mem distinct there]
        exact leaves.memoryGone o there goes
  | qubit q =>
      refine lookFor_rewrite rewrite running found leaves.resources (Instruction.leavesQubit_withoutLinks q) _ ?_ ?_ j
      · intro held
        obtain ⟨o', there', rfl⟩ := qubit_mem_resources.mp held
        obtain ⟨o, there, same, backed⟩ := leaves.qubits o' there'
        have before := leavesQubit_of_mem distinct there
        rw [same] at before
        rw [before, leavesQubit_of_mem distinct' there']
        exact backed
      · intro held goes
        obtain ⟨o, there, rfl⟩ := qubit_mem_resources.mp held
        rw [leavesQubit_of_mem distinct there]
        exact leaves.qubitGone o there goes

theorem Grounded.rewritten (grounded : Grounded whole isEntry list) (ordered : Ordered list) (covers : Covers list node')
    (leaves : Leaves whole (list.outlook isEntry id) node node')
    (founded : Founded whole (list.outlook isEntry id) node') : Grounded whole isEntry after := by
  have backed : ∀ j r, Outlook.BackedAt whole (list.outlook isEntry j) (after.outlook isEntry j) r :=
    backedAt_rewrite rewrite running found ordered.chained leaves
  intro j runs there thereFound
  rw [rewrite.order] at runs
  rcases rewrite.getElem? thereFound with ⟨rfl, same⟩ | ⟨_, before, beforeFound, same⟩
  · exact (founded.carry covers (carried_of_held covers (fun r _ => backed j r))).of_links same
  · have own := ordered.covers runs beforeFound
    exact ((grounded j runs before beforeFound).carry own (carried_of_held own (fun r _ => backed j r))).of_links same

end Rewriting

/-! ## Propagation -/

theorem rewrite_annotateAt (ordered : Ordered list) (found : list.nodes[id]? = some node) (isEntry : Bool) :
    Rewrite list (Constants.annotateAt isEntry list id) id (Constants.annotate list isEntry node) := by
  rw [Constants.annotateAt, show list.get? id = some node from found]
  exact .first ordered.chained found (shape_annotate list isEntry node)

theorem leaves_annotate (ordered : Ordered list) (running : id ∈ list.order) (found : list.nodes[id]? = some node)
    (founded : Founded False (list.outlook isEntry id) node) :
    Leaves False (list.outlook isEntry id) node (Constants.annotate list isEntry node) := by
  have noted := InstructionList.founded_annotate ordered running found founded
  have resources : (Constants.annotate list isEntry node).resources = node.resources := by
    rw [← Instruction.resources_shape, shape_annotate, Instruction.resources_shape]
  refine ⟨?_, ?_, ?_, ?_⟩
  · intro o' member
    have full := (noted.memory o' member).eq
    obtain ⟨o, there, rfl⟩ := List.mem_map.mp member
    exact ⟨o, there, rfl, full ▸ founded.memory o there⟩
  · intro o' member
    have full := (noted.after o' member).eq
    obtain ⟨o, there, rfl⟩ := List.mem_map.mp member
    exact ⟨o, there, rfl, full ▸ founded.after o there⟩
  · intro o member gone
    exact absurd (resources ▸ memory_mem_resources.mpr ⟨o, member, rfl⟩) gone
  · intro o member gone
    exact absurd (resources ▸ qubit_mem_resources.mpr ⟨o, member, rfl⟩) gone

/-- What propagation has made of a list once it has visited some instructions. -/
structure Underway (isEntry : Bool) (done : List Nat) (list : InstructionList) : Prop where
  ordered : Ordered list
  grounded : Grounded False isEntry list
  noted : ∀ id ∈ done, ∀ node, list.nodes[id]? = some node → Founded True (list.outlook isEntry id) node

/-- What an instruction is given to note does not change what is known in front of those that come no later on its
    chains. -/
theorem outlook_annotateAt (ordered : Ordered list) (running : id ∈ list.order) (found : list.nodes[id]? = some node)
    {j : Nat} {r : Resource} (first : r ∈ node.resources → j ≤ id) :
    Outlook.BackedAt True (list.outlook isEntry j) ((Constants.annotateAt isEntry list id).outlook isEntry j) r := by
  have rewrite := rewrite_annotateAt ordered found isEntry
  have resources : (Constants.annotate list isEntry node).resources = node.resources := by
    rw [← Instruction.resources_shape, shape_annotate, Instruction.resources_shape]
  have holders : (Constants.annotateAt isEntry list id).isHolder r = list.isHolder r := by
    funext i
    by_cases here : i = id
    · subst here
      rw [Bool.eq_iff_iff, isHolder_here rewrite running, resources, InstructionList.isHolder_iff]
      exact ⟨fun member => ⟨running, node, found, member⟩, fun ⟨_, _, there, member⟩ => by
        cases found.symm.trans there
        exact member⟩
    · exact isHolder_of_ne rewrite here
  have same : ∀ {α : Type} (leaves : Instruction → Option α) (start : Option α),
      list.lookFor r leaves start j = (Constants.annotateAt isEntry list id).lookFor r leaves start j := by
    intro α leaves start
    rw [InstructionList.lookFor, InstructionList.lookFor, holders]
    refine Nearest.look_congr (fun i inside holds => ?_)
    have differ : id ≠ i := by
      rintro rfl
      obtain ⟨_, _, there, member⟩ := InstructionList.isHolder_iff.mp holds
      cases found.symm.trans there
      exact absurd inside (Nat.not_lt.mpr (first member))
    rw [InstructionList.getElem?_annotateAt isEntry found, if_neg differ]
  cases r with
  | memory name => exact .of_eq (same _ _)
  | qubit q => exact .of_eq (same _ _)

theorem Underway.annotateAt {done rest : List Nat} (underway : Underway isEntry done list)
    (split : list.order = done ++ id :: rest) :
    Underway isEntry (done ++ [id]) (Constants.annotateAt isEntry list id) := by
  have ordered := underway.ordered
  have running : id ∈ list.order := by simp [split]
  obtain ⟨node, found⟩ := ordered.chained.exists_node running
  have covers := ordered.covers running found
  have founded := underway.grounded id running node found
  have rewrite := rewrite_annotateAt ordered found isEntry
  have leaves := leaves_annotate ordered running found founded
  have noted := InstructionList.founded_annotate ordered running found founded
  have covers' : Covers list (Constants.annotate list isEntry node) := (replaces_annotate covers isEntry).covers
  refine ⟨ordered.rewrite rewrite running found leaves.resources covers',
    underway.grounded.rewritten rewrite running found ordered covers' leaves ?_, ?_⟩
  · exact ⟨fun o member => (noted.memory o member).partly, fun o member => (noted.after o member).partly,
      fun plain o member => (noted.before plain o member).partly, False.elim⟩
  · intro j visited there thereFound
    rcases List.mem_append.mp visited with before | last
    · have differ : id ≠ j := by
        rintro rfl
        have distinct := ordered.chained.order
        rw [split, List.nodup_append] at distinct
        exact distinct.2.2 id before id List.mem_cons_self rfl
      rw [InstructionList.getElem?_annotateAt isEntry found, if_neg differ] at thereFound
      have own := ordered.covers (show j ∈ list.order by simp [split, before]) thereFound
      refine (underway.noted j before there thereFound).carry own (carried_of_held own (fun r held => ?_))
      -- on a chain with both of them the one that was visited before comes first
      refine outlook_annotateAt ordered running found (fun shared => Nat.le_of_lt ?_)
      have orderly := ordered.orderly
      rw [split, List.pairwise_append] at orderly
      exact orderly.2.2 j before id List.mem_cons_self r (holdsAt_of_mem thereFound held) (holdsAt_of_mem found shared)
    · cases List.mem_singleton.mp last
      rw [InstructionList.getElem?_annotateAt isEntry found, if_pos rfl] at thereFound
      cases thereFound
      refine noted.carry covers' (carried_of_held covers' (fun r _ => ?_))
      exact outlook_annotateAt ordered running found (fun _ => Nat.le_refl id)

theorem Underway.foldl {done rest : List Nat} (underway : Underway isEntry done list)
    (split : list.order = done ++ rest) :
    Underway isEntry (done ++ rest) (rest.foldl (Constants.annotateAt isEntry) list) := by
  induction rest generalizing list done with
  | nil =>
      rw [List.append_nil]
      exact underway
  | cons id rest ih =>
      have running : id ∈ list.order := by simp [split]
      obtain ⟨node, found⟩ := underway.ordered.chained.exists_node running
      have order := (rewrite_annotateAt underway.ordered found isEntry).order
      have further := ih (underway.annotateAt split) (by rw [order, split, List.append_assoc, List.singleton_append])
      rwa [List.append_assoc, List.singleton_append] at further

theorem Grounded.propagated (grounded : Grounded False (id == 0) list) (ordered : Ordered list) :
    Grounded True (id == 0) (Constants.propagateList id list).1 := by
  rw [Constants.propagateList, InstructionList.annotateAll_fst]
  have start : Underway (id == 0) [] list := ⟨ordered, grounded, fun _ visited => (List.not_mem_nil visited).elim⟩
  have finished := start.foldl (List.nil_append _).symm
  have order := (InstructionList.sameButFacts_foldl (id == 0) list list.order).order
  intro j runs node found
  refine finished.noted j ?_ node found
  rw [List.nil_append, order]
  exact runs

theorem modify_eq_self {change : Instruction → Instruction} (found : list.nodes[id]? = some node)
    (same : change node = node) : list.modify id change = list := by
  have nodes : list.nodes.modify id change = list.nodes := by
    apply List.ext_getElem?
    intro j
    rw [List.getElem?_modify]
    by_cases here : id = j
    · subst here
      simp [found, same]
    · simp [here]
  rw [InstructionList.modify, nodes]

/-- Where all is noted an instruction stays as it is. -/
theorem Grounded.annotateAt_eq (grounded : Grounded True isEntry list) (ordered : Ordered list)
    (running : id ∈ list.order) : Constants.annotateAt isEntry list id = list := by
  obtain ⟨node, found⟩ := ordered.chained.exists_node running
  rw [Constants.annotateAt, show list.get? id = some node from found]
  exact modify_eq_self found (InstructionList.annotate_of_founded ordered running found (grounded id running node found))

theorem newlyKnown_self (node : Instruction) : Constants.newlyKnown node node = [] := by
  have pairs : ∀ {α : Type} (elements : List α), elements.zip elements = elements.map (fun a => (a, a)) := by
    intro α elements
    have same : (elements.map (fun a => a)).zip (elements.map (fun a => a)) = elements.map (fun a => (a, a)) :=
      List.zip_map'
    rwa [List.map_id'] at same
  rw [Constants.newlyKnown, pairs, pairs, List.filterMap_map, List.filterMap_map, List.append_eq_nil_iff,
    List.filterMap_eq_nil_iff, List.filterMap_eq_nil_iff]
  refine ⟨fun o _ => ?_, fun o _ => ?_⟩
  · cases known : o.value <;> simp [known]
  · cases known : o.after <;> simp [known]

/-- Where all is noted propagation changes nothing and finds nothing out. -/
theorem Grounded.annotateAll_eq (grounded : Grounded True isEntry list) (ordered : Ordered list) {ids : List Nat}
    (running : ids ⊆ list.order) : Constants.annotateAll isEntry list ids = (list, []) := by
  induction ids with
  | nil => rfl
  | cons id rest ih =>
      have here := running List.mem_cons_self
      obtain ⟨node, found⟩ := ordered.chained.exists_node here
      have further := ih (fun _ member => running (List.mem_cons_of_mem _ member))
      rw [Constants.annotateAll, grounded.annotateAt_eq ordered here, further, show list.get? id = some node from found]
      dsimp only
      rw [newlyKnown_self]
      rfl

end TwoLane.Execution
