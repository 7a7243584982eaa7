import TwoLane.Proofs.Liveness.Judged
import TwoLane.Proofs.Schedule.Ties

/-! # Liveness and swaps

An instruction is judged by the live names that overlap what it mentions, by the live qubits that it touches and, if it
resets all qubits, by whether any qubit is live. An instruction apart from it changes none of these. So neighbours that
share nothing are judged alike in either order, and make the same names live.
-/

namespace TwoLane.Liveness

open Instruction (Apart Clears mentioned)

variable {readout : List String} {x y node : Instruction} {live live' : LiveSet} {names : List String} {name : String}

/-! ## Sets that are the same for an instruction -/

/-- Whether two sets are the same as far as they matter for an instruction. -/
structure Alike (node : Instruction) (live live' : LiveSet) : Prop where
  memory : ∀ l, ∀ name ∈ mentioned node, Memory.mayOverlap l name = true → (l ∈ live.memory ↔ l ∈ live'.memory)
  qubits : ∀ q ∈ touched node, (q ∈ live.qubits ↔ q ∈ live'.qubits)
  global : node.operation.isGlobalReset = true → (live.qubits = [] ↔ live'.qubits = [])

theorem Alike.memoryDead_eq (alike : Alike node live live') {o : MemoryOccurrence} (member : o ∈ node.memory) :
    memoryDead live readout o = memoryDead live' readout o := by
  have named : o.name ∈ mentioned node := List.mem_append_left _ (List.mem_map_of_mem member)
  have same : live.memory.any (fun l => Memory.mayOverlap l o.name) =
      live'.memory.any (fun l => Memory.mayOverlap l o.name) := by
    rw [Bool.eq_iff_iff, List.any_eq_true, List.any_eq_true]
    exact exists_congr (fun l => and_congr_left (fun overlaps => alike.memory l o.name named overlaps))
  rw [memoryDead, memoryDead, isUsed, isUsed, same]

theorem Alike.qubitDead_eq (alike : Alike node live live') {o : QubitOccurrence} (member : o ∈ node.qubits) :
    qubitDead live node o = qubitDead live' node o := by
  have same : ∀ o ∈ node.qubits, live.qubits.contains o.name = live'.qubits.contains o.name := by
    intro o member
    rw [Bool.eq_iff_iff, List.contains_iff_mem, List.contains_iff_mem]
    exact alike.qubits o.name (List.mem_map_of_mem member)
  have entangles : entanglesLive live node = entanglesLive live' node := by
    rw [Bool.eq_iff_iff, entanglesLive, entanglesLive, List.any_eq_true, List.any_eq_true]
    exact exists_congr (fun o => and_congr_right (fun member => by rw [same o member]))
  rw [qubitDead, qubitDead, entangles, same o member]

theorem Alike.isDead_eq (alike : Alike node live live') : isDead live readout node = isDead live' readout node := by
  have memory : node.memory.all (fun o => !o.isAssignment || memoryDead live readout o) =
      node.memory.all (fun o => !o.isAssignment || memoryDead live' readout o) := by
    rw [Bool.eq_iff_iff, List.all_eq_true, List.all_eq_true]
    exact forall₂_congr (fun o member => by rw [alike.memoryDead_eq member])
  have qubits : node.qubits.all (qubitDead live node) = node.qubits.all (qubitDead live' node) := by
    rw [Bool.eq_iff_iff, List.all_eq_true, List.all_eq_true]
    exact forall₂_congr (fun o member => by rw [alike.qubitDead_eq member])
  have idle : node.operation.isGlobalReset = true → live.qubits.isEmpty = live'.qubits.isEmpty := by
    intro global
    rw [Bool.eq_iff_iff, List.isEmpty_iff, List.isEmpty_iff]
    exact alike.global global
  rw [isDead, isDead, memory, qubits]
  split
  · next global => rw [idle global]
  · rfl

theorem Alike.verdict_eq (alike : Alike node live live') : verdict readout node live = verdict readout node live' := by
  have dead : isDead live readout node = isDead live' readout node := alike.isDead_eq
  have memory : node.memory.map (fun o => (⟨node.line, .memory o.name,
      if o.isAssignment then memoryDead live readout o else isDead live readout node⟩ : ResourceLiveness)) =
      node.memory.map (fun o => ⟨node.line, .memory o.name,
        if o.isAssignment then memoryDead live' readout o else isDead live' readout node⟩) :=
    List.map_congr_left (fun o member => by rw [alike.memoryDead_eq member, dead])
  have qubits : node.qubits.map (fun o => (⟨node.line, .qubit o.name,
      qubitDead live node o || isDead live readout node⟩ : ResourceLiveness)) =
      node.qubits.map (fun o => ⟨node.line, .qubit o.name, qubitDead live' node o || isDead live' readout node⟩) :=
    List.map_congr_left (fun o member => by rw [alike.qubitDead_eq member, dead])
  rw [verdict, verdict, memory, qubits, dead]

/-! ## Instructions apart from each other -/

theorem mem_mentioned_of_namesOf {use : MemoryUse} (named : name ∈ namesOf use node.operation) :
    name ∈ mentioned node := by
  obtain ⟨access, own, rfl⟩ := List.mem_map.mp named
  exact List.mem_append_right _ (List.mem_map_of_mem (List.mem_filter.mp own).1)

theorem mem_mentioned_of_readThrough (read : name ∈ readThrough node) : name ∈ mentioned node := by
  obtain ⟨o, own, rfl⟩ := List.mem_map.mp read
  exact List.mem_append_left _ (List.mem_map_of_mem (List.mem_filter.mp own).1)

theorem mem_memoryBefore_of_not_mentioned (absent : name ∉ mentioned node) :
    name ∈ memoryBefore node names ↔ name ∈ names := by
  have unread : ¬ (name ∈ namesOf .usage node.operation ∨ name ∈ readThrough node) := by
    rintro (used | read)
    · exact absent (mem_mentioned_of_namesOf used)
    · exact absent (mem_mentioned_of_readThrough read)
  have kept : name ∉ namesOf .assignment node.operation := fun written => absent (mem_mentioned_of_namesOf written)
  rw [mem_memoryBefore, or_iff_left unread]
  exact and_iff_left (fun _ => kept)

theorem mem_qubitsBefore_of_not_touched (plain : node.operation.isGlobalReset = false) (absent : name ∉ touched node) :
    name ∈ qubitsBefore node names ↔ name ∈ names := by
  rw [mem_qubitsBefore]
  split
  · exact ⟨fun kept => kept.2.1, fun member => ⟨plain, member, absent⟩⟩
  · exact ⟨fun kept => (kept.resolve_right absent).2, fun member => .inl ⟨plain, member⟩⟩

theorem memoryBefore_congr {names' : List String} (same : name ∈ names ↔ name ∈ names') :
    name ∈ memoryBefore node names ↔ name ∈ memoryBefore node names' := by
  rw [mem_memoryBefore, mem_memoryBefore, same]

theorem qubitsBefore_congr {names' : List String} (same : name ∈ names ↔ name ∈ names') :
    name ∈ qubitsBefore node names ↔ name ∈ qubitsBefore node names' := by
  rw [mem_qubitsBefore, mem_qubitsBefore, same]

theorem mem_qubit_resources {q : String} : .qubit q ∈ node.resources ↔ q ∈ touched node := by
  simp [Instruction.resources, touched]

theorem plain_of_touched (apart : Apart x y) {q : String} (touches : q ∈ touched x) :
    y.operation.isGlobalReset = false ∧ q ∉ touched y := by
  refine ⟨?_, fun there => apart.qubits q (mem_qubit_resources.mpr touches) (mem_qubit_resources.mpr there)⟩
  cases global : y.operation.isGlobalReset with
  | false => rfl
  | true =>
      obtain ⟨o, there, _⟩ := List.mem_map.mp touches
      exact absurd ⟨global, .inr (List.ne_nil_of_mem there)⟩ apart.left

theorem idle_of_global (apart : Apart x y) (global : x.operation.isGlobalReset = true) :
    y.operation.isGlobalReset = false ∧ touched y = [] := by
  refine ⟨?_, ?_⟩
  · by_contra global'
    exact apart.leaves ⟨global, .inl (Bool.not_eq_false _ ▸ global')⟩
  · by_contra touches
    exact apart.leaves ⟨global, .inr (fun none => touches (by rw [touched, none, List.map_nil]))⟩

theorem alike_before (apart : Apart x y) : Alike x (before readout y live) live := by
  unfold before
  split
  · exact ⟨fun _ _ _ _ => .rfl, fun _ _ => .rfl, fun _ => .rfl⟩
  · refine ⟨?_, ?_, ?_⟩
    · intro l named mentions overlaps
      refine mem_memoryBefore_of_not_mentioned (fun there => ?_)
      have differ := apart.memory named mentions l there
      rw [Memory.mayOverlap_comm, overlaps] at differ
      cases differ
    · intro q touches
      obtain ⟨plain, absent⟩ := plain_of_touched apart touches
      exact mem_qubitsBefore_of_not_touched plain absent
    · intro global
      obtain ⟨plain, idle⟩ := idle_of_global apart global
      rw [List.eq_nil_iff_forall_not_mem, List.eq_nil_iff_forall_not_mem]
      exact forall_congr' (fun q => not_congr (mem_qubitsBefore_of_not_touched plain (by rw [idle]; exact List.not_mem_nil)))

theorem memoryBefore_comm (apart : Apart x y) : name ∈ memoryBefore x (memoryBefore y names) ↔
    name ∈ memoryBefore y (memoryBefore x names) := by
  by_cases mentions : name ∈ mentioned x
  · have absent : name ∉ mentioned y := by
      intro there
      have differ := apart.memory name mentions name there
      rw [Memory.mayOverlap_self] at differ
      cases differ
    exact (memoryBefore_congr (mem_memoryBefore_of_not_mentioned absent)).trans
      (mem_memoryBefore_of_not_mentioned absent).symm
  · exact (mem_memoryBefore_of_not_mentioned mentions).trans
      (memoryBefore_congr (mem_memoryBefore_of_not_mentioned mentions).symm)

theorem qubitsBefore_comm (apart : Apart x y) : name ∈ qubitsBefore x (qubitsBefore y names) ↔
    name ∈ qubitsBefore y (qubitsBefore x names) := by
  by_cases untouched : y.operation.isGlobalReset = false ∧ name ∉ touched y
  · have same : ∀ names, name ∈ qubitsBefore y names ↔ name ∈ names :=
      fun _ => mem_qubitsBefore_of_not_touched untouched.1 untouched.2
    exact (qubitsBefore_congr (same _)).trans (same _).symm
  · have untouched' : x.operation.isGlobalReset = false ∧ name ∉ touched x := by
      cases global : y.operation.isGlobalReset with
      | true =>
          obtain ⟨plain, idle⟩ := idle_of_global apart.symm global
          exact ⟨plain, by rw [idle]; exact List.not_mem_nil⟩
      | false =>
          have touches : name ∈ touched y := by
            by_contra absent
            exact untouched ⟨global, absent⟩
          exact plain_of_touched apart.symm touches
    have same : ∀ names, name ∈ qubitsBefore x names ↔ name ∈ names :=
      fun _ => mem_qubitsBefore_of_not_touched untouched'.1 untouched'.2
    exact (same _).trans (qubitsBefore_congr (same _).symm)

/-- Instructions apart from each other make the same names live in either order. -/
theorem before_comm (apart : Apart x y) (increasing : live.Increasing) :
    before readout x (before readout y live) = before readout y (before readout x live) := by
  have first : isDead (before readout y live) readout x = isDead live readout x := (alike_before apart).isDead_eq
  have second : isDead (before readout x live) readout y = isDead live readout y := (alike_before apart.symm).isDead_eq
  have sorted : (before readout x (before readout y live)).Increasing := increasing_before (increasing_before increasing)
  have sorted' : (before readout y (before readout x live)).Increasing := increasing_before (increasing_before increasing)
  cases dead : isDead live readout x with
  | true => rw [before_of_dead dead, before_of_dead (first.trans dead)]
  | false =>
      cases dead' : isDead live readout y with
      | true => rw [before_of_dead dead', before_of_dead (second.trans dead')]
      | false =>
          rw [before_of_alive (first.trans dead), before_of_alive dead'] at sorted ⊢
          rw [before_of_alive (second.trans dead'), before_of_alive dead] at sorted' ⊢
          exact congrArg₂ LiveSet.mk
            (Sorted.Increasing.eq_of_mem_iff sorted.memory sorted'.memory (fun _ => memoryBefore_comm apart))
            (Sorted.Increasing.eq_of_mem_iff sorted.qubits sorted'.qubits (fun _ => qubitsBefore_comm apart))

/-! ## Lists -/

variable {nodes nodes' : List Instruction}

theorem foldr_before_swaps (swaps : Swaps Apart nodes nodes') (increasing : live.Increasing) :
    nodes.foldr (before readout) live = nodes'.foldr (before readout) live := by
  induction swaps with
  | nil => rfl
  | cons node _ ih => rw [List.foldr_cons, List.foldr_cons, ih]
  | swap rest apart => exact before_comm apart (increasing_foldr_before increasing)
  | trans _ _ ih ih' => exact ih.trans ih'

/-- Swaps change the order of the judgements and nothing else. -/
theorem judge_swaps (swaps : Swaps Apart nodes nodes') (increasing : live.Increasing) :
    (judge readout live nodes).2.Perm (judge readout live nodes').2 := by
  induction swaps with
  | nil => exact .nil
  | cons node further ih =>
      rw [judge, judge, judge_fst, judge_fst, foldr_before_swaps further increasing]
      exact ih.cons _
  | swap rest apart =>
      simp only [judge]
      rw [(alike_before apart).verdict_eq, (alike_before apart.symm).verdict_eq]
      exact .swap _ _ _
  | trans _ _ ih ih' => exact ih.trans ih'

/-- Whether a list runs the instructions of another one after swaps, and goes on to the same lists. -/
structure Swapped (list after : InstructionList) : Prop where
  nodes : after.nodes = list.nodes
  name : after.name = list.name
  order : list.order.Perm after.order
  running : Swaps Apart list.running after.running
  successors : after.successors = list.successors

variable {lists afters : List InstructionList} {list after : InstructionList} {front : List LiveSet}

theorem Swapped.behind_eq (swapped : Swapped list after) : behind readout front after = behind readout front list := by
  rw [behind, behind, swapped.successors]

theorem Swapped.inFront_eq (swapped : Swapped list after) (sorted : Sorted.Increasing readout) :
    inFront readout front after = inFront readout front list := by
  rw [inFront, inFront, swapped.behind_eq, foldr_before_swaps swapped.running (increasing_behind sorted front list)]

theorem rel_getElem? {α β : Type} {R : α → β → Prop} {l : List α} {l' : List β} (each : List.Forall₂ R l l') (i : Nat) :
    Option.Rel R l[i]? l'[i]? := by
  induction each generalizing i with
  | nil => exact .none
  | cons here _ ih =>
      cases i with
      | zero => exact .some here
      | succ i => exact ih i

theorem renew_swaps (swapped : List.Forall₂ Swapped lists afters) (sorted : Sorted.Increasing readout)
    (positions : List Nat) : renew readout afters front positions = renew readout lists front positions := by
  induction positions generalizing front with
  | nil => rfl
  | cons i rest ih =>
      rw [renew, renew]
      have here := rel_getElem? swapped i
      generalize lists[i]? = found, afters[i]? = found' at here ⊢
      cases here with
      | none => exact ih
      | some here =>
          dsimp only
          rw [here.inFront_eq sorted, ih]

theorem rounds_swaps (swapped : List.Forall₂ Swapped lists afters) (sorted : Sorted.Increasing readout) (bound : Nat) :
    rounds readout afters bound front = rounds readout lists bound front := by
  have round : ∀ front, round readout afters front = round readout lists front := by
    intro front
    rw [Liveness.round, Liveness.round, swapped.length_eq, renew_swaps swapped sorted]
  induction bound generalizing front with
  | zero => rfl
  | succ bound ih => rw [rounds, rounds, round, ih]

theorem roundBound_swaps (swapped : List.Forall₂ Swapped lists afters) :
    roundBound readout afters = roundBound readout lists := by
  have names : (lists.flatMap (fun list => list.running.flatMap broughtIn)).Perm
      (afters.flatMap (fun list => list.running.flatMap broughtIn)) := by
    induction swapped with
    | nil => exact .nil
    | cons here _ ih => exact (here.running.perm.flatMap_right broughtIn).append ih
  rw [roundBound, roundBound, swapped.length_eq, names.length_eq]

/-- Swaps of instructions that share nothing change nothing in front of any list. -/
theorem fixpoint_swaps (swapped : List.Forall₂ Swapped lists afters) (sorted : Sorted.Increasing readout) :
    fixpoint readout afters = fixpoint readout lists := by
  have start : afters.map (fun _ => LiveSet.empty) = lists.map (fun _ => LiveSet.empty) := by
    rw [List.map_const', List.map_const', swapped.length_eq]
  rw [fixpoint, fixpoint, roundBound_swaps swapped, rounds_swaps swapped sorted, start]

/-- Swaps of instructions that share nothing change the order of the judgements and nothing else. -/
theorem analyse_swaps (swapped : List.Forall₂ Swapped lists afters) (sorted : Sorted.Increasing readout) :
    List.Forall₂ List.Perm (analyse lists readout) (analyse afters readout) := by
  rw [analyse, analyse, fixpoint_swaps swapped sorted, List.forall₂_map_left_iff, List.forall₂_map_right_iff]
  refine swapped.imp (fun list after here => ?_)
  rw [here.behind_eq]
  exact judge_swaps here.running (increasing_behind sorted _ list)

/-! ## Dead code -/

theorem unreachable_swaps (swapped : List.Forall₂ Swapped lists afters) :
    DeadCode.unreachable afters = DeadCode.unreachable lists := by
  have successors : DeadCode.successors afters = DeadCode.successors lists := by
    funext i
    rw [DeadCode.successors, DeadCode.successors, swapped.length_eq]
    have here := rel_getElem? swapped i
    generalize lists[i]? = found, afters[i]? = found' at here ⊢
    cases here with
    | none => rfl
    | some here =>
        dsimp only
        rw [here.successors]
  rw [DeadCode.unreachable, DeadCode.unreachable, successors, swapped.length_eq]

theorem toRemove_swaps (swapped : List.Forall₂ Swapped lists afters) (sorted : Sorted.Increasing readout) {i : Nat}
    (here : Swapped list after) : ((DeadCode.find lists readout).toRemove i list).Perm
      ((DeadCode.find afters readout).toRemove i after) := by
  have blocks : (DeadCode.find afters readout).blocks = (DeadCode.find lists readout).blocks := unreachable_swaps swapped
  rw [DeadCode.toRemove, DeadCode.toRemove, blocks]
  split
  · exact here.order
  · simp only [DeadCode.find, List.getElem?_map]
    have judged := rel_getElem? (analyse_swaps swapped sorted) i
    generalize (analyse lists readout)[i]? = found, (analyse afters readout)[i]? = found' at judged ⊢
    cases judged with
    | none => exact .refl _
    | some judged => exact (judged.filter _).map _

theorem linesOf_swaps (here : Swapped list after) {ids ids' : List Nat} (perm : ids.Perm ids') :
    Workspace.linesOf after ids' = Workspace.linesOf list ids := by
  have nodes : after.get? = list.get? := by
    funext id
    rw [InstructionList.get?, InstructionList.get?, here.nodes]
  have lines := (perm.filterMap list.get?).map Instruction.line
  rw [Workspace.linesOf, Workspace.linesOf, nodes]
  refine Sorted.Increasing.eq_of_mem_iff (Sorted.increasing_ofList _) (Sorted.increasing_ofList _) (fun line => ?_)
  rw [Sorted.mem_ofList, Sorted.mem_ofList, lines.mem_iff]

theorem removeAll_swaps (here : Swapped list after) {ids ids' : List Nat} (perm : ids.Perm ids')
    (inside : ∀ id ∈ ids, id < list.nodes.length) : ∃ left left', list.removeAll ids = .ok left ∧
      after.removeAll ids' = .ok left' ∧ left.order.Perm left'.order := by
  have inside' : ∀ id ∈ ids', id < after.nodes.length := by
    rw [here.nodes]
    exact fun id member => inside id (perm.mem_iff.mpr member)
  obtain ⟨left, removed, leaves⟩ := InstructionList.removeAll_eq_ok inside
  obtain ⟨left', removed', leaves'⟩ := InstructionList.removeAll_eq_ok inside'
  refine ⟨left, left', removed, removed', ?_⟩
  rw [← leaves.order, ← leaves'.order]
  have same : ∀ id, ids'.contains id = ids.contains id := by
    intro id
    rw [Bool.eq_iff_iff, List.contains_iff_mem, List.contains_iff_mem, perm.mem_iff]
  simp only [same]
  exact here.order.filter _

/-- A removal of the same instructions reports the same and leaves the same instructions. -/
theorem removeDeadFrom_swaps {dead dead' : DeadCode} (swapped : List.Forall₂ Swapped lists afters) (index : Nat)
    (same : ∀ i list after, lists[i]? = some list → afters[i]? = some after →
      (dead.toRemove (index + i) list).Perm (dead'.toRemove (index + i) after))
    (inside : ∀ i list, lists[i]? = some list → ∀ id ∈ dead.toRemove (index + i) list, id < list.nodes.length) :
    (Workspace.removeDeadFrom dead' index afters).2 = (Workspace.removeDeadFrom dead index lists).2 ∧
      List.Forall₂ (fun list after => list.order.Perm after.order) (Workspace.removeDeadFrom dead index lists).1
        (Workspace.removeDeadFrom dead' index afters).1 := by
  induction swapped generalizing index with
  | nil => exact ⟨rfl, .nil⟩
  | @cons list after rest rest' here further ih =>
      have shift : ∀ i, index + 1 + i = index + (i + 1) := by omega
      obtain ⟨report, orders⟩ := ih (index + 1)
        (fun i list after found found' => shift i ▸ same (i + 1) list after found found')
        (fun i list found => shift i ▸ inside (i + 1) list found)
      have perm : (dead.toRemove index list).Perm (dead'.toRemove index after) := same 0 list after rfl rfl
      have own : ∀ id ∈ dead.toRemove index list, id < list.nodes.length := inside 0 list rfl
      rw [Workspace.removeDeadFrom, Workspace.removeDeadFrom]
      dsimp only
      generalize dead.toRemove index list = ids, dead'.toRemove index after = ids' at perm own ⊢
      cases ids with
      | nil =>
          rw [List.nil_perm.mp perm]
          exact ⟨report, .cons here.order orders⟩
      | cons id ids =>
          obtain ⟨left, left', removed, removed', order⟩ := removeAll_swaps here perm own
          have filled : ids'.isEmpty = false := by
            rw [List.isEmpty_eq_false_iff]
            rintro rfl
            exact List.cons_ne_nil _ _ (List.perm_nil.mp perm)
          rw [filled, removed, removed', linesOf_swaps here perm, here.name, report]
          exact ⟨rfl, .cons order orders⟩

/-- A removal of dead code from lists that run the same instructions after swaps reports the same and leaves the same
    instructions. -/
theorem removeDead_swaps (swapped : List.Forall₂ Swapped lists afters) (orderly : ∀ list ∈ lists, list.Orderly)
    (sorted : Sorted.Increasing readout) :
    (∃ found, (Workspace.ofLists lists readout).removeDead.2 = .ok found ∧
      (Workspace.ofLists afters readout).removeDead.2 = .ok found) ∧
      List.Forall₂ (fun list after => list.order.Perm after.order) (Workspace.ofLists lists readout).removeDead.1.lists
        (Workspace.ofLists afters readout).removeDead.1.lists := by
  have same : ∀ i list after, lists[i]? = some list → afters[i]? = some after →
      ((DeadCode.find lists readout).toRemove (0 + i) list).Perm
        ((DeadCode.find afters readout).toRemove (0 + i) after) := by
    intro i list after found found'
    have here := rel_getElem? swapped i
    rw [found, found'] at here
    cases here with
    | some here => exact toRemove_swaps swapped sorted here
  have inside : ∀ i list, lists[i]? = some list →
      ∀ id ∈ (DeadCode.find lists readout).toRemove (0 + i) list, id < list.nodes.length := by
    intro i list found id member
    rw [Nat.zero_add] at member
    exact inside_of_mem_toRemove orderly found member
  have blocks : (DeadCode.find afters readout).blocks = (DeadCode.find lists readout).blocks := unreachable_swaps swapped
  obtain ⟨⟨removed, succeeds⟩, _⟩ := removeDeadFrom_eq_ok _ 0 inside
  obtain ⟨report, orders⟩ := removeDeadFrom_swaps swapped 0 same inside
  refine ⟨⟨.deadCode removed (DeadCode.find lists readout).blocks, ?_, ?_⟩, orders⟩
  · simp only [Workspace.removeDead, Workspace.ofLists, succeeds]
    rfl
  · simp only [Workspace.removeDead, Workspace.ofLists, report, succeeds, blocks]
    rfl

end TwoLane.Liveness
