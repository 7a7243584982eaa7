import TwoLane.Proofs.Chain.Surgery
import TwoLane.Proofs.Execution.Passes
import TwoLane.Proofs.Execution.Reordering

/-! # Removals keep results

A program without its dead instructions runs through states that agree with those of the whole program on all that is
live. So its conditional jumps are decided by the same values, the references that are read out hold the same in the
end, and what is known about the instructions that are left stays true.
-/

namespace TwoLane.Execution

open Indexed (writtenNames usedNames)
open Liveness (isDead before before_of_dead behind memoryBefore qubitsBefore deadIds judge)
open InstructionList (SameButLinks)

variable {σ : Type} {device : Device σ} {visit : Nat} {site : Site} {list after : InstructionList} {live : LiveSet}
  {readout : List String} {node : Instruction} {a b : State σ} {id : Nat}

/-- Whether two states are the same in all that is live. -/
structure Agree (live : LiveSet) (a b : State σ) : Prop where
  memory : ∀ name ∈ live.memory, a.memory name = b.memory name
  qubits : ∀ q ∈ live.qubits, a.qubits q = b.qubits q

theorem Agree.refl (live : LiveSet) (a : State σ) : Agree live a a :=
  ⟨fun _ _ => rfl, fun _ _ => rfl⟩

theorem Agree.weaken {less : LiveSet} (agree : Agree live a b) (within : less.Within live) : Agree less a b :=
  ⟨fun name member => agree.memory name (within.memory member), fun q member => agree.qubits q (within.qubits member)⟩

/-! ## One instruction -/

def needs (node : Instruction) (live : LiveSet) : LiveSet :=
  ⟨memoryBefore node live.memory, qubitsBefore node live.qubits⟩

theorem before_of_not_dead (kept : isDead live readout node = false) : before readout node live = needs node live :=
  Liveness.before_of_alive kept

theorem mem_touched_of_access (covers : Covers list node) {q : String}
    (touches : Resource.qubit q ∈ touched node.operation) : q ∈ Liveness.touched node := by
  rcases List.mem_append.mp (covers.touches _ touches) with memory | qubit
  · obtain ⟨_, _, same⟩ := List.mem_map.mp memory
    cases same
  · obtain ⟨o, there, same⟩ := List.mem_map.mp qubit
    exact List.mem_map.mpr ⟨o, there, Resource.qubit.inj same⟩

theorem touched_of_mem (covers : Covers list node) (plain : node.operation.isGlobalReset = false) {q : String}
    (member : q ∈ Liveness.touched node) : Resource.qubit q ∈ touched node.operation := by
  obtain ⟨o, there, rfl⟩ := List.mem_map.mp member
  obtain ⟨access, own, name, _⟩ := covers.qubits plain o there
  exact qubit_mem_touched.mpr ⟨access, own, name⟩

theorem Agree.needed (agree : Agree (needs node live) a b) (covers : Covers list node) :
    ∀ resource ∈ needed node.operation, Same a b resource := by
  intro resource member
  cases resource with
  | memory name => exact agree.memory name (Indexed.used_live covers.writes (memory_mem_needed.mp member))
  | qubit q =>
      unfold Execution.needed at member
      rcases List.mem_append.mp member with memory | qubit
      · obtain ⟨_, _, same⟩ := List.mem_map.mp memory
        cases same
      · split at qubit
        · cases qubit
        · next plain =>
          have own := mem_touched_of_access covers (List.mem_append_right _ qubit)
          refine agree.qubits q (Liveness.mem_qubitsBefore.mpr ?_)
          rw [if_neg plain]
          exact .inr own

/-- An instruction that is not dead keeps the agreement. -/
theorem Agree.exec (agree : Agree (needs node live) a b) (covers : Covers list node) :
    Agree live (device.exec site node.operation a) (device.exec site node.operation b) where
  memory := by
    intro name member
    by_cases written : name ∈ writtenNames node.operation
    · exact same_exec_of_needed (agree.needed covers) (.memory name) (touched_of_written written)
    · rw [memory_exec written, memory_exec written]
      exact agree.memory name (Liveness.mem_memoryBefore.mpr (.inl ⟨member, fun _ => written⟩))
  qubits := by
    intro q member
    by_cases touches : Resource.qubit q ∈ touched node.operation
    · exact same_exec_of_needed (agree.needed covers) (.qubit q) touches
    · cases global : node.operation.isGlobalReset with
      | true =>
          rw [exec_of_global global, exec_of_global global]
          rfl
      | false =>
          have stays : ∀ state : State σ, (device.exec site node.operation state).qubits q = state.qubits q :=
            fun state => show Same _ _ (.qubit q) from
              same_exec touches (fun reset => by rw [global] at reset; cases reset)
          rw [stays, stays]
          refine agree.qubits q (Liveness.mem_qubitsBefore.mpr ?_)
          split
          · exact ⟨global, member, fun own => touches (touched_of_mem covers global own)⟩
          · exact .inl ⟨global, member⟩

/-- A dead instruction changes nothing that is live. -/
theorem Agree.skip (agree : Agree live a b) (covers : Covers list node) (dead : isDead live readout node = true) :
    Agree live (device.exec site node.operation a) b where
  memory := by
    intro name member
    have unwritten : name ∉ writtenNames node.operation := by
      intro written
      have apart := (Liveness.apart_of_isDead dead covers.writes written).1 name member
      rw [Memory.mayOverlap_self] at apart
      cases apart
    rw [memory_exec unwritten]
    exact agree.memory name member
  qubits := by
    intro q member
    cases global : node.operation.isGlobalReset with
    | true =>
        rw [Liveness.no_qubits_of_isDead dead global] at member
        cases member
    | false =>
        have off : Resource.qubit q ∉ touched node.operation := by
          intro touches
          obtain ⟨o, there, rfl⟩ := List.mem_map.mp (mem_touched_of_access covers touches)
          exact Liveness.qubit_of_isDead dead global there member
        have stays : (device.exec site node.operation a).qubits q = a.qubits q :=
          show Same _ _ (.qubit q) from same_exec off (fun reset => by rw [global] at reset; cases reset)
        rw [stays]
        exact agree.qubits q member

/-- What is known about an instruction that is not dead holds in states that agree on what is live. -/
theorem HoldsAt.of_agree (holds : HoldsAt device node a (device.exec site node.operation a))
    (agree : Agree (needs node live) a b) (covers : Covers list node) (distinct : node.resources.Nodup) :
    HoldsAt device node b (device.exec site node.operation b) := by
  have same : ∀ resource ∈ touched node.operation,
      Same (device.exec site node.operation a) (device.exec site node.operation b) resource :=
    same_exec_of_needed (agree.needed covers)
  refine ⟨?_, holds.named, ?_, ?_⟩
  · intro o member value known
    rw [← holds.memory o member value known]
    cases use : o.isAssignment with
    | true => exact (same (.memory o.name) (touched_of_written (holds.named o member value known use))).symm
    | false =>
        have unwritten := covers.unwritten distinct member use
        rw [memory_exec unwritten, memory_exec unwritten]
        refine (agree.memory o.name (Liveness.mem_memoryBefore.mpr (.inr (.inr ?_)))).symm
        exact List.mem_map_of_mem (List.mem_filter.mpr ⟨member, by simp [use]⟩)
  · intro o member known isKnown
    rw [← holds.after o member known isKnown]
    cases global : node.operation.isGlobalReset with
    | true =>
        rw [exec_of_global global, exec_of_global global]
        rfl
    | false => exact (same (.qubit o.name) (touched_of_mem covers global (List.mem_map_of_mem member))).symm
  · intro plain o member known isKnown
    rw [← holds.before plain o member known isKnown]
    refine (agree.qubits o.name (Liveness.mem_qubitsBefore.mpr ?_)).symm
    rw [if_neg (by simp [plain])]
    exact .inr (List.mem_map_of_mem member)

/-! ## One list -/

def liveAt (readout : List String) (list : InstructionList) (live : LiveSet) (ids : List Nat) : LiveSet :=
  (ids.filterMap list.get?).foldr (before readout) live

def stays (readout : List String) (list : InstructionList) (live : LiveSet) (id : Nat) : Bool :=
  !(deadIds (judge readout live list.running).2).contains id

theorem mem_deadIds_append (readout : List String) (live : LiveSet) {front rest : List Instruction}
    (distinct : ((front ++ node :: rest).map Instruction.id).Nodup) :
    node.id ∈ deadIds (judge readout live (front ++ node :: rest)).2 ↔
      isDead (rest.foldr (before readout) live) readout node = true := by
  induction front with
  | nil =>
      have absent : node.id ∉ deadIds (judge readout live rest).2 :=
        fun there => (List.nodup_cons.mp distinct).1 (Liveness.deadIds_subset rest there)
      rw [List.nil_append, Liveness.deadIds_cons]
      split
      · next dead => simp [dead]
      · next kept => simp [absent, kept]
  | cons first front ih =>
      obtain ⟨apart, further⟩ := List.nodup_cons.mp distinct
      have differ : node.id ≠ first.id := fun same => apart (by simp [same])
      rw [List.cons_append, Liveness.deadIds_cons]
      split
      · rw [List.mem_cons, ih further]
        simp [differ]
      · exact ih further

theorem stays_split (chained : list.Chained) {pre post : List Nat} (split : list.order = pre ++ id :: post)
    (found : list.nodes[id]? = some node) :
    stays readout list live id = !isDead (liveAt readout list live post) readout node := by
  have nodes : list.running = pre.filterMap list.get? ++ node :: post.filterMap list.get? := by
    rw [InstructionList.running, split, List.filterMap_append,
      List.filterMap_cons_some (show list.get? id = some node from found)]
  have distinct : (list.running.map Instruction.id).Nodup := by
    rw [InstructionList.map_id_running chained.numbered chained.inside]
    exact chained.order
  have dead := mem_deadIds_append readout live (nodes ▸ distinct)
  rw [chained.numbered found, ← nodes] at dead
  rw [stays, Bool.eq_iff_iff, Bool.not_eq_true', Bool.not_eq_true', ← Bool.not_eq_true, ← Bool.not_eq_true,
    List.contains_iff_mem]
  exact not_congr dead

theorem liveAt_cons (found : list.nodes[id]? = some node) (post : List Nat) :
    liveAt readout list live (id :: post) = before readout node (liveAt readout list live post) := by
  rw [liveAt, List.filterMap_cons_some (show list.get? id = some node from found)]
  rfl

theorem agree_runIds (ordered : Ordered list) {pre post : List Nat} (split : list.order = pre ++ post)
    (agree : Agree (liveAt readout list live list.order) a b) :
    Agree (liveAt readout list live post) (runIds device visit list a pre)
      (runIds device visit list b (pre.filter (stays readout list live))) := by
  induction pre using List.reverseRecOn generalizing post with
  | nil =>
      rw [split] at agree
      exact agree
  | append_singleton front id ih =>
      have whole : list.order = front ++ id :: post := by simpa using split
      have member : id ∈ list.order := by simp [whole]
      obtain ⟨node, found⟩ := ordered.chained.exists_node member
      have covers := ordered.covers member found
      have earlier := ih whole
      have step : ∀ state : State σ, runIds device visit list state [id] =
          device.exec ⟨visit, id⟩ node.operation state := by
        intro state
        change stepAt device visit list state id = _
        rw [stepAt, found]
      rw [liveAt_cons found] at earlier
      rw [List.filter_append, runIds_append, runIds_append, step]
      cases dead : isDead (liveAt readout list live post) readout node with
      | true =>
          have goes : stays readout list live id = false := by rw [stays_split ordered.chained whole found, dead]; rfl
          rw [List.filter_cons_of_neg (by simp [goes])]
          rw [before_of_dead dead] at earlier
          exact earlier.skip covers dead
      | false =>
          have kept : stays readout list live id = true := by rw [stays_split ordered.chained whole found, dead]; rfl
          rw [List.filter_cons_of_pos kept, List.filter_nil, step]
          rw [before_of_not_dead dead] at earlier
          exact earlier.exec covers

/-- Whether a list is left of another one when some of its instructions are removed. -/
structure LeftOf (list after : InstructionList) (keep : Nat → Bool) : Prop where
  same : SameButLinks { list with order := list.order.filter keep } after
  chained : after.Chained

variable {keep : Nat → Bool}

theorem LeftOf.order (left : LeftOf list after keep) : after.order = list.order.filter keep :=
  left.same.order.symm

theorem LeftOf.view (left : LeftOf list after keep) {α : Type} (view : Instruction → α)
    (links : ∀ n, view n = view n.withoutLinks) (id : Nat) :
    (after.nodes[id]?).map view = (list.nodes[id]?).map view := by
  have same := congrArg (fun nodes : List Instruction => (nodes[id]?).map view) left.same.nodes
  simp only [List.getElem?_map, Option.map_map, Function.comp_def, ← links] at same
  exact same.symm

theorem LeftOf.regular (left : LeftOf list after keep) (regular : Regular list) : Regular after := by
  have order : after.order.Sublist list.order := left.order ▸ List.filter_sublist
  have ordered : Ordered after := by
    refine regular.ordered.restrict left.chained order ?_ ?_
    · intro resource id holds
      obtain ⟨runs, node, found, member⟩ := InstructionList.isHolder_iff.mp holds
      obtain ⟨before, there, same⟩ := left.same.symm.getElem? found
      exact InstructionList.isHolder_iff.mpr ⟨order.subset runs, before, there, Instruction.resources_congr same ▸ member⟩
    · intro id node runs found
      obtain ⟨before, there, same⟩ := left.same.symm.getElem? found
      exact (regular.ordered.covers (order.subset runs) there).of_links same
  exact regular.of_roles ordered (left.view Instruction.role (fun _ => rfl)) order.subset

theorem LeftOf.guarded (left : LeftOf list after keep) {names : List String} (guarded : Guarded names list) :
    Guarded names after :=
  guarded.of_links (left.view Instruction.withoutLinks (fun n => by simp [Instruction.withoutLinks, Function.comp_def]))
    (left.order ▸ List.filter_sublist.subset)

theorem LeftOf.runIds_eq (left : LeftOf list after keep) (state : State σ) (ids : List Nat) :
    runIds device visit after state ids = runIds device visit list state ids := by
  have step : stepAt device visit after = stepAt device visit list := by
    funext state id
    exact stepAt_congr (left.view Instruction.operation (fun _ => rfl) id)
  rw [runIds, runIds, step]

theorem LeftOf.stateBefore_eq (left : LeftOf list after keep) {pre post : List Nat}
    (split : list.order = pre ++ id :: post) (kept : keep id = true) (state : State σ) :
    stateBefore device visit after state id = runIds device visit list state (pre.filter keep) := by
  have order : after.order = pre.filter keep ++ id :: post.filter keep := by
    rw [left.order, split, List.filter_append, List.filter_cons_of_pos kept]
  rw [stateBefore, order, takeWhile_split (order ▸ left.chained.order), left.runIds_eq]

theorem agree_before (device : Device σ) (visit : Nat) (ordered : Ordered list)
    (agree : Agree (liveAt readout list live list.order) a b)
    (running : id ∈ list.order) (found : list.nodes[id]? = some node) :
    ∃ pre post, list.order = pre ++ id :: post ∧
      stays readout list live id = !isDead (liveAt readout list live post) readout node ∧
      Agree (before readout node (liveAt readout list live post)) (stateBefore device visit list a id)
        (runIds device visit list b (pre.filter (stays readout list live))) := by
  obtain ⟨pre, post, whole⟩ := List.append_of_mem running
  refine ⟨pre, post, whole, stays_split ordered.chained whole found, ?_⟩
  rw [stateBefore_split ordered whole, ← liveAt_cons found]
  exact agree_runIds ordered whole agree

theorem condition_used {operation : Operation} {name : String}
    (decides : Indexed.Machine.condition? operation = some name) : name ∈ usedNames operation := by
  cases operation with
  | jumpWhen _ _ =>
      cases decides
      exact List.mem_append_left _ (List.mem_singleton_self _)
  | jumpUnless _ _ =>
      cases decides
      exact List.mem_append_left _ (List.mem_singleton_self _)
  | _ => cases decides

/-- Conditional jumps stay, and are decided by the same values. -/
theorem LeftOf.decision?_eq (left : LeftOf list after (stays readout list live)) (regular : Regular list)
    (agree : Agree (liveAt readout list live list.order) a b) (running : id ∈ list.order) :
    (if stays readout list live id then decision? device visit after b id else none) =
      decision? device visit list a id := by
  have ordered := regular.ordered
  obtain ⟨node, found⟩ := ordered.chained.exists_node running
  have view := left.view (fun node => Indexed.Machine.condition? node.operation) (fun _ => rfl) id
  rw [found, Option.map_some] at view
  obtain ⟨other, otherFound, same⟩ := Option.map_eq_some_iff.mp view
  rw [decision?, decision?, found, otherFound, Option.bind_some, Option.bind_some, same]
  cases condition : Indexed.Machine.condition? node.operation with
  | none => simp
  | some name =>
      obtain ⟨pre, post, whole, kept, there⟩ := agree_before device visit ordered agree running found
      have control := regular.steered id running node found (by rw [condition]; rfl)
      have alive : isDead (liveAt readout list live post) readout node = false := by
        simp [isDead, control]
      have stay : stays readout list live id = true := by rw [kept, alive]; rfl
      rw [before_of_not_dead alive] at there
      rw [if_pos stay, Option.map_some, Option.map_some, left.stateBefore_eq whole stay]
      exact congrArg some
        (there.memory name (Indexed.used_live (ordered.covers running found).writes (condition_used condition))).symm

/-- What is known about the instructions that stay is true. -/
theorem LeftOf.told (left : LeftOf list after (stays readout list live)) (regular : Regular list)
    (agree : Agree (liveAt readout list live list.order) a b) (told : Told device visit list a) :
    Told device visit after b := by
  have ordered := regular.ordered
  intro id runs node found
  rw [left.order, List.mem_filter] at runs
  obtain ⟨running, stay⟩ := runs
  obtain ⟨old, oldFound, same⟩ := left.same.symm.getElem? found
  have oldFound' : list.nodes[id]? = some old := oldFound
  obtain ⟨pre, post, whole, kept, there⟩ := agree_before device visit ordered agree running oldFound'
  have alive : isDead (liveAt readout list live post) readout old = false := by
    rw [stay] at kept
    simpa using kept.symm
  rw [before_of_not_dead alive] at there
  have holds := told id running old oldFound'
  rw [stateAfter_eq oldFound'] at holds
  have held := holds.of_agree there (ordered.covers running oldFound') (ordered.chained.distinct oldFound')
  rw [stateAfter_eq found, left.stateBefore_eq whole stay, Instruction.operation_congr same]
  exact held.of_links same

/-- A list without its dead instructions does the same on states that agree on what is live, and what is known in it
    is true. -/
theorem LeftOf.same_results (left : LeftOf list after (stays readout list live)) (regular : Regular list)
    (agree : Agree (liveAt readout list live list.order) a b) :
    decisions device visit after b = decisions device visit list a ∧
      Agree live (runList device visit list a) (runList device visit after b) := by
  refine ⟨?_, ?_⟩
  · rw [decisions, left.order, decisions, List.filterMap_filter]
    exact List.filterMap_congr (fun id running => left.decision?_eq regular agree running)
  · rw [runList, runList, left.order, left.runIds_eq]
    exact agree_runIds regular.ordered (List.append_nil _).symm agree

end TwoLane.Execution
