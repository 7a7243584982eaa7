import TwoLane.Proofs.Execution.Order

/-! # Reordering

Two orders of a list that both keep to its chains have the same effect: every instruction finds the same in what it
touches. The induction is on the number of the instruction, since what it finds was left by one of a lower number.
-/

namespace TwoLane.Execution

variable {σ : Type} {device : Device σ} {visit : Nat} {list : InstructionList} {order : List Nat}
  {state a b : State σ} {resource : Resource} {id : Nat} {node : Instruction}

theorem isHolder_of_perm (perm : list.order.Perm order) :
    InstructionList.isHolder { list with order := order } = list.isHolder := by
  funext resource id
  have same : order.contains id = list.order.contains id := by
    rw [Bool.eq_iff_iff, List.contains_iff_mem, List.contains_iff_mem, perm.mem_iff]
  exact congrArg (fun c => c && list.holdsAt resource id) same

/-- A list whose instructions run in another order that keeps to its chains. -/
theorem Ordered.of_perm (ordered : Ordered list) (perm : list.order.Perm order)
    (orderly : order.Pairwise (fun x y => ∀ resource, list.holdsAt resource x = true →
      list.holdsAt resource y = true → x < y)) : Ordered { list with order := order } where
  chained := {
    numbered := ordered.chained.numbered
    order := perm.nodup_iff.mp ordered.chained.order
    inside := fun id member => ordered.chained.inside id (perm.mem_iff.mpr member)
    distinct := ordered.chained.distinct
    exact := by
      intro id node resource links running found linked
      rw [InstructionList.nearest, isHolder_of_perm perm]
      exact ordered.chained.exact (perm.mem_iff.mpr running) found linked }
  orderly := orderly
  covers := by
    intro id node running found
    refine (ordered.covers (perm.mem_iff.mpr running) found).fewer ?_
    intro resource other holds
    rw [isHolder_of_perm perm] at holds
    exact holds

/-- An instruction that finds the same in its resources leaves the same in them. -/
theorem Ordered.same_stepAt_of_same (ordered : Ordered list) (running : id ∈ list.order)
    (found : list.nodes[id]? = some node)
    (same : ∀ resource ∈ node.resources, Same a b resource) :
    ∀ resource ∈ node.resources,
      Same (stepAt device visit list a id) (stepAt device visit list b id) resource := by
  have covers := ordered.covers running found
  intro resource member
  rw [stepAt, stepAt, found]
  dsimp only
  by_cases touches : resource ∈ touched node.operation
  · refine same_exec_of_needed (fun r needs => same r ?_) resource touches
    exact covers.touches r (needed_subset _ needs)
  · by_cases plain : node.operation.isGlobalReset = true → ∃ name, resource = .memory name
    · exact ((same_exec touches plain).trans (same resource member)).trans
        (same_exec touches plain).symm
    · rw [Classical.not_imp] at plain
      obtain ⟨global, qubit⟩ := plain
      cases resource with
      | memory name => exact absurd ⟨name, rfl⟩ qubit
      | qubit q =>
          generalize node.operation = operation at global
          cases operation with
          | reset name =>
              cases name with
              | none => rfl
              | some _ => cases global
          | _ => cases global

/-- In both orders an instruction finds the same in its resources. -/
theorem Ordered.same_views (ordered : Ordered list) (perm : list.order.Perm order)
    (ordered' : Ordered { list with order := order }) (running : id ∈ list.order)
    (found : list.nodes[id]? = some node) :
    ∀ resource ∈ node.resources,
      Same (stateBefore device visit list state id)
        (stateBefore device visit { list with order := order } state id) resource := by
  induction id using Nat.strong_induction_on generalizing node with
  | _ id ih =>
      intro resource member
      have holder : list.isHolder resource id = true :=
        InstructionList.isHolder_iff.mpr ⟨running, node, found, member⟩
      have holder' : InstructionList.isHolder { list with order := order } resource id = true := by
        rw [isHolder_of_perm perm]
        exact holder
      cases nearest : Nearest.below? (list.isHolder resource) id with
      | none =>
          have nearest' := nearest
          rw [← isHolder_of_perm perm] at nearest'
          exact (ordered.same_before_first holder nearest).trans
            (ordered'.same_before_first holder' nearest').symm
      | some previous =>
          have nearest' := nearest
          rw [← isHolder_of_perm perm] at nearest'
          obtain ⟨lower, holds, _⟩ := Nearest.below?_eq_some.mp nearest
          obtain ⟨runs, before, there, own⟩ := InstructionList.isHolder_iff.mp holds
          have views := ih previous lower runs there
          exact ((ordered.same_before holder nearest).trans
            (ordered.same_stepAt_of_same runs there views resource own)).trans
              (ordered'.same_before holder' nearest').symm

theorem Ordered.same_after (ordered : Ordered list) (perm : list.order.Perm order)
    (ordered' : Ordered { list with order := order }) (running : id ∈ list.order)
    (found : list.nodes[id]? = some node) :
    ∀ resource ∈ node.resources,
      Same (stateAfter device visit list state id)
        (stateAfter device visit { list with order := order } state id) resource :=
  ordered.same_stepAt_of_same running found (ordered.same_views perm ordered' running found)

/-! ## The end of a list -/

/-- Whether the instruction of a number resets all qubits. -/
def resetsAll (list : InstructionList) (id : Nat) : Bool :=
  ((list.nodes[id]?).map (fun node => node.operation.isGlobalReset)).getD false

/-- A state whose qubits are reset where a condition holds. -/
def cleared (device : Device σ) (state : State σ) (clear : Bool) : State σ :=
  if clear then { state with qubits := fun _ => device.ket .zero } else state

theorem same_cleared {clear further : Bool} (same : Same a (cleared device b clear) resource) :
    Same (cleared device a further) (cleared device b (clear || further)) resource := by
  cases further with
  | false =>
      rw [Bool.or_false]
      exact same
  | true =>
      rw [Bool.or_true]
      cases resource with
      | qubit _ => rfl
      | memory name =>
          cases clear with
          | false => exact same
          | true => exact same

theorem exec_of_global {site : Site} {operation : Operation} (global : operation.isGlobalReset = true) :
    device.exec site operation state = cleared device state true := by
  cases operation with
  | reset name =>
      cases name with
      | none => rfl
      | some _ => cases global
  | _ => cases global

theorem Ordered.stepAt_of_unheld (ordered : Ordered list) (running : id ∈ list.order)
    (unheld : ∀ id, list.isHolder resource id = false) :
    Same (stepAt device visit list state id) (cleared device state (resetsAll list id)) resource := by
  obtain ⟨node, found⟩ := ordered.chained.exists_node running
  have covers := ordered.covers running found
  have off : resource ∉ touched node.operation := by
    intro touches
    have member := covers.touches resource touches
    have holds := InstructionList.isHolder_iff.mpr ⟨running, _, found, member⟩
    rw [unheld id] at holds
    cases holds
  rw [stepAt, resetsAll, found]
  simp only [Option.map_some, Option.getD_some]
  cases global : node.operation.isGlobalReset with
  | true =>
      rw [exec_of_global global]
      exact Same.refl _ _
  | false =>
      refine same_exec off (fun other => ?_)
      rw [global] at other
      cases other

theorem Ordered.runIds_of_unheld (ordered : Ordered list) {ids : List Nat}
    (running : ∀ id ∈ ids, id ∈ list.order)
    (unheld : ∀ id, list.isHolder resource id = false) :
    Same (runIds device visit list state ids) (cleared device state (ids.any (resetsAll list)))
      resource := by
  induction ids generalizing state with
  | nil => exact Same.refl _ _
  | cons id rest ih =>
      have first : Same (stepAt device visit list state id) _ resource :=
        ordered.stepAt_of_unheld (running id List.mem_cons_self) unheld
      have further : Same (runIds device visit list (stepAt device visit list state id) rest) _ resource :=
        ih (fun x member => running x (List.mem_cons_of_mem _ member))
      rw [List.any_cons]
      exact further.trans (same_cleared first)

theorem exists_last (chained : list.Chained) {other : Nat} (holds : list.isHolder resource other = true) :
    ∃ last, list.isHolder resource last = true ∧
      ∀ id, list.isHolder resource id = true → id ≤ last := by
  have inside : ∀ id, list.isHolder resource id = true → id < list.nodes.length := fun id holder =>
    chained.inside id (List.contains_iff_mem.mp (Bool.and_eq_true_iff.mp holder).1)
  cases nearest : Nearest.below? (list.isHolder resource) list.nodes.length with
  | none =>
      rw [Nearest.below?_eq_none.mp nearest other (inside other holds)] at holds
      cases holds
  | some last =>
      obtain ⟨_, holder, between⟩ := Nearest.below?_eq_some.mp nearest
      refine ⟨last, holder, fun id holds => ?_⟩
      by_contra above
      rw [between id (by omega) (inside id holds)] at holds
      cases holds

/-- Both orders lead to the same state. -/
theorem Ordered.runList_of_perm (ordered : Ordered list) (perm : list.order.Perm order)
    (ordered' : Ordered { list with order := order }) :
    runList device visit { list with order := order } state = runList device visit list state := by
  refine ext_same (fun resource => ?_)
  have holders := isHolder_of_perm perm
  by_cases held : ∃ id, list.isHolder resource id = true
  · obtain ⟨last, holds, latest⟩ := exists_last ordered.chained held.choose_spec
    obtain ⟨runs, node, found, own⟩ := InstructionList.isHolder_iff.mp holds
    have runs' : last ∈ order := perm.mem_iff.mp runs
    have first : Same (runList device visit list state) _ resource :=
      ordered.same_last (List.append_nil _).symm runs holds (fun id _ => latest id)
    have second : Same (runList device visit { list with order := order } state) _ resource :=
      ordered'.same_last (List.append_nil _).symm runs' (by rw [holders]; exact holds)
        (fun id _ holder => latest id (by rw [holders] at holder; exact holder))
    exact (second.trans (ordered.same_after perm ordered' runs found resource own).symm).trans
      first.symm
  · have unheld : ∀ id, list.isHolder resource id = false := fun id => by
      simpa using fun holder => held ⟨id, holder⟩
    have first : Same (runList device visit list state) _ resource :=
      ordered.runIds_of_unheld (fun _ member => member) unheld
    have second : Same (runList device visit { list with order := order } state) _ resource :=
      ordered'.runIds_of_unheld (fun _ member => member) (fun id => by rw [holders]; exact unheld id)
    have resets : list.order.any (resetsAll list) = order.any (resetsAll list) := perm.any_eq
    rw [resets] at first
    exact second.trans first.symm

theorem condition_touched {operation : Operation} {name : String}
    (decides : Indexed.Machine.condition? operation = some name) :
    Resource.memory name ∈ touched operation := by
  cases operation with
  | jumpWhen _ _ =>
      cases decides
      exact List.mem_singleton_self _
  | jumpUnless _ _ =>
      cases decides
      exact List.mem_singleton_self _
  | _ => cases decides

/-- A conditional jump is decided by the same value in both orders. -/
theorem Ordered.decision_of_perm (ordered : Ordered list) (perm : list.order.Perm order)
    (ordered' : Ordered { list with order := order }) (running : id ∈ list.order) :
    decision? device visit { list with order := order } state id = decision? device visit list state id := by
  obtain ⟨node, found⟩ := ordered.chained.exists_node running
  unfold decision?
  dsimp only
  rw [found, Option.bind_some]
  cases decides : Indexed.Machine.condition? node.operation with
  | none => rfl
  | some name =>
      have own := (ordered.covers running found).touches _ (condition_touched decides)
      exact congrArg some (ordered.same_views perm ordered' running found _ own).symm

/-- Conditional jumps that come in the same order are decided by the same values. -/
theorem Ordered.decisions_of_perm (ordered : Ordered list) (perm : list.order.Perm order)
    (ordered' : Ordered { list with order := order }) {steers : Nat → Bool}
    (jumps : ∀ id ∈ list.order, steers id = false → decision? device visit list state id = none)
    (kept : order.filter steers = list.order.filter steers) :
    decisions device visit { list with order := order } state = decisions device visit list state := by
  have through : ∀ ids : List Nat, (∀ id ∈ ids, id ∈ list.order) →
      ids.filterMap (decision? device visit list state) =
        (ids.filter steers).filterMap (decision? device visit list state) := by
    intro ids running
    rw [List.filterMap_filter]
    refine List.filterMap_congr (fun id member => ?_)
    cases steer : steers id with
    | true => rfl
    | false => exact jumps id (running id member) steer
  calc order.filterMap (decision? device visit { list with order := order } state)
      = order.filterMap (decision? device visit list state) :=
        List.filterMap_congr (fun id member =>
          ordered.decision_of_perm perm ordered' (perm.mem_iff.mpr member))
    _ = (order.filter steers).filterMap (decision? device visit list state) :=
        through order (fun _ member => perm.mem_iff.mpr member)
    _ = (list.order.filter steers).filterMap (decision? device visit list state) := by rw [kept]
    _ = list.order.filterMap (decision? device visit list state) :=
        (through list.order (fun _ member => member)).symm

end TwoLane.Execution
