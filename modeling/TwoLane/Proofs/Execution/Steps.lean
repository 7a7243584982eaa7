import Mathlib.Data.List.Chain
import TwoLane.Optimize.Run
import TwoLane.Proofs.Execution.Analyses
import TwoLane.Proofs.Execution.Folding
import TwoLane.Proofs.Execution.Removal
import TwoLane.Proofs.Execution.Scheduling
import TwoLane.Proofs.Result

/-! # Steps keep results

Every step of an optimization succeeds on a workspace whose lists are regular and whose hybrid maps hold, leaves such a
workspace, and keeps all results. So does every sequence of steps.
-/

namespace TwoLane.Execution

open InstructionList (SameButLinks)
open Liveness (at? behind fixpoint)

variable {σ : Type} {device : Device σ} {memory : String → Number} {lists lists' : List InstructionList}
  {state next : Workspace} {visit i : Nat}

/-! ## Dead code -/

theorem Enters.exists_path {a : State σ} (entered : Enters device lists memory visit i a) :
    ∃ path, Liveness.Follows lists (path ++ [i]) ∧ (path ++ [i]).head? = some 0 := by
  induction entered with
  | start => exact ⟨[], .singleton _, rfl⟩
  | @step _ from' _ _ _ _ found goes _ ih =>
      obtain ⟨path, follows, begins⟩ := ih
      refine ⟨path ++ [from'], ?_, ?_⟩
      · refine List.isChain_append.mpr ⟨follows, .singleton _, ?_⟩
        intro x xLast y yFirst
        simp only [List.getLast?_append, List.getLast?_singleton, Option.some_or, Option.mem_some_iff] at xLast
        cases xLast
        cases yFirst
        exact ⟨_, found, goes⟩
      · rw [List.head?_append, begins]
        rfl

theorem nodup_deadIds {readout : List String} {live : LiveSet} {nodes : List Instruction}
    (distinct : (nodes.map Instruction.id).Nodup) :
    (Liveness.deadIds (Liveness.judge readout live nodes).2).Nodup := by
  induction nodes with
  | nil => exact List.nodup_nil
  | cons node rest ih =>
      obtain ⟨absent, further⟩ := List.nodup_cons.mp distinct
      rw [Liveness.deadIds_cons]
      split
      · exact List.nodup_cons.mpr ⟨fun there => absent (Liveness.deadIds_subset rest there), ih further⟩
      · exact ih further

theorem removeDead_leaves (regular : ∀ list ∈ lists, Regular list) (readout : List String) (hybrids : List HybridMap) :
    ∃ lists' found, Workspace.removeDead ⟨lists, hybrids, readout⟩ = (⟨lists', hybrids, readout⟩, .ok found) ∧
      lists'.length = lists.length ∧ ∀ i list, lists[i]? = some list → ∃ after keep, lists'[i]? = some after ∧
        LeftOf list after keep ∧ (i ∉ DeadCode.unreachable lists →
          keep = stays readout list (behind readout (fixpoint readout lists) list)) := by
  have chained : ∀ list ∈ lists, list.Chained := fun list member => (regular list member).ordered.chained
  obtain ⟨⟨found, succeeds⟩, length, each⟩ := Liveness.removeDeadFrom_eq_ok (DeadCode.find lists readout) 0
    (fun i list there id member => by
      rw [Nat.zero_add] at member
      exact Liveness.inside_of_mem_toRemove (fun list member => (chained list member).orderly) there member)
  refine ⟨(Workspace.removeDeadFrom (DeadCode.find lists readout) 0 lists).1,
    .deadCode found (DeadCode.find lists readout).blocks, ?_, length, ?_⟩
  · exact Prod.ext rfl (by simp only [Workspace.removeDead, succeeds]; rfl)
  · intro i list there
    obtain ⟨after, here, removed⟩ := each i list there
    rw [Nat.zero_add] at removed
    have own := chained list (List.mem_of_getElem? there)
    have ids : (DeadCode.find lists readout).toRemove i list = list.order ∧ i ∈ DeadCode.unreachable lists ∨
        (DeadCode.find lists readout).toRemove i list = Liveness.deadIds
          (Liveness.judge readout (behind readout (fixpoint readout lists) list) list.running).2 := by
      rw [DeadCode.toRemove]
      split
      · next gone => exact .inl ⟨rfl, List.contains_iff_mem.mp gone⟩
      · exact .inr (by simp [DeadCode.find, Liveness.analyse, there])
    have running : (list.running.map Instruction.id) = list.order :=
      InstructionList.map_id_running own.numbered own.inside
    have distinct : ((DeadCode.find lists readout).toRemove i list).Nodup := by
      rcases ids with ⟨all, _⟩ | dead
      · exact all ▸ own.order
      · exact dead ▸ nodup_deadIds (running ▸ own.order)
    have subset : (DeadCode.find lists readout).toRemove i list ⊆ list.order := by
      rcases ids with ⟨all, _⟩ | dead
      · rw [all]
        exact List.Subset.refl _
      · rw [dead, ← running]
        exact Liveness.deadIds_subset _
    obtain ⟨after', removed', same, chainedAfter⟩ := own.removeAll distinct subset
    cases removed.symm.trans removed'
    refine ⟨after, _, here, ⟨same, chainedAfter⟩, fun reachable => ?_⟩
    rcases ids with ⟨_, gone⟩ | dead
    · exact absurd gone reachable
    · rw [dead]
      rfl

/-- A family of lists that a removal leaves. -/
structure AllLeft (readout : List String) (lists lists' : List InstructionList) : Prop where
  flow : lists'.map InstructionList.successors = lists.map InstructionList.successors
  each : ∀ {i list list'}, lists[i]? = some list → lists'[i]? = some list' → ∃ keep, LeftOf list list' keep ∧
    (i ∉ DeadCode.unreachable lists → keep = stays readout list (behind readout (fixpoint readout lists) list))

theorem AllLeft.left {readout : List String} (left : AllLeft readout lists lists') {a : State σ} {list list' : InstructionList}
    (entered : Enters device lists memory visit i a) (found : lists[i]? = some list) (found' : lists'[i]? = some list') :
    LeftOf list list' (stays readout list (behind readout (fixpoint readout lists) list)) := by
  obtain ⟨keep, leftOf, reachable⟩ := left.each found found'
  obtain ⟨path, follows, begins⟩ := entered.exists_path
  rw [← reachable (Liveness.not_unreachable follows begins (by simp))]
  exact leftOf

/-- A removal runs through states that agree on what is live in front of each list. -/
theorem AllLeft.simulates {readout : List String} (left : AllLeft readout lists lists')
    (regular : ∀ list ∈ lists, Regular list) (sorted : Sorted.Increasing readout) :
    Simulates device memory readout lists lists'
      (fun visit i a b => Enters device lists memory visit i a ∧ Agree (at? (fixpoint readout lists) i) a b) := by
  have assigns : Liveness.AllAssign lists := by
    intro list member node running
    obtain ⟨id, runs, found⟩ := List.mem_filterMap.mp running
    exact ((regular list member).ordered.covers runs found).writes
  have results : ∀ {visit i list list'} {a b : State σ}, lists[i]? = some list → lists'[i]? = some list' →
      Enters device lists memory visit i a ∧ Agree (at? (fixpoint readout lists) i) a b →
        decisions device visit list' b = decisions device visit list a ∧
          Agree (behind readout (fixpoint readout lists) list) (runList device visit list a)
            (runList device visit list' b) := by
    rintro visit i list list' a b found found' ⟨entered, agree⟩
    rw [Liveness.fixpoint_eq assigns sorted found] at agree
    exact (left.left entered found found').same_results (regular list (List.mem_of_getElem? found)) agree
  refine ⟨left.flow, ⟨.start, .refl _ _⟩, ?_, ?_, ?_⟩
  · exact fun found found' related => (results found found' related).1
  · intro visit i list list' a b found found' related name member
    have agree := (results found found' related).2.weaken (Liveness.readout_within_behind _ list)
    exact (agree.memory name member).symm
  · intro visit i list list' a b found found' related j goes onward
    have agree := (results found found' related).2
    exact ⟨.step related.1 found goes onward, agree.weaken (Liveness.successor_within_behind goes)⟩

theorem AllLeft.told {readout : List String} (left : AllLeft readout lists lists')
    (regular : ∀ list ∈ lists, Regular list) (sorted : Sorted.Increasing readout)
    (told : AllTold device memory lists) : AllTold device memory lists' := by
  intro visit i list' b entered' found'
  obtain ⟨a, _, entered, agree⟩ := (left.simulates regular sorted).entered entered'
  obtain ⟨list, found, _⟩ := flow_getElem? left.flow.symm found'
  have assigns : Liveness.AllAssign lists := by
    intro list member node running
    obtain ⟨id, runs, there⟩ := List.mem_filterMap.mp running
    exact ((regular list member).ordered.covers runs there).writes
  rw [Liveness.fixpoint_eq assigns sorted found] at agree
  exact (left.left entered found found').told (regular list (List.mem_of_getElem? found)) agree (told entered found)

/-! ## Workspaces -/

/-- Whether the hybrid maps of a workspace are those of its lists as they are, if it has any. -/
def Current (state : Workspace) : Prop :=
  state.hybrids = [] ∨ state.hybrids = state.lists.map HybridMap.ofList

/-- Whether the lists of a workspace are regular and its hybrid maps are current. -/
structure Sound (state : Workspace) : Prop where
  regular : ∀ list ∈ state.lists, Regular list
  readout : Sorted.Increasing state.readout
  current : Current state

theorem Sound.holds (sound : Sound state) {list : InstructionList} (found : state.lists[i]? = some list) :
    HybridMap.Holds list ((state.hybrids[i]?).getD []) := by
  rcases sound.current with none | maps
  · rw [none]
    exact ⟨fun _ key => (List.not_mem_nil key).elim, fun _ _ _ _ _ looked => nomatch looked⟩
  · have regular := sound.regular list (List.mem_of_getElem? found)
    rw [maps, List.getElem?_map, found]
    exact HybridMap.holds_ofList (Schedule.valid_of_ordered regular.ordered) regular.lines

/-- Whether a change of a workspace keeps all results, and with them the roles of instructions and what guards their
    order. -/
structure Refines (state next : Workspace) : Prop where
  readout : next.readout = state.readout
  flow : next.lists.map InstructionList.successors = state.lists.map InstructionList.successors
  each : ∀ {i : Nat} {list after}, state.lists[i]? = some list → next.lists[i]? = some after →
    SameRoles list after ∧ ∀ {names}, Guarded names list → Guarded names after
  results : ∀ {σ : Type} {device : Device σ} {memory : String → Number}, AllTold device memory state.lists →
    AllTold device memory next.lists ∧ SameResults device memory state.readout state.lists next.lists

theorem Refines.refl (state : Workspace) : Refines state state where
  readout := rfl
  flow := rfl
  each := by
    intro i list after found found'
    cases found.symm.trans found'
    exact ⟨.refl list, fun guarded => guarded⟩
  results := fun told => ⟨told, .refl _ _ _ _⟩

theorem Refines.trans {last : Workspace} (first : Refines state next) (second : Refines next last) :
    Refines state last where
  readout := second.readout.trans first.readout
  flow := second.flow.trans first.flow
  each := by
    intro i list after found found'
    obtain ⟨middle, there, _⟩ := flow_getElem? first.flow found
    obtain ⟨roles, guards⟩ := first.each found there
    obtain ⟨roles', guards'⟩ := second.each there found'
    exact ⟨roles.trans roles', fun guarded => guards' (guards guarded)⟩
  results := by
    intro σ device memory told
    obtain ⟨told', same⟩ := first.results told
    obtain ⟨told'', same'⟩ := second.results told'
    rw [first.readout] at same'
    exact ⟨told'', same.trans first.flow same'⟩

/-- A pass over each list that keeps what a program does with it. -/
theorem refines_of_allKept (kept : AllKept state.lists lists') : Refines state { state with lists := lists' } where
  readout := rfl
  flow := kept.flow
  each := fun found found' => ⟨(kept.each found found').roles, (kept.each found found').guarded⟩
  results := fun told => ⟨kept.told told, (kept.simulates told state.readout).sameResults⟩

theorem regular_of_allKept (kept : AllKept lists lists') : ∀ list ∈ lists', Regular list := by
  intro list' member
  obtain ⟨i, found'⟩ := List.mem_iff_getElem?.mp member
  obtain ⟨list, found, _⟩ := flow_getElem? kept.flow.symm found'
  exact (kept.each found found').regular

theorem Current.of_sameStanding (current : Current state) (regular : ∀ list ∈ state.lists, Regular list)
    (regular' : ∀ list ∈ lists', Regular list) (same : List.Forall₂ HybridMap.SameStanding state.lists lists') :
    Current { state with lists := lists' } := by
  refine current.imp_right (fun maps => maps.trans ?_)
  clear maps
  change state.lists.map HybridMap.ofList = lists'.map HybridMap.ofList
  generalize state.lists = lists at regular same
  induction same with
  | nil => rfl
  | @cons list after _ _ first _ ih =>
      have own := regular list List.mem_cons_self
      have own' := regular' after List.mem_cons_self
      exact congrArg₂ List.cons
        (first.ofList_eq (Schedule.valid_of_ordered own.ordered) own'.ordered.chained.order own.lines).symm
        (ih (fun other member => regular' other (List.mem_cons_of_mem _ member))
          (fun other member => regular other (List.mem_cons_of_mem _ member)))

/-! ## Steps -/

/-- Whether a step succeeds on a workspace, and leaves one that is sound and has the same results. -/
def Performs (step : Step) (state : Workspace) : Prop :=
  ∃ next report, step.perform state = (next, .ok report) ∧ Refines state next ∧ (∀ list ∈ next.lists, Regular list) ∧
    (step.spoilsHybrids = false → Current next)

theorem forall₂_getElem? {α β : Type} {related : α → β → Prop} {as : List α} {bs : List β}
    (all : List.Forall₂ related as bs) {i : Nat} {x : α} {y : β} (found : as[i]? = some x) (found' : bs[i]? = some y) :
    related x y := by
  induction all generalizing i with
  | nil => cases found
  | cons first _ ih =>
      cases i with
      | zero =>
          cases found
          cases found'
          exact first
      | succ i => exact ih found found'

theorem performs_of_keeps {step : Step} {findings : Findings} (sound : Sound state)
    (performed : step.change state = ({ state with lists := lists' }, .ok findings))
    (kept : AllKept state.lists lists') (same : List.Forall₂ HybridMap.SameStanding state.lists lists') :
    Performs step state :=
  ⟨_, _, by rw [Step.perform, performed]; rfl, refines_of_allKept kept, regular_of_allKept kept,
    fun _ => sound.current.of_sameStanding sound.regular (regular_of_allKept kept) same⟩

theorem map_id_judge (readout : List String) (live : LiveSet) (nodes : List Instruction) :
    (Liveness.judge readout live nodes).2.map InstructionLiveness.id = nodes.map Instruction.id := by
  induction nodes with
  | nil => rfl
  | cons node rest ih => exact congrArg (node.id :: ·) ih

theorem map_zip_map {α β γ : Type} (f : α → β) (g : α × β → γ) (elements : List α) :
    (elements.zip (elements.map f)).map g = elements.map (fun a => g (a, f a)) := by
  induction elements with
  | nil => rfl
  | cons a rest ih => exact congrArg (g (a, f a) :: ·) ih

theorem forall₂_map {α : Type} {related : α → α → Prop} {f : α → α} (elements : List α)
    (each : ∀ a ∈ elements, related a (f a)) : List.Forall₂ related elements (elements.map f) := by
  induction elements with
  | nil => exact .nil
  | cons a rest ih =>
      exact .cons (each a List.mem_cons_self) (ih (fun b member => each b (List.mem_cons_of_mem _ member)))

theorem allKept_of_forall₂
    (kept : List.Forall₂ (fun list after => ∀ isEntry, Keeps isEntry list after) lists lists') :
    AllKept lists lists' where
  flow := by
    induction kept with
    | nil => rfl
    | cons first _ ih => exact congrArg₂ List.cons (first false).successors ih
  each := fun found found' => forall₂_getElem? kept found found' _

theorem performs_liveVariables (sound : Sound state) : Performs .liveVariables state := by
  have lists : (state.lists.zip (Liveness.analyse state.lists state.readout)).map
      (fun entry => Liveness.mark entry.1 entry.2) = state.lists.map (fun list => Liveness.mark list
        (Liveness.judge state.readout (behind state.readout (fixpoint state.readout state.lists) list)
          list.running).2) := map_zip_map _ _ _
  refine performs_of_keeps sound (by rw [Step.change, Workspace.markLiveness, lists]) (allKept_of_forall₂ ?_)
    (forall₂_map _ (fun list _ => HybridMap.sameStanding_mark list _))
  refine forall₂_map _ (fun list member isEntry => ?_)
  have regular := sound.regular list member
  refine keeps_mark regular isEntry (fun liveness judged => ?_)
  rw [← InstructionList.map_id_running regular.ordered.chained.numbered regular.ordered.chained.inside, ← map_id_judge]
  exact List.mem_map_of_mem judged

theorem performs_constantPropagation (sound : Sound state) : Performs .constantPropagation state := by
  have lists : (Constants.propagate state.lists).1 =
      state.lists.zipIdx.map (fun entry => (Constants.propagateList entry.2 entry.1).1) := by
    rw [Constants.propagate]
    exact List.map_map
  refine performs_of_keeps sound rfl ?_ ?_
  · rw [lists]
    exact allKept_zipIdx (fun found => keeps_propagate (sound.regular _ (List.mem_of_getElem? found)) _)
  · rw [lists]
    have all : ∀ (rest : List InstructionList) (start : Nat), List.Forall₂ HybridMap.SameStanding rest
        ((rest.zipIdx start).map (fun entry => (Constants.propagateList entry.2 entry.1).1)) := by
      intro rest
      induction rest with
      | nil => exact fun _ => .nil
      | cons list rest ih => exact fun start => .cons (HybridMap.sameStanding_propagate start list) (ih (start + 1))
    exact all state.lists 0

theorem performs_hybridDependencies (sound : Sound state) : Performs .hybridDependencies state := by
  have same := Refines.refl state
  exact ⟨_, _, rfl, ⟨rfl, rfl, same.each, same.results⟩, sound.regular, fun _ => .inr rfl⟩

theorem performs_deadCode (sound : Sound state) : Performs .deadCode state := by
  obtain ⟨lists', found, removed, length, each⟩ := removeDead_leaves sound.regular state.readout state.hybrids
  have left : AllLeft state.readout state.lists lists' := by
    refine ⟨?_, ?_⟩
    · apply List.ext_getElem?
      intro i
      rw [List.getElem?_map, List.getElem?_map]
      cases there : state.lists[i]? with
      | none =>
          have outside := List.getElem?_eq_none_iff.mp there
          rw [List.getElem?_eq_none_iff.mpr (length ▸ outside)]
      | some list =>
          obtain ⟨after, keep, here, leftOf, _⟩ := each i list there
          rw [here]
          exact congrArg some leftOf.same.successors.symm
    · intro i list list' there here
      obtain ⟨after, keep, here', leftOf, reachable⟩ := each i list there
      cases here.symm.trans here'
      exact ⟨keep, leftOf, reachable⟩
  have regular : ∀ list ∈ lists', Regular list := by
    intro list' member
    obtain ⟨i, here⟩ := List.mem_iff_getElem?.mp member
    obtain ⟨list, there, _⟩ := flow_getElem? left.flow.symm here
    obtain ⟨keep, leftOf, _⟩ := left.each there here
    exact leftOf.regular (sound.regular list (List.mem_of_getElem? there))
  have changed : Step.deadCode.change state = (⟨lists', state.hybrids, state.readout⟩, .ok found) := removed
  refine ⟨⟨lists', state.hybrids, state.readout⟩, ⟨Step.deadCode.name, found⟩, ?_, ⟨rfl, left.flow, ?_, ?_⟩, regular,
    fun keeps => by cases keeps⟩
  · rw [Step.perform, changed]
    rfl
  · intro i list after there here
    obtain ⟨keep, leftOf, _⟩ := left.each there here
    exact ⟨leftOf.view Instruction.role (fun _ => rfl), leftOf.guarded⟩
  · intro σ device memory told
    exact ⟨left.told sound.regular sound.readout told, (left.simulates sound.regular sound.readout).sameResults⟩

theorem performs_constantFolding (sound : Sound state) : Performs .constantFolding state := by
  have lists : (Folding.fold state.lists).1 =
      state.lists.zipIdx.map (fun entry => (Folding.foldList entry.2 entry.1).1) := by
    rw [Folding.fold]
    exact List.map_map
  have kept : AllKept state.lists (Folding.fold state.lists).1 := by
    rw [lists]
    exact allKept_zipIdx (fun found => (foldList_spec (sound.regular _ (List.mem_of_getElem? found)) _).1)
  exact ⟨_, _, rfl, refines_of_allKept kept, regular_of_allKept kept, fun keeps => by cases keeps⟩

theorem performs_reordering {step : Step} {schedule : Nat → InstructionList → Except OptimizeError (List Nat)}
    (sound : Sound state) (change : step.change state = Workspace.reorderWith schedule state)
    (scheduled : ∀ {i list}, state.lists[i]? = some list →
      ∃ order, schedule i list = .ok order ∧ (order = [] ∨ Schedule.Reorders list order)) : Performs step state := by
  have fromStart : ∀ {i list}, state.lists[i]? = some list →
      ∃ order, schedule (0 + i) list = .ok order ∧ (order = [] ∨ Schedule.Reorders list order) := by
    intro i list found
    rw [Nat.zero_add]
    exact scheduled found
  obtain ⟨lists', changes, reordered, all⟩ := reorderFrom_eq_ok 0 fromStart
  have performed : step.change state = ({ state with lists := lists' }, .ok (.reordering changes)) := by
    rw [change, Workspace.reorderWith, reordered]
    rfl
  refine performs_of_keeps sound performed (allKept_of_forall₂ ?_)
    (all.imp (fun _ _ rescheduled => rescheduled.sameStanding))
  have regular := sound.regular
  clear reordered performed fromStart
  generalize state.lists = lists at all regular
  induction all with
  | nil => exact .nil
  | cons first _ ih =>
      exact .cons (first.keeps (regular _ List.mem_cons_self))
        (ih (fun list member => regular list (List.mem_cons_of_mem _ member)))

theorem balanced_of_knowsHybrids (sound : Sound state) (known : state.knowsHybrids = true) :
    state.checkAlignment = .ok () ∧ ∀ {i : Nat} {list}, state.lists[i]? = some list → ∃ order,
      Schedule.balanced list ((state.hybrids[i]?).getD []) = .ok order ∧
        (order = [] ∨ Schedule.Reorders list order) := by
  have maps : state.hybrids = state.lists.map HybridMap.ofList := by
    refine sound.current.resolve_left (fun none => ?_)
    rw [Workspace.knowsHybrids, none] at known
    cases known
  refine ⟨by rw [Workspace.checkAlignment, if_pos (by rw [maps, List.length_map])], ?_⟩
  intro i list found
  have regular := sound.regular list (List.mem_of_getElem? found)
  obtain ⟨order, given, arranged⟩ :=
    Schedule.balanced_arranges (Schedule.valid_of_ordered regular.ordered) regular.lines (sound.holds found)
  exact ⟨order, given, arranged.imp_right (fun new => new.1.reorders regular.ordered)⟩

theorem performs_reorderingBalanced (sound : Sound state) (applies : Step.reordering.applies state = true) :
    Performs .reordering state := by
  obtain ⟨aligned, balanced⟩ := balanced_of_knowsHybrids sound (by simpa [Step.applies] using applies)
  refine performs_reordering sound ?_ balanced
  rw [Step.change, Workspace.scheduleBalanced, aligned]

theorem performs (sound : Sound state) (step : Step) (applies : step.applies state = true) : Performs step state := by
  cases step with
  | liveVariables => exact performs_liveVariables sound
  | constantPropagation => exact performs_constantPropagation sound
  | hybridDependencies => exact performs_hybridDependencies sound
  | deadCode => exact performs_deadCode sound
  | reordering => exact performs_reorderingBalanced sound applies
  | constantFolding => exact performs_constantFolding sound
  | earlyQuantum =>
      refine performs_reordering sound rfl (fun found => ⟨_, rfl, ?_⟩)
      have ordered := (sound.regular _ (List.mem_of_getElem? found)).ordered
      exact (Schedule.earlyQuantum_arranges (Schedule.valid_of_ordered ordered)).imp_right
        (fun new => new.1.reorders ordered)
  | lateQuantum =>
      refine performs_reordering sound rfl (fun found => ⟨_, rfl, ?_⟩)
      have ordered := (sound.regular _ (List.mem_of_getElem? found)).ordered
      exact (Schedule.lateQuantum_arranges (Schedule.valid_of_ordered ordered)).imp_right
        (fun new => new.1.reorders ordered)

/-! ## Runs -/

theorem dispatch_refines (sound : Sound state) (step : Step) :
    ∃ next report, step.dispatch state = .ok (next, report) ∧ Sound next ∧ Refines state next := by
  rw [Step.dispatch]
  split
  · next applies =>
    obtain ⟨next, report, performed, refines, regular, hybrids⟩ := performs sound step applies
    rw [performed]
    have readout : Sorted.Increasing next.readout := refines.readout ▸ sound.readout
    cases spoils : step.spoilsHybrids with
    | true => exact ⟨_, _, rfl, ⟨regular, readout, .inl rfl⟩, ⟨refines.readout, refines.flow, refines.each, refines.results⟩⟩
    | false => exact ⟨_, _, rfl, ⟨regular, readout, hybrids spoils⟩, refines⟩
  · exact ⟨_, _, rfl, sound, .refl state⟩

theorem Sound.dispatch (sound : Sound state) {step : Step} {next : Workspace} {report : StepReport}
    (dispatched : step.dispatch state = .ok (next, report)) : Sound next := by
  obtain ⟨next', report', dispatched', sound', _⟩ := dispatch_refines sound step
  cases dispatched.symm.trans dispatched'
  exact sound'

/-- What each step keeps that is carried out holds behind all of them. -/
theorem dispatchAll_induction {motive : Workspace → Prop}
    (kept : ∀ {state next : Workspace} {step : Step} {report : StepReport}, motive state →
      step.dispatch state = .ok (next, report) → motive next)
    {steps : List Step} {final : Workspace} {reports : List StepReport} (start : motive state)
    (dispatched : Workspace.dispatchAll steps state = .ok (final, reports)) : motive final := by
  induction steps generalizing state reports with
  | nil =>
      cases dispatched
      exact start
  | cons step rest ih =>
      obtain ⟨⟨next, report⟩, first, further⟩ := Result.of_bind_eq_ok dispatched
      obtain ⟨⟨last, reports'⟩, second, same⟩ := Result.of_bind_eq_ok further
      cases same
      exact ih (kept start first) second

theorem dispatchAll_refines (sound : Sound state) (steps : List Step) :
    ∃ final reports, Workspace.dispatchAll steps state = .ok (final, reports) ∧ Sound final ∧ Refines state final := by
  induction steps generalizing state with
  | nil => exact ⟨_, _, rfl, sound, .refl state⟩
  | cons step rest ih =>
      obtain ⟨next, report, dispatched, sound', refines⟩ := dispatch_refines sound step
      obtain ⟨final, reports, further, sound'', refines'⟩ := ih sound'
      refine ⟨final, report :: reports, ?_, sound'', refines.trans refines'⟩
      rw [Workspace.dispatchAll, dispatched]
      change (Workspace.dispatchAll rest next >>= fun result => Except.ok (result.1, report :: result.2)) = _
      rw [further]
      rfl

theorem metrics_eq_ok (sound : Sound state) : ∃ metrics, state.metrics = .ok metrics := by
  have all : ∀ lists : List InstructionList, (∀ list ∈ lists, Regular list) →
      ∃ results, lists.mapM InstructionList.removeControl = .ok results := by
    intro lists regular
    induction lists with
    | nil => exact ⟨[], rfl⟩
    | cons list rest ih =>
        obtain ⟨after, _, removed⟩ := InstructionList.removeControl_eq_ok
          (regular list List.mem_cons_self).ordered.chained.numbered
        obtain ⟨results, further⟩ := ih (fun other member => regular other (List.mem_cons_of_mem _ member))
        exact ⟨_, by rw [List.mapM_cons, removed, further]; rfl⟩
  obtain ⟨results, removed⟩ := all state.lists sound.regular
  exact ⟨_, by rw [Workspace.metrics, removeControl, removed]; rfl⟩

/-- Every sequence of step names runs to its end, and keeps all results. -/
theorem run_refines (sound : Sound state) (names : List String) :
    ∃ report final, state.run names = .ok (report, final) ∧ Sound final ∧ Refines state final := by
  obtain ⟨final, reports, dispatched, sound', refines⟩ := dispatchAll_refines sound (names.filterMap Step.ofName?)
  obtain ⟨metrics, measured⟩ := metrics_eq_ok sound'
  refine ⟨⟨reports, final.texts, metrics⟩, final, ?_, sound', refines⟩
  rw [Workspace.run, dispatched]
  change (final.metrics >>= fun metrics => Except.ok (RunReport.mk reports final.texts metrics, final)) = _
  rw [measured]
  rfl

end TwoLane.Execution
