import TwoLane.Proofs.Liveness.Least
import TwoLane.Proofs.Schedule.Validity

/-! # Removing dead code once is enough

What a removal takes away had kept nothing alive: each instruction that goes was passed over in every round of the
fixpoint. So in the lists that control can reach all that was live before is live behind the removal too, and an
instruction that stayed is not dead now either. The other lists are empty by then, and as successors do not change the
same lists are out of reach.
-/

namespace TwoLane.Liveness

open Execution (allEvolve_removeDead)
open Indexed (Part)
open Instruction (withoutLinks)

variable {lists afters : List InstructionList} {list after : InstructionList} {readout : List String}
  {front later : List LiveSet} {live live' known : LiveSet} {nodes others : List Instruction} {i : Nat}

/-! ## Links make no difference -/

theorem isDead_withoutLinks (node : Instruction) : isDead live readout node.withoutLinks = isDead live readout node := by
  have entangles : entanglesLive live node.withoutLinks = entanglesLive live node := by
    simp only [entanglesLive, withoutLinks, List.any_map, Function.comp_def]
  have qubits : node.withoutLinks.qubits.all (qubitDead live node.withoutLinks) =
      node.qubits.all (qubitDead live node) := by
    rw [withoutLinks, List.all_map]
    congr 1
    funext o
    rw [Function.comp_apply, qubitDead, qubitDead, ← withoutLinks, entangles]
  have memory : node.withoutLinks.memory.all (fun o => !o.isAssignment || memoryDead live readout o) =
      node.memory.all (fun o => !o.isAssignment || memoryDead live readout o) := by
    rw [withoutLinks, List.all_map]
    rfl
  have idle : touchesNothing node.withoutLinks = touchesNothing node := by
    simp only [touchesNothing, withoutLinks, List.isEmpty_map]
  rw [isDead, isDead, qubits, memory, idle]
  rfl

theorem before_withoutLinks (node : Instruction) : before readout node.withoutLinks live = before readout node live := by
  have memory : memoryBefore node.withoutLinks live.memory = memoryBefore node live.memory := by
    simp only [memoryBefore, withoutLinks, List.filter_map, List.map_map, Function.comp_def,
      MemoryOccurrence.isAssignment]
    rfl
  have qubits : qubitsBefore node.withoutLinks live.qubits = qubitsBefore node live.qubits := by
    simp only [qubitsBefore, withoutLinks, List.map_map, Function.comp_def]
    rfl
  rw [before, isDead_withoutLinks, memory, qubits, before]

theorem foldr_before_withoutLinks (nodes : List Instruction) :
    (nodes.map withoutLinks).foldr (before readout) live = nodes.foldr (before readout) live := by
  rw [List.foldr_map]
  congr 1
  funext node live
  exact before_withoutLinks node

theorem deadIds_withoutLinks (nodes : List Instruction) :
    deadIds (judge readout live (nodes.map withoutLinks)).2 = deadIds (judge readout live nodes).2 := by
  induction nodes with
  | nil => rfl
  | cons node rest ih =>
      rw [List.map_cons, deadIds_cons, deadIds_cons, ih, foldr_before_withoutLinks, isDead_withoutLinks]
      rfl

/-! ## Survivors -/

/-- What instructions make live, the survivors among them make live as well: the others were dead even where more was
    live behind them. -/
theorem within_survivors (assigns : ∀ node ∈ nodes, Assigns node) (below : live.Within known)
    (above : live.Within live') :
    (nodes.foldr (before readout) live).Within ((survivors readout known nodes).foldr (before readout) live') := by
  induction nodes with
  | nil => exact above
  | cons node rest ih =>
      have restAssigns : ∀ other ∈ rest, Assigns other := fun other there => assigns other (List.mem_cons_of_mem _ there)
      have further := ih restAssigns
      rw [List.foldr_cons, survivors]
      split
      · next dead =>
          have passed := isDead_anti (foldr_before_mono restAssigns below) dead
          rw [before, if_pos passed]
          exact further
      · exact before_mono further (assigns node List.mem_cons_self)

theorem deadIds_survivors (assigns : ∀ node ∈ nodes, Assigns node) (above : known.Within live) :
    deadIds (judge readout live (survivors readout known nodes)).2 = [] := by
  induction nodes with
  | nil => rfl
  | cons node rest ih =>
      have restAssigns : ∀ other ∈ rest, Assigns other := fun other there => assigns other (List.mem_cons_of_mem _ there)
      rw [survivors]
      split
      · exact ih restAssigns
      · next kept =>
          rw [deadIds_cons, if_neg, ih restAssigns]
          exact fun dead => kept (isDead_anti (within_survivors restAssigns (.refl known) above) dead)

/-! ## What rounds keep -/

theorem renew_induction {property : List LiveSet → Prop}
    (visit : ∀ {front : List LiveSet} {i : Nat} {list : InstructionList}, lists[i]? = some list → property front →
      property (front.set i (inFront readout front list)))
    (start : property front) (positions : List Nat) : property (renew readout lists front positions) := by
  induction positions generalizing front with
  | nil => exact start
  | cons i rest ih =>
      rw [renew]
      cases found : lists[i]? with
      | none => exact ih start
      | some list => exact ih (visit found start)

theorem fixpoint_induction {property : List LiveSet → Prop}
    (visit : ∀ {front : List LiveSet} {i : Nat} {list : InstructionList}, lists[i]? = some list → property front →
      property (front.set i (inFront readout front list)))
    (start : property (lists.map (fun _ => .empty))) : property (fixpoint readout lists) := by
  have all : ∀ (bound : Nat) (front : List LiveSet), property front → property (rounds readout lists bound front) := by
    intro bound
    induction bound with
    | zero => exact fun _ here => here
    | succ bound ih =>
        intro front here
        rw [rounds]
        split
        · exact here
        · exact ih _ (renew_induction visit here _)
  exact all _ _ start

theorem behind_within (same : after.successors = list.successors)
    (each : ∀ s ∈ list.successors, (at? front s).Within (at? later s)) :
    (behind readout front list).Within (behind readout later after) := by
  have all : ∀ (successors : List Nat) (a b : LiveSet), a.Within b →
      (∀ s ∈ successors, (at? front s).Within (at? later s)) →
      (successors.foldl (fun acc s => acc.union ((front[s]?).getD .empty)) a).Within
        (successors.foldl (fun acc s => acc.union ((later[s]?).getD .empty)) b) := by
    intro successors
    induction successors with
    | nil => exact fun _ _ base _ => base
    | cons s rest ih =>
        intro a b base each
        exact ih _ _ (LiveSet.union_mono base (each s List.mem_cons_self))
          (fun other member => each other (List.mem_cons_of_mem _ member))
  rw [behind, behind, same]
  exact all _ _ _ (.refl _) each

/-! ## Lists that control can reach -/

theorem reached_of_successor (found : lists[i]? = some list) (reached : i ∉ DeadCode.unreachable lists) {s : Nat}
    (goes : s ∈ list.successors) : s ∉ DeadCode.unreachable lists := by
  have inside := (List.getElem?_eq_some_iff.mp found).1
  obtain ⟨_, closed⟩ := Reach.fromRoot_complete (fun _ _ goes => lt_of_mem_successors goes)
    (Nat.zero_lt_of_lt inside)
  have seen : i ∈ Reach.fromRoot (DeadCode.successors lists) lists.length 0 := by
    by_contra unseen
    exact reached (List.mem_filter.mpr ⟨List.mem_range.mpr inside, by simpa using unseen⟩)
  intro unreachable
  obtain ⟨isList, unseen⟩ := List.mem_filter.mp unreachable
  have next : s ∈ Reach.fromRoot (DeadCode.successors lists) lists.length 0 := by
    refine closed i seen s ?_
    rw [DeadCode.successors, found]
    exact List.mem_filter.mpr ⟨goes, decide_eq_true (List.mem_range.mp isList)⟩
  simp [next] at unseen

theorem toRemove_find (found : lists[i]? = some list) :
    (DeadCode.find lists readout).toRemove i list = if i ∈ DeadCode.unreachable lists then list.order
      else deadIds (judge readout (behind readout (fixpoint readout lists) list) list.running).2 := by
  rw [DeadCode.toRemove]
  simp [DeadCode.find, analyse, found]

/-! ## What a removal leaves -/

/-- Whether lists are what a removal of dead code leaves of others. -/
structure Leaves (readout : List String) (lists afters : List InstructionList) : Prop where
  length : afters.length = lists.length
  successors : ∀ {i : Nat} {list after : InstructionList}, lists[i]? = some list → afters[i]? = some after →
    after.successors = list.successors
  emptied : ∀ {i : Nat} {after : InstructionList}, afters[i]? = some after → i ∈ DeadCode.unreachable lists →
    after.order = []
  running : ∀ {i : Nat} {list after : InstructionList}, lists[i]? = some list → afters[i]? = some after →
    i ∉ DeadCode.unreachable lists → after.running.map withoutLinks =
      (survivors readout (behind readout (fixpoint readout lists) list) list.running).map withoutLinks

/-- A removal succeeds, names the lists that cannot be reached, and leaves the survivors in the others. -/
theorem leaves_removeDead (orderly : ∀ list ∈ lists, list.Orderly) (readout : List String) :
    (∃ removed, (Workspace.removeDeadFrom (DeadCode.find lists readout) 0 lists).2 = .ok removed) ∧
      Leaves readout lists (Workspace.removeDeadFrom (DeadCode.find lists readout) 0 lists).1 := by
  have inside : ∀ (i : Nat) (list : InstructionList), lists[i]? = some list →
      ∀ id ∈ (DeadCode.find lists readout).toRemove (0 + i) list, id < list.nodes.length := by
    intro i list found id member
    rw [Nat.zero_add] at member
    exact inside_of_mem_toRemove orderly found member
  obtain ⟨succeeds, length, each⟩ := removeDeadFrom_eq_ok _ 0 inside
  have same : ∀ {i : Nat} {list after : InstructionList}, lists[i]? = some list →
      (Workspace.removeDeadFrom (DeadCode.find lists readout) 0 lists).1[i]? = some after →
      InstructionList.SameButLinks
        { list with order := list.order.filter (fun id => !((DeadCode.find lists readout).toRemove i list).contains id) }
        after := by
    intro i list after found here
    obtain ⟨after', here', removed⟩ := each i list found
    obtain ⟨_, removed', same⟩ := InstructionList.removeAll_eq_ok (inside i list found)
    cases here.symm.trans here'
    cases removed.symm.trans removed'
    rwa [Nat.zero_add] at same
  refine ⟨succeeds, length, fun found here => (same found here).successors.symm, ?_, ?_⟩
  · intro i after here unreachable
    have isList := (List.getElem?_eq_some_iff.mp here).1
    rw [length] at isList
    have found := List.getElem?_eq_getElem isList
    rw [← (same found here).order, toRemove_find found, if_pos unreachable]
    exact List.filter_eq_nil_iff.mpr (by simp)
  · intro i list after found here reached
    have own := orderly list (List.mem_of_getElem? found)
    have distinct : (list.running.map Instruction.id).Nodup := by
      rw [InstructionList.map_id_running own.numbered own.inside]
      exact own.order
    rw [← (same found here).running, InstructionList.running_filter own, toRemove_find found, if_neg reached,
      filter_deadIds distinct]

theorem Leaves.unreachable_eq (leaves : Leaves readout lists afters) :
    DeadCode.unreachable afters = DeadCode.unreachable lists := by
  have same : DeadCode.successors afters = DeadCode.successors lists := by
    funext i
    rw [DeadCode.successors, DeadCode.successors, leaves.length]
    by_cases inside : i < lists.length
    · have found := List.getElem?_eq_getElem inside
      have here := List.getElem?_eq_getElem (leaves.length ▸ inside)
      rw [found, here]
      dsimp only
      rw [leaves.successors found here]
    · rw [List.getElem?_eq_none (Nat.le_of_not_lt inside),
        List.getElem?_eq_none (leaves.length ▸ Nat.le_of_not_lt inside)]
  rw [DeadCode.unreachable, DeadCode.unreachable, same, leaves.length]

/-- Whether what is taken to be live in front of lists is so by one account, and in front of the lists that control can
    reach by another one as well. -/
structure Covered (lists : List InstructionList) (whole left front : List LiveSet) : Prop where
  below : FrontWithin front whole
  above : ∀ i ∉ DeadCode.unreachable lists, (at? front i).Within (at? left i)

/-- In front of the lists that control can reach all that was live before a removal is live behind it. -/
theorem Leaves.fixpoint_within (leaves : Leaves readout lists afters) (assigns : AllAssign lists)
    (assigns' : AllAssign afters) (sorted : Sorted.Increasing readout) :
    ∀ i ∉ DeadCode.unreachable lists, (at? (fixpoint readout lists) i).Within (at? (fixpoint readout afters) i) := by
  -- the fixpoint of the whole lists bounds its own rounds, so what goes was dead in each of them
  suffices within : Covered lists (fixpoint readout lists) (fixpoint readout afters) (fixpoint readout lists) from
    within.above
  refine fixpoint_induction ?_ ?_
  · rintro front i list found ⟨below, above⟩
    refine ⟨fun j => ?_, fun j reached => ?_⟩
    · rw [at?_set]
      split
      · next here =>
          obtain ⟨rfl, _⟩ := here
          rw [fixpoint_eq assigns sorted found]
          exact inFront_mono readout (assigns list (List.mem_of_getElem? found)) below
      · exact below j
    · rw [at?_set]
      split
      · next here =>
          obtain ⟨rfl, _⟩ := here
          have inside : i < afters.length := leaves.length ▸ (List.getElem?_eq_some_iff.mp found).1
          have there := List.getElem?_eq_getElem inside
          rw [fixpoint_eq assigns' sorted there, inFront, inFront,
            ← foldr_before_withoutLinks afters[i].running, leaves.running found there reached,
            foldr_before_withoutLinks]
          refine within_survivors (assigns list (List.mem_of_getElem? found)) (behind_mono below list) ?_
          exact behind_within (leaves.successors found there)
            (fun s goes => above s (reached_of_successor found reached goes))
      · exact above j reached
  · refine ⟨fun j => ?_, fun j _ => ?_⟩
    · rw [at?_empties]
      exact LiveSet.empty_within _
    · rw [at?_empties]
      exact LiveSet.empty_within _

theorem Leaves.toRemove_eq_nil (leaves : Leaves readout lists afters) (assigns : AllAssign lists)
    (assigns' : AllAssign afters) (sorted : Sorted.Increasing readout) (here : afters[i]? = some after) :
    (DeadCode.find afters readout).toRemove i after = [] := by
  rw [toRemove_find here, leaves.unreachable_eq]
  split
  · next unreachable => exact leaves.emptied here unreachable
  · next reached =>
      have inside := (List.getElem?_eq_some_iff.mp here).1
      have found := List.getElem?_eq_getElem (leaves.length ▸ inside)
      rw [← deadIds_withoutLinks, leaves.running found here reached, deadIds_withoutLinks]
      refine deadIds_survivors (assigns _ (List.mem_of_getElem? found)) ?_
      exact behind_within (leaves.successors found here) (fun s goes =>
        leaves.fixpoint_within assigns assigns' sorted s (reached_of_successor found reached goes))

theorem removeDeadFrom_eq_self (dead : DeadCode) (index : Nat)
    (nothing : ∀ i list, lists[i]? = some list → dead.toRemove (index + i) list = []) :
    Workspace.removeDeadFrom dead index lists = (lists, .ok []) := by
  induction lists generalizing index with
  | nil => rfl
  | cons first rest ih =>
      have further : Workspace.removeDeadFrom dead (index + 1) rest = (rest, .ok []) := by
        refine ih (index + 1) (fun i list found => ?_)
        rw [Nat.add_right_comm]
        exact nothing (i + 1) list found
      rw [Workspace.removeDeadFrom, show dead.toRemove index first = [] from nothing 0 first rfl, further]
      rfl

/-! ## Lists that steps have changed -/

/-- However steps have changed new lists and whatever is read out, a removal of dead code right behind another one
    changes nothing: it removes no instruction, and finds the same lists out of reach. -/
theorem removeDead_removeDead {parts : List Part} (new : ∀ part ∈ parts, ∀ node ∈ part.nodes, node.IsNew)
    {state : Workspace} (worked : Worked parts state) (names : List String) :
    ∃ removed blocks once,
      Workspace.removeDead { state with readout := Sorted.ofList names } = (once, .ok (.deadCode removed blocks)) ∧
        once.removeDead = (once, .ok (.deadCode [] blocks)) := by
  obtain ⟨⟨removed, succeeds⟩, leaves⟩ := leaves_removeDead (worked.orderly new) (Sorted.ofList names)
  have tended := worked.tended new
  have tended' : ∀ list ∈ (Workspace.removeDeadFrom (DeadCode.find state.lists (Sorted.ofList names)) 0 state.lists).1,
      Tended list := by
    intro after member
    have evolve := allEvolve_removeDead { state with readout := Sorted.ofList names }
    obtain ⟨list, there, _, _, evolves⟩ := evolve.exists_mem member
    exact (tended list there).evolves evolves
  refine ⟨removed, DeadCode.unreachable state.lists, _, Prod.ext rfl ?_, ?_⟩
  · simp only [Workspace.removeDead, succeeds]
    rfl
  · have nothing := removeDeadFrom_eq_self (DeadCode.find _ (Sorted.ofList names)) 0 (fun i list found => by
      rw [Nat.zero_add]
      exact leaves.toRemove_eq_nil (allAssign_of_tended tended) (allAssign_of_tended tended')
        (Sorted.increasing_ofList names) found)
    simp only [Workspace.removeDead, nothing]
    exact Prod.ext rfl (congrArg (fun blocks => Except.ok (Findings.deadCode [] blocks)) leaves.unreachable_eq)

/-- A list that runs again and again, once quantum work is early. -/
theorem looped_removeDead_removeDead :
    ∃ removed blocks once,
      Workspace.removeDead { (Step.earlyQuantum.perform (.ofLists (Indexed.looped.map Part.list) ["t"])).1 with
        readout := Sorted.ofList ["t"] } = (once, .ok (.deadCode removed blocks)) ∧
        once.removeDead = (once, .ok (.deadCode [] blocks)) :=
  removeDead_removeDead (fun part member => Indexed.isNew_of_isNewStep (Indexed.isNewStep_looped part member))
    (.step .earlyQuantum (.new ["t"])) ["t"]

end TwoLane.Liveness
