import Mathlib.Data.List.Perm.Subperm
import TwoLane.Proofs.Chain.Shape
import TwoLane.Proofs.Chain.Surgery
import TwoLane.Proofs.Result

/-! # Chains with instructions set apart

An instruction may leave all of its chains and still run. The instructions that are on a chain are then fewer than
those that hold its resource; they are linked exactly, and all others are not linked at all. Every change of a list
keeps this, whichever numbers it is applied to.
-/

namespace TwoLane.InstructionList

open Nearest
open Instruction (withoutLinks)

variable {list after : InstructionList} {on : Resource → Nat → Bool} {resource other : Resource} {id j : Nat}
  {apart : List Nat}

/-! ## Links with a given membership -/

/-- The links of all instructions are those along the chains of the numbers that are on them, and there are no
    others. -/
structure LinkedBy (list : InstructionList) (on : Resource → Nat → Bool) : Prop where
  held : ∀ resource id, on resource id = true → (list.linksAt resource id).isSome = true
  linked : list.LinkedOn on
  loose : ∀ resource id, on resource id = false → ∀ links, list.linksAt resource id = some links → links = .none

theorem lt_of_isSome_linksAt (held : (list.linksAt resource id).isSome = true) : id < list.nodes.length := by
  obtain ⟨links, found⟩ := Option.isSome_iff_exists.mp held
  obtain ⟨node, there, _⟩ := Option.bind_eq_some_iff.mp found
  exact (List.getElem?_eq_some_iff.mp there).1

theorem LinkedBy.inside (linked : list.LinkedBy on) (holds : on resource id = true) : id < list.nodes.length :=
  lt_of_isSome_linksAt (linked.held resource id holds)

theorem leaving_of_not_on (absent : on resource id = false) : leaving on id [resource] = on := by
  funext other j
  by_cases same : j = id ∧ other = resource
  · obtain ⟨rfl, rfl⟩ := same
    simp [leaving, absent]
  · have kept : (j == id && [resource].contains other) = false := by
      simpa using same
    rw [leaving, kept, Bool.not_false, Bool.and_true]

theorem leaving_cons (on : Resource → Nat → Bool) (id : Nat) (resource : Resource) (rest : List Resource) :
    leaving (leaving on id [resource]) id rest = leaving on id (resource :: rest) := by
  funext r j
  rw [leaving, leaving, leaving, List.contains_cons, List.contains_cons, List.contains_nil, Bool.or_false]
  cases j == id with
  | true => simp [Bool.and_assoc]
  | false => simp

theorem bridged_none_of_around {links : Links} (differ : j ≠ id) (off : on resource j = false)
    (exact : links = around (on resource) list.nodes.length id) : bridged id links j .none = .none := by
  have next : j ∉ links.next := by
    intro member
    rw [exact] at member
    have := (above?_eq_some.mp (Option.mem_toList.mp member)).2.2.1
    rw [off] at this
    cases this
  have previous : j ∉ links.previous := by
    intro member
    rw [exact] at member
    have := (below?_eq_some.mp (Option.mem_toList.mp member)).2.1
    rw [off] at this
    cases this
  rw [bridged, if_neg differ, if_neg next, if_neg previous]

theorem bridged_none (id j : Nat) (old : Links) : bridged id .none j old = if j = id then .none else old := by
  simp [bridged, Links.none]

theorem unlink_of_not_held (absent : list.linksAt resource id = none) : list.unlink id resource = list := by
  have here : (list.get? id).bind (fun node => node.links? resource) = none := absent
  rw [unlink, here]

theorem LinkedBy.linksAt_unlink (linked : list.LinkedBy on) {links : Links}
    (found : list.linksAt resource id = some links) (other : Resource) (j : Nat) :
    (list.unlink id resource).linksAt other j =
      if resource = other then (list.linksAt other j).map (bridged id links j) else list.linksAt other j := by
  have distinct : links.previous.Nodup ∧ links.next.Nodup := by
    cases holds : on resource id with
    | true =>
        rw [linked.linked resource id holds links found]
        exact ⟨nodup_toList _, nodup_toList _⟩
    | false =>
        rw [linked.loose resource id holds links found]
        exact ⟨List.nodup_nil, List.nodup_nil⟩
  exact InstructionList.linksAt_unlink found distinct.1 distinct.2 other j

theorem LinkedBy.linksAt_unlink_of_off (linked : list.LinkedBy on) (off : on resource id = false) (other : Resource)
    (j : Nat) (onChain : on other j = true) : (list.unlink id resource).linksAt other j = list.linksAt other j := by
  cases found : list.linksAt resource id with
  | none => rw [unlink_of_not_held found]
  | some links =>
      rw [linked.linksAt_unlink found, linked.loose resource id off links found]
      split
      · next same =>
          have differ : j ≠ id := by
            rintro rfl
            rw [← same, off] at onChain
            cases onChain
          cases list.linksAt other j with
          | none => rfl
          | some old => rw [Option.map_some, bridged_none, if_neg differ]
      · rfl

theorem LinkedBy.loose_unlink (linked : list.LinkedBy on) {links links' : Links}
    (found : list.linksAt resource id = some links) (off : leaving on id [resource] other j = false)
    (there : (list.unlink id resource).linksAt other j = some links') : links' = .none := by
  rw [linked.linksAt_unlink found] at there
  split at there
  · next same =>
      subst same
      obtain ⟨old, oldFound, rfl⟩ := Option.map_eq_some_iff.mp there
      by_cases own : j = id
      · rw [bridged, if_pos own]
      · have offBefore : on resource j = false := by
          simpa [leaving, own] using off
        rw [linked.loose resource j offBefore old oldFound]
        cases holds : on resource id with
        | true => exact bridged_none_of_around own offBefore (linked.linked resource id holds links found)
        | false => rw [linked.loose resource id holds links found, bridged_none, if_neg own]
  · next apart =>
      have offBefore : on other j = false := by
        simpa [leaving, Ne.symm apart] using off
      exact linked.loose other j offBefore links' there

/-- Unlinking takes one number off one chain, and changes nothing where it is not on it. -/
theorem LinkedBy.unlink (linked : list.LinkedBy on) (id : Nat) (resource : Resource) :
    (list.unlink id resource).LinkedBy (leaving on id [resource]) := by
  cases found : list.linksAt resource id with
  | none =>
      have off : on resource id = false := by
        by_contra holds
        have held := linked.held resource id (by simpa using holds)
        rw [found] at held
        cases held
      rw [leaving_of_not_on off, unlink_of_not_held found]
      exact linked
  | some links =>
      refine ⟨?_, ?_, fun other j off links' there => linked.loose_unlink found off there⟩
      · intro other j holds
        have held := linked.held other j (Bool.and_eq_true_iff.mp holds).1
        rw [linked.linksAt_unlink found]
        split
        · rwa [Option.isSome_map]
        · exact held
      · cases holds : on resource id with
        | true =>
            exact linked.linked.unlink id resource (fun _ _ => linked.inside) holds (linked.held resource id holds)
        | false =>
            have length := (sameButLinks_unlink list id resource).length
            rw [leaving_of_not_on holds]
            intro other j onChain links' there
            rw [linked.linksAt_unlink_of_off holds other j onChain] at there
            rw [← length]
            exact linked.linked other j onChain links' there

theorem LinkedBy.foldl_unlink (linked : list.LinkedBy on) (id : Nat) (resources : List Resource) :
    (resources.foldl (fun acc resource => acc.unlink id resource) list).LinkedBy (leaving on id resources) := by
  induction resources generalizing list on with
  | nil =>
      have same : leaving on id [] = on := by
        funext resource j
        simp [leaving]
      rw [same]
      exact linked
  | cons resource rest ih =>
      rw [List.foldl_cons, ← leaving_cons]
      exact ih (linked.unlink id resource)

/-! ## Instructions set apart -/

/-- Whether a number is on the chain of a resource: its instruction runs, touches the resource and is not set
    apart. -/
def isOn (list : InstructionList) (apart : List Nat) (resource : Resource) (id : Nat) : Bool :=
  list.isHolder resource id && !apart.contains id

/-- The chains of a list are exact, where some instructions are set apart. -/
structure Threaded (list : InstructionList) (apart : List Nat) : Prop where
  numbered : ∀ {id : Nat} {node : Instruction}, list.nodes[id]? = some node → node.id = id
  order : list.order.Nodup
  inside : ∀ id ∈ list.order, id < list.nodes.length
  links : list.LinkedBy (list.isOn apart)

/-- Exact chains are those from which nothing is set apart. -/
theorem Chained.threaded (chained : list.Chained) (all : ∀ id < list.nodes.length, id ∈ list.order) :
    list.Threaded [] := by
  have same : list.isOn [] = list.isHolder := by
    funext resource id
    simp [isOn]
  refine ⟨chained.numbered, chained.order, chained.inside, ?_⟩
  rw [same]
  refine ⟨?_, chained.linkedOn, ?_⟩
  · intro resource id holds
    obtain ⟨_, node, found, member⟩ := isHolder_iff.mp holds
    exact isSome_linksAt found member
  · intro resource id off links found
    obtain ⟨node, there, linked⟩ := Option.bind_eq_some_iff.mp found
    have held := Instruction.isSome_links? node resource
    rw [linked] at held
    have running := all id (List.getElem?_eq_some_iff.mp there).1
    have holds : list.isHolder resource id = true :=
      isHolder_iff.mpr ⟨running, node, there, List.contains_iff_mem.mp held.symm⟩
    rw [holds] at off
    cases off

theorem SameButLinks.isHolder (same : SameButLinks list after) (resource : Resource) (id : Nat) :
    after.isHolder resource id = list.isHolder resource id := by
  rw [InstructionList.isHolder, InstructionList.isHolder, same.holdsAt, contains, contains, same.order]

theorem SameButLinks.numbered (same : SameButLinks list after)
    (numbered : ∀ {id : Nat} {node : Instruction}, list.nodes[id]? = some node → node.id = id)
    {node : Instruction} (found : after.nodes[id]? = some node) : node.id = id := by
  obtain ⟨other, there, equal⟩ := same.symm.getElem? found
  rw [← Instruction.id_withoutLinks, equal, Instruction.id_withoutLinks, numbered there]

theorem Threaded.relinked (threaded : list.Threaded apart) {apart' : List Nat} (same : SameButLinks list after)
    (links : after.LinkedBy (after.isOn apart')) : after.Threaded apart' where
  numbered := same.numbered threaded.numbered
  order := same.order ▸ threaded.order
  inside := by
    rw [← same.order, ← same.length]
    exact threaded.inside
  links := links

/-- An instruction that leaves all of its chains is set apart. -/
theorem Threaded.spliceOut (threaded : list.Threaded apart) (spliced : list.spliceOut id = .ok after) :
    after.Threaded (id :: apart) ∧ SameButLinks list after := by
  cases found : list.nodes[id]? with
  | none =>
      simp only [InstructionList.spliceOut, InstructionList.get, get?, found] at spliced
      cases spliced
  | some node =>
      simp only [InstructionList.spliceOut, InstructionList.get, get?, found] at spliced
      cases spliced
      have same := sameButLinks_foldl_unlink list id node.resources
      refine ⟨threaded.relinked same ?_, same⟩
      have members : leaving (list.isOn apart) id node.resources =
          (node.resources.foldl (fun acc resource => acc.unlink id resource) list).isOn (id :: apart) := by
        funext resource j
        rw [leaving, isOn, isOn, same.isHolder, List.contains_cons, Bool.not_or]
        by_cases here : j = id
        · subst here
          cases member : node.resources.contains resource with
          | true => simp
          | false =>
              have off : list.isHolder resource j = false := by
                have own : list.holdsAt resource j = false := by
                  rw [holdsAt, found]
                  exact member
                rw [InstructionList.isHolder, own, Bool.and_false]
              simp [off]
        · have differ : (j == id) = false := by simpa using here
          simp [differ]
      rw [← members]
      exact threaded.links.foldl_unlink id node.resources

/-- What is set apart and does not run any more is of no account. -/
theorem Threaded.dropped_from_order (threaded : list.Threaded (id :: apart)) :
    { list with order := list.order.filter (fun other => other != id) }.Threaded apart where
  numbered := threaded.numbered
  order := threaded.order.filter _
  inside := fun j member => threaded.inside j (List.mem_filter.mp member).1
  links := by
    have members : { list with order := list.order.filter (fun other => other != id) }.isOn apart =
        list.isOn (id :: apart) := by
      funext resource j
      rw [isOn, isOn, InstructionList.isHolder, InstructionList.isHolder, List.contains_cons, Bool.not_or]
      have order : { list with order := list.order.filter (fun other => other != id) }.contains j =
          (list.contains j && j != id) := by
        rw [Bool.eq_iff_iff, contains, contains]
        simp
      rw [order]
      change (list.contains j && j != id && list.holdsAt resource j && !apart.contains j) = _
      cases list.contains j <;> cases list.holdsAt resource j <;> simp [bne]
    rw [members]
    exact ⟨threaded.links.held, threaded.links.linked, threaded.links.loose⟩

theorem Threaded.remove (threaded : list.Threaded apart) (removed : list.remove id = .ok after) :
    after.Threaded apart := by
  obtain ⟨spliced, isSpliced, rest⟩ := Result.of_bind_eq_ok removed
  cases rest
  exact (threaded.spliceOut isSpliced).1.dropped_from_order

theorem Threaded.removeAll {ids : List Nat} (threaded : list.Threaded apart)
    (removed : list.removeAll ids = .ok after) : after.Threaded apart := by
  induction ids generalizing list with
  | nil =>
      cases removed
      exact threaded
  | cons id rest ih =>
      rw [InstructionList.removeAll, List.foldlM_cons] at removed
      obtain ⟨first, isFirst, further⟩ := Result.of_bind_eq_ok removed
      exact ih (threaded.remove isFirst) further

/-- An occurrence that is dropped leaves its chain. -/
theorem Threaded.dropped (threaded : list.Threaded apart) (id : Nat) (resource : Resource) :
    (list.dropped id resource).Threaded apart := by
  have same := sameButLinks_unlink list id resource
  have length : (list.dropped id resource).nodes.length = list.nodes.length := by
    rw [InstructionList.dropped, modify, List.length_modify, same.length]
  have order : (list.dropped id resource).order = list.order := same.order.symm
  have unlinked := threaded.links.unlink id resource
  have members : (list.dropped id resource).isOn apart = leaving (list.isOn apart) id [resource] := by
    funext other j
    rw [isOn, isHolder_dropped, leaving, leaving, isOn, Bool.and_right_comm]
  refine ⟨?_, order ▸ threaded.order, ?_, ?_⟩
  · intro j node there
    obtain ⟨before, beforeFound, number, _⟩ := getElem?_dropped there
    rw [number, threaded.numbered beforeFound]
  · rw [order, length]
    exact threaded.inside
  · rw [members]
    refine ⟨?_, ?_, ?_⟩
    · intro other j holds
      have kept : ¬(id = j ∧ resource = other) := by
        rintro ⟨rfl, rfl⟩
        simp [leaving] at holds
      rw [linksAt_dropped, if_neg kept]
      exact unlinked.held other j holds
    · intro other j holds links found
      rw [linksAt_dropped] at found
      split at found
      · cases found
      · rw [length, same.length]
        exact unlinked.linked other j holds links found
    · intro other j off links found
      rw [linksAt_dropped] at found
      split at found
      · cases found
      · exact unlinked.loose other j off links found

/-- An order that is accepted is one of the same instructions. -/
theorem of_reorder_eq_ok {order : List Nat} (reordered : list.reorder order = .ok after) :
    after = { list with order := order } ∧ (∀ j, j ∈ order ↔ j ∈ list.order) ∧
      order.length = list.order.length := by
  unfold InstructionList.reorder at reordered
  dsimp only at reordered
  split at reordered
  · next accepted =>
    cases reordered
    obtain ⟨none, length⟩ := Bool.and_eq_true_iff.mp accepted
    refine ⟨rfl, fun j => ?_, beq_iff_eq.mp length⟩
    have stray : j ∉ strays list.order order := by
      rw [List.isEmpty_iff.mp none]
      exact List.not_mem_nil
    rw [strays, Sorted.mem_ofList, List.mem_append, List.mem_filter, List.mem_filter] at stray
    by_cases old : j ∈ list.order
    · by_cases new : j ∈ order
      · simp [old, new]
      · exact absurd (.inl ⟨old, by simpa using new⟩) stray
    · by_cases new : j ∈ order
      · exact absurd (.inr ⟨new, by simpa using old⟩) stray
      · simp [old, new]
  · cases reordered

/-- An order of the same instructions changes no chain. -/
theorem Threaded.reorder {order : List Nat} (threaded : list.Threaded apart)
    (reordered : list.reorder order = .ok after) : after.Threaded apart := by
  obtain ⟨rfl, members, length⟩ := of_reorder_eq_ok reordered
  have perm : list.order.Perm order := by
    have sub : list.order.Subperm order := List.subperm_of_subset threaded.order (fun j => (members j).mpr)
    exact sub.perm_of_length_le (Nat.le_of_eq length)
  have same : { list with order := order }.isOn apart = list.isOn apart := by
    funext resource j
    have contains : { list with order := order }.contains j = list.contains j := by
      rw [Bool.eq_iff_iff, InstructionList.contains, InstructionList.contains, List.contains_iff_mem,
        List.contains_iff_mem]
      exact members j
    rw [isOn, isOn, InstructionList.isHolder, contains]
    rfl
  refine ⟨threaded.numbered, perm.nodup threaded.order, ?_, ?_⟩
  · intro j member
    exact threaded.inside j ((members j).mp member)
  · rw [same]
    exact ⟨threaded.links.held, threaded.links.linked, threaded.links.loose⟩

theorem SameShape.linksAt (same : SameShape list after) (resource : Resource) (id : Nat) :
    after.linksAt resource id = list.linksAt resource id := by
  have views := congrArg (fun nodes : List Instruction =>
    (nodes[id]?).bind (fun node => node.links? resource)) same.nodes
  simp only [List.getElem?_map, Option.bind_map, Function.comp_def, Instruction.links?_shape] at views
  exact views.symm

theorem Threaded.sameShape (threaded : list.Threaded apart) (same : SameShape list after) :
    after.Threaded apart where
  numbered := by
    intro id node found
    obtain ⟨other, there, equal⟩ := same.symm.getElem? found
    rw [← Instruction.id_shape, equal, Instruction.id_shape, threaded.numbered there]
  order := same.order ▸ threaded.order
  inside := by
    rw [← same.order, ← same.length]
    exact threaded.inside
  links := by
    have members : after.isOn apart = list.isOn apart := by
      funext resource id
      rw [isOn, isOn, same.isHolder]
    rw [members]
    refine ⟨?_, ?_, ?_⟩
    · intro resource id holds
      rw [same.linksAt]
      exact threaded.links.held resource id holds
    · intro resource id holds links found
      rw [same.linksAt] at found
      rw [← same.length]
      exact threaded.links.linked resource id holds links found
    · intro resource id off links found
      rw [same.linksAt] at found
      exact threaded.links.loose resource id off links found

end TwoLane.InstructionList
