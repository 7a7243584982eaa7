import TwoLane.Proofs.Chain.Exact
import TwoLane.Proofs.Chain.Removal

/-! # Leaving chains

An instruction that leaves a chain joins the nearest ones on both sides of it. Chains stay exact for the
instructions that are left on them, whether the instruction goes altogether or only drops an occurrence.
-/

namespace TwoLane

/-! ## Nearest numbers without one of them -/

namespace Nearest

/-- A property of numbers without one of them. -/
def without (p : Nat → Bool) (id : Nat) : Nat → Bool :=
  fun j => p j && j != id

variable {p : Nat → Bool} {id j bound : Nat}

theorem without_eq_true : without p id j = true ↔ p j = true ∧ j ≠ id := by
  simp [without]

theorem without_of_false (absent : p j = false) : without p id j = false := by
  simp [without, absent]

theorem without_self : without p id id = false := by
  simp [without]

theorem below?_without_of_next (next : below? p j = some id) :
    below? (without p id) j = below? p id := by
  obtain ⟨lower, _, between⟩ := below?_eq_some.mp next
  cases nearest : below? p id with
  | none =>
      refine below?_eq_none.mpr (fun k inside => ?_)
      rcases Nat.lt_trichotomy k id with below | same | above
      · exact without_of_false (below?_eq_none.mp nearest k below)
      · exact same ▸ without_self
      · exact without_of_false (between k above inside)
  | some other =>
      obtain ⟨further, holds, free⟩ := below?_eq_some.mp nearest
      refine below?_eq_some.mpr ⟨by omega, without_eq_true.mpr ⟨holds, by omega⟩, fun k above inside => ?_⟩
      rcases Nat.lt_trichotomy k id with below | same | later
      · exact without_of_false (free k above below)
      · exact same ▸ without_self
      · exact without_of_false (between k later inside)

theorem below?_without_of_other (other : below? p j ≠ some id) :
    below? (without p id) j = below? p j := by
  cases nearest : below? p j with
  | none => exact below?_eq_none.mpr (fun k inside => without_of_false (below?_eq_none.mp nearest k inside))
  | some found =>
      obtain ⟨lower, holds, between⟩ := below?_eq_some.mp nearest
      have differ : found ≠ id := fun same => other (same ▸ nearest)
      exact below?_eq_some.mpr ⟨lower, without_eq_true.mpr ⟨holds, differ⟩,
        fun k above inside => without_of_false (between k above inside)⟩

theorem above?_without_of_next (next : above? p bound j = some id) :
    above? (without p id) bound j = above? p bound id := by
  obtain ⟨upper, _, _, between⟩ := above?_eq_some.mp next
  cases nearest : above? p bound id with
  | none =>
      refine above?_eq_none.mpr (fun k above inside => ?_)
      rcases Nat.lt_trichotomy k id with below | same | later
      · exact without_of_false (between k above below)
      · exact same ▸ without_self
      · exact without_of_false (above?_eq_none.mp nearest k later inside)
  | some other =>
      obtain ⟨further, inside, holds, free⟩ := above?_eq_some.mp nearest
      refine above?_eq_some.mpr ⟨by omega, inside, without_eq_true.mpr ⟨holds, by omega⟩, fun k above below => ?_⟩
      rcases Nat.lt_trichotomy k id with earlier | same | later
      · exact without_of_false (between k above earlier)
      · exact same ▸ without_self
      · exact without_of_false (free k later below)

theorem above?_without_of_other (other : above? p bound j ≠ some id) :
    above? (without p id) bound j = above? p bound j := by
  cases nearest : above? p bound j with
  | none =>
      exact above?_eq_none.mpr
        (fun k above inside => without_of_false (above?_eq_none.mp nearest k above inside))
  | some found =>
      obtain ⟨upper, inside, holds, between⟩ := above?_eq_some.mp nearest
      have differ : found ≠ id := fun same => other (same ▸ nearest)
      exact above?_eq_some.mpr ⟨upper, inside, without_eq_true.mpr ⟨holds, differ⟩,
        fun k above below => without_of_false (between k above below)⟩

end Nearest

namespace InstructionList

open Nearest
open Instruction (withoutLinks)

/-! ## Links after a change -/

/-- The links of the instruction of a number on a chain. -/
def linksAt (list : InstructionList) (resource : Resource) (id : Nat) : Option Links :=
  (list.nodes[id]?).bind (fun node => node.links? resource)

variable {list : InstructionList} {resource other : Resource} {id j : Nat}

theorem linksAt_modify (list : InstructionList) (id : Nat) (resource : Resource) (change : Links → Links)
    (other : Resource) (j : Nat) :
    (list.modify id (fun node => node.modifyLinks resource change)).linksAt other j =
      if id = j ∧ resource = other then (list.linksAt other j).map change else list.linksAt other j := by
  rw [linksAt, modify, List.getElem?_modify]
  cases found : list.nodes[j]? with
  | none => simp [linksAt, found]
  | some node =>
      by_cases here : id = j
      · simp [here, linksAt, found, Instruction.links?_modifyLinks]
      · simp [here, linksAt, found]

theorem linksAt_modifyLinksOf {ids : List Nat} (distinct : ids.Nodup) (list : InstructionList)
    (resource : Resource) (change : Links → Links) (other : Resource) (j : Nat) :
    (list.modifyLinksOf ids resource change).linksAt other j =
      if j ∈ ids ∧ resource = other then (list.linksAt other j).map change else list.linksAt other j := by
  unfold modifyLinksOf
  induction ids generalizing list with
  | nil => simp
  | cons id rest ih =>
      obtain ⟨absent, further⟩ := List.nodup_cons.mp distinct
      rw [List.foldl_cons, ih further, linksAt_modify]
      by_cases here : id = j
      · subst here
        simp [absent]
      · simp [here, Ne.symm here]

/-- What becomes of the links of the instruction of a number when another one with given links leaves the chain. -/
def bridged (id : Nat) (links : Links) (j : Nat) (old : Links) : Links :=
  if j = id then .none
  else
    ⟨if j ∈ links.next then Links.bypass id links.previous old.previous else old.previous,
      if j ∈ links.previous then Links.bypass id links.next old.next else old.next⟩

theorem linksAt_unlink {links : Links} (found : list.linksAt resource id = some links)
    (previous : links.previous.Nodup) (next : links.next.Nodup) (other : Resource) (j : Nat) :
    (list.unlink id resource).linksAt other j =
      if resource = other then (list.linksAt other j).map (bridged id links j) else list.linksAt other j := by
  have here : (list.get? id).bind (fun node => node.links? resource) = some links := found
  rw [unlink, here]
  dsimp only
  rw [linksAt_modify, linksAt_modifyLinksOf next, linksAt_modifyLinksOf previous]
  by_cases same : resource = other
  · subst same
    cases list.linksAt resource j with
    | none => simp
    | some old =>
        rw [if_pos (rfl : resource = resource)]
        change _ = some (bridged id links j old)
        rw [bridged]
        by_cases own : j = id
        · rw [if_pos ⟨own.symm, rfl⟩, if_pos own]
          split
          · split
            · rfl
            · rfl
          · split
            · rfl
            · rfl
        · rw [if_neg (fun here => own here.1.symm), if_neg own]
          by_cases before : j ∈ links.previous
          · by_cases behind : j ∈ links.next
            · simp [before, behind]
            · simp [before, behind]
          · by_cases behind : j ∈ links.next
            · simp [before, behind]
            · simp [before, behind]
  · simp [same]

/-! ## Chains of some instructions -/

/-- The links to the nearest numbers with a property. -/
def around (on : Nat → Bool) (bound id : Nat) : Links :=
  ⟨(below? on id).toList, (above? on bound id).toList⟩

/-- Whether the instructions of given numbers are linked exactly along the chains that they form. -/
def LinkedOn (list : InstructionList) (on : Resource → Nat → Bool) : Prop :=
  ∀ resource id, on resource id = true → ∀ links, list.linksAt resource id = some links →
    links = around (on resource) list.nodes.length id

theorem bypass_self (id : Nat) (instead : Option Nat) :
    Links.bypass id instead.toList [id] = instead.toList := by
  cases instead <;> simp [Links.bypass, Links.join]

theorem nodup_toList (found : Option Nat) : found.toList.Nodup := by
  cases found <;> simp

/-- The links around a number when another one leaves the chain. -/
theorem bridged_around {on : Nat → Bool} {bound : Nat} (inside : ∀ j, on j = true → j < bound)
    (own : on id = true) (holds : on j = true) (differ : j ≠ id) :
    bridged id (around on bound id) j (around on bound j) = around (without on id) bound j := by
  rw [bridged, if_neg differ, around, around, around]
  congr 1
  · by_cases next : below? on j = some id
    · have back := above?_of_below? (inside j holds) holds next
      rw [if_pos (by simp [back]), next, below?_without_of_next next]
      exact bypass_self id _
    · have apart : above? on bound id ≠ some j := fun back => next (below?_of_above? own back)
      rw [if_neg (by simpa using apart), below?_without_of_other next]
  · by_cases next : above? on bound j = some id
    · have back := below?_of_above? holds next
      rw [if_pos (by simp [back]), next, above?_without_of_next next]
      exact bypass_self id _
    · have apart : below? on id ≠ some j := fun back => next (above?_of_below? (inside id own) own back)
      rw [if_neg (by simpa using apart), above?_without_of_other next]

/-- Who is on the chains when the instruction of a number leaves some of them. -/
def leaving (on : Resource → Nat → Bool) (id : Nat) (resources : List Resource) : Resource → Nat → Bool :=
  fun resource j => on resource j && !(j == id && resources.contains resource)

theorem LinkedOn.unlink {on : Resource → Nat → Bool} (linked : list.LinkedOn on) (id : Nat) (resource : Resource)
    (inside : ∀ resource j, on resource j = true → j < list.nodes.length) (own : on resource id = true)
    (held : (list.linksAt resource id).isSome = true) :
    (list.unlink id resource).LinkedOn (leaving on id [resource]) := by
  obtain ⟨links, found⟩ := Option.isSome_iff_exists.mp held
  have exact := linked resource id own links found
  subst exact
  have length := (sameButLinks_unlink list id resource).length
  intro other j holds links there
  rw [linksAt_unlink found (nodup_toList _) (nodup_toList _)] at there
  rw [← length]
  by_cases same : resource = other
  · subst same
    rw [if_pos rfl] at there
    obtain ⟨old, oldFound, rfl⟩ := Option.map_eq_some_iff.mp there
    have chain : leaving on id [resource] resource = without (on resource) id := by
      funext k
      simp [leaving, without, bne]
    rw [chain] at holds ⊢
    obtain ⟨onChain, differ⟩ := without_eq_true.mp holds
    rw [linked resource j onChain old oldFound]
    exact bridged_around (inside resource) own onChain differ
  · rw [if_neg same] at there
    have chain : leaving on id [resource] other = on other := by
      funext k
      simp [leaving, Ne.symm same]
    rw [chain] at holds ⊢
    exact linked other j holds links there

theorem LinkedOn.foldl_unlink {on : Resource → Nat → Bool} {resources : List Resource}
    (linked : list.LinkedOn on) (id : Nat) (distinct : resources.Nodup)
    (inside : ∀ resource j, on resource j = true → j < list.nodes.length)
    (own : ∀ resource ∈ resources, on resource id = true)
    (held : ∀ resource ∈ resources, (list.linksAt resource id).isSome = true) :
    (resources.foldl (fun acc resource => acc.unlink id resource) list).LinkedOn (leaving on id resources) := by
  induction resources generalizing list on with
  | nil =>
      have same : leaving on id [] = on := by
        funext resource j
        simp [leaving]
      rw [same]
      exact linked
  | cons resource rest ih =>
      obtain ⟨absent, further⟩ := List.nodup_cons.mp distinct
      have first := linked.unlink id resource inside (own resource List.mem_cons_self)
        (held resource List.mem_cons_self)
      obtain ⟨links, found⟩ := Option.isSome_iff_exists.mp (held resource List.mem_cons_self)
      have exact := linked resource id (own resource List.mem_cons_self) links found
      subst exact
      have same : leaving (leaving on id [resource]) id rest = leaving on id (resource :: rest) := by
        funext r j
        rw [leaving, leaving, leaving, List.contains_cons, List.contains_cons, List.contains_nil,
          Bool.or_false]
        cases j == id with
        | true => simp [Bool.and_assoc]
        | false => simp
      rw [List.foldl_cons, ← same]
      refine ih first further ?_ ?_ ?_
      · intro r j holds
        rw [← (sameButLinks_unlink list id resource).length]
        exact inside r j (Bool.and_eq_true_iff.mp holds).1
      · intro r member
        have differ : r ≠ resource := fun same => absent (same ▸ member)
        simp [leaving, own r (List.mem_cons_of_mem _ member), differ]
      · intro r member
        rw [linksAt_unlink found (nodup_toList _) (nodup_toList _)]
        split
        · rw [Option.isSome_map]
          exact held r (List.mem_cons_of_mem _ member)
        · exact held r (List.mem_cons_of_mem _ member)

/-! ## Lists that lose instructions -/

theorem Chained.linkedOn (chained : list.Chained) : list.LinkedOn list.isHolder := by
  intro resource id holds links found
  obtain ⟨running, node, there, _⟩ := isHolder_iff.mp holds
  rw [linksAt, there, Option.bind_some] at found
  exact chained.exact running there found

/-- A list whose holders are linked exactly has exact chains, whatever else its links were before. -/
theorem SameButLinks.chained {before after : InstructionList} (same : SameButLinks before after)
    (numbered : ∀ {id : Nat} {node : Instruction}, before.nodes[id]? = some node → node.id = id)
    (order : before.order.Nodup) (inside : ∀ id ∈ before.order, id < before.nodes.length)
    (distinct : ∀ {id : Nat} {node : Instruction}, before.nodes[id]? = some node → node.resources.Nodup)
    (linked : after.LinkedOn after.isHolder) : after.Chained where
  numbered := by
    intro id node found
    obtain ⟨other, there, equal⟩ := same.symm.getElem? found
    rw [← Instruction.id_withoutLinks, equal, Instruction.id_withoutLinks, numbered there]
  order := same.order ▸ order
  inside := by
    rw [← same.order, ← same.length]
    exact inside
  distinct := by
    intro id node found
    obtain ⟨other, there, equal⟩ := same.symm.getElem? found
    rw [Instruction.resources_congr equal]
    exact distinct there
  exact := by
    intro id node resource links running found there
    have held := Instruction.isSome_links? node resource
    rw [there] at held
    have holds : after.isHolder resource id = true :=
      isHolder_iff.mpr ⟨running, node, found, List.contains_iff_mem.mp held.symm⟩
    refine linked resource id holds links ?_
    rw [linksAt, found]
    exact there

theorem SameButLinks.holdsAt {before after : InstructionList} (same : SameButLinks before after)
    (resource : Resource) (id : Nat) : after.holdsAt resource id = before.holdsAt resource id := by
  have views := congrArg (fun nodes : List Instruction =>
    ((nodes[id]?).map (fun node => node.holds resource)).getD false) same.nodes
  simp only [List.getElem?_map, Option.map_map, Function.comp_def, Instruction.holds_withoutLinks] at views
  exact views.symm

theorem isSome_linksAt {node : Instruction} (found : list.nodes[id]? = some node)
    (member : resource ∈ node.resources) : (list.linksAt resource id).isSome = true := by
  rw [linksAt, found, Option.bind_some, Instruction.isSome_links?]
  exact List.contains_iff_mem.mpr member

/-- A removal of a running instruction keeps chains exact. -/
theorem Chained.remove (chained : list.Chained) (running : id ∈ list.order) :
    ∃ after, list.remove id = .ok after ∧
      SameButLinks { list with order := list.order.filter (fun other => other != id) } after ∧
        after.Chained := by
  have inside := chained.inside id running
  have found := List.getElem?_eq_getElem inside
  obtain ⟨after, removed, same⟩ := remove_eq_ok inside
  refine ⟨after, removed, same, ?_⟩
  have spliced := chained.linkedOn.foldl_unlink id (chained.distinct found)
    (fun resource j holds => chained.inside j (isHolder_iff.mp holds).1)
    (fun resource member => isHolder_iff.mpr ⟨running, _, found, member⟩)
    (fun resource member => isSome_linksAt found member)
  have holders : leaving list.isHolder id (list.nodes[id]).resources = after.isHolder := by
    funext resource j
    have order : after.contains j = (list.contains j && j != id) := by
      have members : after.order = list.order.filter (fun other => other != id) := same.order.symm
      rw [Bool.eq_iff_iff, contains, contains, members]
      simp
    rw [isHolder, order, same.holdsAt, leaving, isHolder]
    change _ = (list.contains j && j != id && list.holdsAt resource j)
    by_cases here : j = id
    · subst here
      have own : list.holdsAt resource j = (list.nodes[j]).resources.contains resource := by
        rw [InstructionList.holdsAt, found]
        rfl
      rw [own]
      cases (list.nodes[j]).resources.contains resource with
      | true => simp
      | false => simp
    · have off : (j == id) = false := by simpa using here
      simp [bne, off]
  rw [holders] at spliced
  have get : list.get id = .ok list.nodes[id] := by simp [InstructionList.get, get?, inside]
  simp only [InstructionList.remove, spliceOut, get] at removed
  cases removed
  exact same.chained chained.numbered (chained.order.filter _)
    (fun j member => chained.inside j (List.mem_filter.mp member).1) chained.distinct spliced

theorem Chained.removeAll {ids : List Nat} (chained : list.Chained) (distinct : ids.Nodup)
    (running : ids ⊆ list.order) :
    ∃ after, list.removeAll ids = .ok after ∧
      SameButLinks { list with order := list.order.filter (fun other => !ids.contains other) } after ∧
        after.Chained := by
  obtain ⟨after, removed, same⟩ := removeAll_eq_ok (fun id member => chained.inside id (running member))
  refine ⟨after, removed, same, ?_⟩
  clear same
  induction ids generalizing list with
  | nil =>
      cases removed
      exact chained
  | cons id rest ih =>
      obtain ⟨absent, further⟩ := List.nodup_cons.mp distinct
      obtain ⟨first, removedFirst, same, chainedFirst⟩ := chained.remove (running List.mem_cons_self)
      rw [InstructionList.removeAll, List.foldlM_cons, removedFirst] at removed
      refine ih chainedFirst further ?_ removed
      intro other member
      rw [← same.order]
      have differ : other ≠ id := fun same => absent (same ▸ member)
      exact List.mem_filter.mpr ⟨running (List.mem_cons_of_mem _ member), by simpa using differ⟩

/-! ## Instructions that lose occurrences -/

/-- Drop an occurrence of the instruction of a number and join its neighbours. -/
def dropped (list : InstructionList) (id : Nat) (resource : Resource) : InstructionList :=
  (list.unlink id resource).modify id (fun node => node.dropOccurrence resource)

theorem withoutLinks_dropped (list : InstructionList) (id : Nat) (resource : Resource) (j : Nat) :
    ((list.dropped id resource).nodes[j]?).map withoutLinks = (list.nodes[j]?).map (fun node =>
      if id = j then node.withoutLinks.dropOccurrence resource else node.withoutLinks) := by
  have same := congrArg (fun nodes : List Instruction => nodes[j]?) (sameButLinks_unlink list id resource).nodes
  simp only [List.getElem?_map] at same
  rw [dropped, modify, List.getElem?_modify]
  cases found : list.nodes[j]? with
  | none =>
      rw [found] at same
      rw [Option.map_eq_none_iff.mp same.symm]
      rfl
  | some node =>
      rw [found] at same
      obtain ⟨unlinked, there, equal⟩ := Option.map_eq_some_iff.mp same.symm
      rw [there]
      by_cases here : id = j
      · simp [here, Instruction.withoutLinks_dropOccurrence, equal]
      · simp [here, equal]

theorem linksAt_dropped (list : InstructionList) (id : Nat) (resource other : Resource) (j : Nat) :
    (list.dropped id resource).linksAt other j =
      if id = j ∧ resource = other then none else (list.unlink id resource).linksAt other j := by
  rw [linksAt, linksAt, dropped, modify, List.getElem?_modify]
  cases (list.unlink id resource).nodes[j]? with
  | none => simp
  | some node =>
      by_cases here : id = j
      · simp [here, Instruction.links?_dropOccurrence]
      · simp [here]

theorem getElem?_dropped {after : Instruction} (found : (list.dropped id resource).nodes[j]? = some after) :
    ∃ before, list.nodes[j]? = some before ∧ after.id = before.id ∧
      after.resources = if id = j then before.resources.filter (fun r => r != resource)
        else before.resources := by
  have views := withoutLinks_dropped list id resource j
  rw [found] at views
  obtain ⟨before, there, equal⟩ := Option.map_eq_some_iff.mp views.symm
  refine ⟨before, there, ?_, ?_⟩
  · rw [← Instruction.id_withoutLinks, ← equal]
    split
    · cases resource <;> rfl
    · rfl
  · rw [← Instruction.resources_withoutLinks, ← equal]
    split
    · rw [Instruction.resources_dropOccurrence, Instruction.resources_withoutLinks]
    · rw [Instruction.resources_withoutLinks]

theorem isHolder_dropped (list : InstructionList) (id : Nat) (resource : Resource) :
    (list.dropped id resource).isHolder = leaving list.isHolder id [resource] := by
  funext other j
  have views := withoutLinks_dropped list id resource j
  have order : (list.dropped id resource).contains j = list.contains j := by
    rw [contains, contains, (sameButLinks_unlink list id resource).order]
    rfl
  rw [isHolder, order, leaving, isHolder, Bool.and_assoc]
  congr 1
  rw [InstructionList.holdsAt, InstructionList.holdsAt]
  cases found : (list.dropped id resource).nodes[j]? with
  | none =>
      rw [found] at views
      rw [Option.map_eq_none_iff.mp views.symm]
      rfl
  | some after =>
      obtain ⟨before, there, _, resources⟩ := getElem?_dropped found
      rw [there]
      simp only [Option.map_some, Option.getD_some, Instruction.holds, resources]
      by_cases here : id = j
      · subst here
        rw [if_pos rfl, Bool.eq_iff_iff]
        simp
      · have off : (j == id) = false := by simpa using Ne.symm here
        simp [here, off]

/-- A list whose instruction drops an occurrence keeps exact chains. -/
theorem Chained.dropped {node : Instruction} (chained : list.Chained) (running : id ∈ list.order)
    (found : list.nodes[id]? = some node) (member : resource ∈ node.resources) :
    (list.dropped id resource).Chained := by
  have same := sameButLinks_unlink list id resource
  have linked := chained.linkedOn.unlink id resource
    (fun _ j holds => chained.inside j (isHolder_iff.mp holds).1)
    (isHolder_iff.mpr ⟨running, node, found, member⟩) (isSome_linksAt found member)
  have length : (list.dropped id resource).nodes.length = list.nodes.length := by
    rw [InstructionList.dropped, modify, List.length_modify, same.length]
  have order : (list.dropped id resource).order = list.order := same.order.symm
  exact {
    numbered := by
      intro j after there
      obtain ⟨before, beforeFound, number, _⟩ := getElem?_dropped there
      rw [number, chained.numbered beforeFound]
    order := order ▸ chained.order
    inside := by
      rw [order, length]
      exact chained.inside
    distinct := by
      intro j after there
      obtain ⟨before, beforeFound, _, resources⟩ := getElem?_dropped there
      rw [resources]
      split
      · exact (chained.distinct beforeFound).filter _
      · exact chained.distinct beforeFound
    exact := by
      intro j after other links runs there hasLinks
      have held := Instruction.isSome_links? after other
      rw [hasLinks] at held
      have holds : (list.dropped id resource).isHolder other j = true :=
        isHolder_iff.mpr ⟨runs, after, there, List.contains_iff_mem.mp held.symm⟩
      have linksThere : (list.dropped id resource).linksAt other j = some links := by
        rw [linksAt, there]
        exact hasLinks
      rw [linksAt_dropped] at linksThere
      rw [isHolder_dropped] at holds
      split at linksThere
      · cases linksThere
      · have exact := linked other j holds links linksThere
        rw [exact, nearest, around, isHolder_dropped, length, same.length] }

end InstructionList

end TwoLane
