import TwoLane.Block.LaneView
import TwoLane.Proofs.Block.Bound
import TwoLane.Proofs.Block.Unfolding

/-! # Lane views hold the lines of their blocks

The views of a block come from its runs. A control line cuts the runs in two, those in front of it and those behind it, so
no line gets past it. The groups of views stand one behind the other in the order of the ranks, and the number of the
first view of a group is the number of views in the groups before it.
-/

namespace TwoLane

namespace LaneView

variable {lines : Classification} {block : Block} {entries seen : List (Nat × Lane)}

/-! ## Runs -/

/-- The runs hold all lines, each as often as it was given. -/
theorem perm_runs (quantum classical : List Nat) (entries : List (Nat × Lane)) :
    ((runs quantum classical entries).flatMap Prod.snd).Perm (quantum ++ classical ++ entries.map Prod.fst) := by
  induction entries generalizing quantum classical with
  | nil => simp [runs]
  | cons entry rest ih =>
      obtain ⟨line, lane⟩ := entry
      cases lane with
      | quantum =>
          refine (ih (quantum ++ [line]) classical).trans ?_
          simp only [List.append_assoc, List.singleton_append, List.map_cons]
          exact List.perm_middle.symm.append_left quantum
      | classical =>
          refine (ih quantum (classical ++ [line])).trans ?_
          simp
      | control =>
          have further := ih [] []
          simp only [runs, List.flatMap_cons, List.map_cons, List.append_assoc]
          exact ((further.cons line).append_left classical).append_left quantum

/-- A run holds lines of its lane in the order in which they were given. -/
theorem sublist_of_mem_runs (quantum classical : List Nat) (fromQuantum : (quantum.map (·, Lane.quantum)).Sublist seen)
    (fromClassical : (classical.map (·, Lane.classical)).Sublist seen) :
    ∀ run ∈ runs quantum classical entries, (run.2.map (·, run.1)).Sublist (seen ++ entries) := by
  induction entries generalizing quantum classical seen with
  | nil =>
      intro run member
      rw [List.append_nil]
      rcases List.mem_cons.mp member with rfl | member
      · exact fromQuantum
      · rw [List.mem_singleton.mp member]
        exact fromClassical
  | cons entry rest ih =>
      obtain ⟨line, lane⟩ := entry
      have older : ∀ {old}, List.Sublist old seen → old.Sublist (seen ++ [(line, lane)]) :=
        fun sublist => sublist.trans (List.sublist_append_left _ _)
      have newer : ∀ {old}, List.Sublist old seen → (old ++ [(line, lane)]).Sublist (seen ++ [(line, lane)]) :=
        fun sublist => sublist.append (List.Sublist.refl _)
      rw [List.append_cons]
      cases lane with
      | quantum => exact ih _ _ (by simpa using newer fromQuantum) (older fromClassical)
      | classical => exact ih _ _ (older fromQuantum) (by simpa using newer fromClassical)
      | control =>
          intro run member
          rcases List.mem_cons.mp member with rfl | member
          · exact (older fromQuantum).trans (List.sublist_append_left _ _)
          rcases List.mem_cons.mp member with rfl | member
          · exact (older fromClassical).trans (List.sublist_append_left _ _)
          rcases List.mem_cons.mp member with rfl | member
          · exact List.singleton_sublist.mpr (by simp)
          · exact ih [] [] (List.nil_sublist _) (List.nil_sublist _) run member

theorem control_of_mem_runs (quantum classical : List Nat) (entries : List (Nat × Lane)) :
    ∀ run ∈ runs quantum classical entries, run.1 = .control → ∃ line, run.2 = [line] := by
  induction entries generalizing quantum classical with
  | nil => simp [runs]
  | cons entry rest ih =>
      obtain ⟨line, lane⟩ := entry
      cases lane with
      | quantum | classical => exact ih _ _
      | control =>
          simp only [runs, List.forall_mem_cons]
          exact ⟨nofun, nofun, fun _ => ⟨line, rfl⟩, ih [] []⟩

theorem runs_control (quantum classical : List Nat) (before : List (Nat × Lane)) (line : Nat)
    (behind : List (Nat × Lane)) : runs quantum classical (before ++ (line, .control) :: behind) =
      runs quantum classical before ++ (.control, [line]) :: runs [] [] behind := by
  induction before generalizing quantum classical with
  | nil => rfl
  | cons entry rest ih =>
      obtain ⟨other, lane⟩ := entry
      cases lane with
      | quantum => exact ih (quantum ++ [other]) classical
      | classical => exact ih quantum (classical ++ [other])
      | control =>
          simp only [List.cons_append, runs, ih]

/-- The runs that hold lines. -/
def kept (runs : List (Lane × List Nat)) : List (Lane × List Nat) :=
  runs.filter (fun run => !run.2.isEmpty)

theorem lines_kept (runs : List (Lane × List Nat)) : (kept runs).flatMap Prod.snd = runs.flatMap Prod.snd := by
  induction runs with
  | nil => rfl
  | cons run rest ih =>
      obtain ⟨lane, lines⟩ := run
      cases lines <;> simp_all [kept]

/-! ## Runs of a block -/

def laneOf? (lines : Classification) (line : Nat) : Option Lane :=
  (lines.category? line).map Lane.ofCategory

def classified (lines : Classification) (block : Block) : List Nat :=
  block.lines.filter (fun line => (laneOf? lines line).isSome)

theorem lanesOf_eq (lines : Classification) (block : Block) :
    lanesOf lines block = block.lines.filterMap (fun line => (laneOf? lines line).map (line, ·)) := by
  simp only [lanesOf, laneOf?, Option.map_map]
  rfl

theorem lines_lanesOf (lines : Classification) (block : Block) :
    (lanesOf lines block).map Prod.fst = classified lines block := by
  rw [lanesOf_eq, classified]
  induction block.lines with
  | nil => rfl
  | cons line rest ih => cases found : laneOf? lines line <;> simp [found, ih]

theorem laneOf?_of_mem_lanesOf {entry : Nat × Lane} (member : entry ∈ lanesOf lines block) :
    laneOf? lines entry.1 = some entry.2 := by
  rw [lanesOf_eq] at member
  obtain ⟨line, _, same⟩ := List.mem_filterMap.mp member
  obtain ⟨lane, found, rfl⟩ := Option.map_eq_some_iff.mp same
  exact found

/-- Whether runs hold the classified lines of a block, each line where its lane and the control lines let it stand. -/
structure Covers (lines : Classification) (block : Block) (runs : List (Lane × List Nat)) : Prop where
  nonempty : runs ≠ []
  each : (runs.flatMap Prod.snd).Perm (classified lines block)
  lane : ∀ run ∈ runs, ∀ line ∈ run.2, laneOf? lines line = some run.1
  inOrder : ∀ run ∈ runs, run.2.Sublist (classified lines block)
  control : ∀ run ∈ runs, run.1 = .control → ∃ line, run.2 = [line]
  /-- No line gets past a control line. -/
  apart : ∀ before line behind, classified lines block = before ++ line :: behind →
    laneOf? lines line = some .control → ∃ front back, runs = front ++ (.control, [line]) :: back ∧
      (front.flatMap Prod.snd).Perm before ∧ (back.flatMap Prod.snd).Perm behind
  empty : ∀ run ∈ runs, run.2 = [] → classified lines block = []

theorem perm_kept (entries : List (Nat × Lane)) :
    ((kept (runs [] [] entries)).flatMap Prod.snd).Perm (entries.map Prod.fst) := by
  rw [lines_kept]
  exact perm_runs [] [] entries

theorem covers_kept (some : classified lines block ≠ []) : Covers lines block (kept (runs [] [] (lanesOf lines block))) := by
  have each := perm_kept (lanesOf lines block)
  have mem_runs : ∀ {run}, run ∈ kept (runs [] [] (lanesOf lines block)) → run ∈ runs [] [] (lanesOf lines block) :=
    fun member => List.mem_of_mem_filter member
  have inside : ∀ run ∈ kept (runs [] [] (lanesOf lines block)), (run.2.map (·, run.1)).Sublist (lanesOf lines block) :=
    fun run member => sublist_of_mem_runs [] [] (List.nil_sublist []) (List.nil_sublist []) run (mem_runs member)
  rw [lines_lanesOf] at each
  refine ⟨fun none => ?_, each, fun run member line there => ?_, fun run member => ?_, fun run member => ?_, ?_, ?_⟩
  · rw [none] at each
    exact some each.nil_eq.symm
  · exact laneOf?_of_mem_lanesOf ((inside run member).subset (List.mem_map_of_mem there))
  · have sublist := (inside run member).map Prod.fst
    rw [lines_lanesOf, List.map_map] at sublist
    simpa [Function.comp_def] using sublist
  · exact control_of_mem_runs _ _ _ run (mem_runs member)
  · intro before line behind split control
    rw [← lines_lanesOf] at split
    obtain ⟨front, rest, same, rfl, further⟩ := List.map_eq_append_iff.mp split
    obtain ⟨entry, back, rfl, rfl, rfl⟩ := List.map_eq_cons_iff.mp further
    have known := laneOf?_of_mem_lanesOf (same ▸ List.mem_append_right front List.mem_cons_self)
    obtain ⟨line, lane⟩ := entry
    cases Option.some.inj (known.symm.trans control)
    refine ⟨kept (runs [] [] front), kept (runs [] [] back), ?_, perm_kept front, perm_kept back⟩
    rw [same, runs_control, kept, List.filter_append, List.filter_cons_of_pos (by rfl)]
    rfl
  · intro run member empty
    have holds := List.of_mem_filter member
    simp [empty] at holds

theorem covers_runsOf (lines : Classification) (block : Block) : Covers lines block (runsOf lines block) := by
  have each := perm_kept (lanesOf lines block)
  rw [lines_lanesOf] at each
  by_cases none : classified lines block = []
  · have empty : kept (runs [] [] (lanesOf lines block)) = [] := by
      refine List.eq_nil_iff_forall_not_mem.mpr (fun run member => ?_)
      have holds : run.2 ≠ [] := by simpa using List.of_mem_filter member
      obtain ⟨line, there⟩ := List.exists_mem_of_ne_nil _ holds
      rw [none] at each
      exact List.not_mem_nil (each.subset (List.mem_flatMap.mpr ⟨run, member, there⟩))
    have same : runsOf lines block = [(.quantum, [])] := by
      rw [runsOf, show (runs [] [] (lanesOf lines block)).filter _ = [] from empty]
    rw [same]
    refine ⟨by simp, by simp [none], by simp, by simp, by simp, ?_, fun _ _ _ => none⟩
    intro before line behind split
    simp [none] at split
  · have covers := covers_kept none
    have same : runsOf lines block = kept (runs [] [] (lanesOf lines block)) := by
      rw [runsOf]
      split
      · next empty => exact absurd empty covers.nonempty
      · next => rfl
    rw [same]
    exact covers

/-! ## Views of a block -/

def run (view : LaneView) : Lane × List Nat :=
  (view.lane, view.lines)

section Chain

variable {parent first k : Nat} {exits : List Nat} {held : List (Lane × List Nat)} {view : LaneView}

theorem run_chain (parent : Nat) (exits : List Nat) (first : Nat) (held : List (Lane × List Nat)) :
    (chain parent exits first held).map run = held := by
  fun_induction chain parent exits first held with
  | case1 => rfl
  | case2 => rfl
  | case3 first lane lines next rest ih => rw [List.map_cons, ih, run]

theorem length_chain : (chain parent exits first held).length = held.length := by
  rw [← List.length_map, run_chain]

theorem parent_of_mem_chain : ∀ view ∈ chain parent exits first held, view.parent = parent := by
  fun_induction chain parent exits first held with
  | case1 => simp
  | case2 => simp
  | case3 first lane lines next rest ih => exact List.forall_mem_cons.mpr ⟨rfl, ih⟩

theorem branches_of_next (found : (chain parent exits first held)[k]? = some view) (next : k + 1 < held.length) :
    view.branches = [first + k + 1] := by
  fun_induction chain parent exits first held generalizing k with
  | case1 => cases found
  | case2 => simp at next
  | case3 first lane lines next' rest ih =>
      cases k with
      | zero =>
          cases found
          rfl
      | succ k =>
          rw [ih found (Nat.lt_of_succ_lt_succ next), Nat.add_right_comm first 1 k]
          rfl

theorem branches_of_last (found : (chain parent exits first held)[k]? = some view) (last : k + 1 = held.length) :
    view.branches = exits := by
  fun_induction chain parent exits first held generalizing k with
  | case1 => cases found
  | case2 first lane lines =>
      cases Nat.succ.inj last
      cases found
      rfl
  | case3 first lane lines next rest ih =>
      cases k with
      | zero => simp at last
      | succ k => exact ih found (Nat.succ.inj last)

end Chain

/-! ## Groups of views -/

/-- The number of the first view of a group. -/
def firstOf {α : Type} (groups : List (List α)) (rank : Nat) : Nat :=
  (groups.take rank).flatten.length

section Groups

variable {α β : Type} {groups : List (List α)} {group : List α} {rank : Nat}

theorem firstOf_map (f : α → β) : firstOf (groups.map (List.map f)) rank = firstOf groups rank := by
  rw [firstOf, ← List.map_take, ← List.map_flatten, List.length_map, firstOf]

/-- A group takes up its numbers among all numbers. -/
theorem firstOf_add_le (found : groups[rank]? = some group) :
    firstOf groups rank + group.length ≤ groups.flatten.length := by
  obtain ⟨inside, rfl⟩ := List.getElem?_eq_some_iff.mp found
  have split : groups.flatten.length = ((groups.take rank) ++ groups[rank] :: groups.drop (rank + 1)).flatten.length := by
    rw [← List.drop_eq_getElem_cons inside, List.take_append_drop]
  rw [split, List.flatten_append, List.flatten_cons, List.length_append, List.length_append, firstOf]
  omega

theorem getElem?_firsts (first : Nat) (groups : List (List (Lane × List Nat))) (inside : rank < groups.length) :
    (firsts first groups)[rank]? = some (first + firstOf groups rank) := by
  induction groups generalizing first rank with
  | nil => cases inside
  | cons group rest ih =>
      cases rank with
      | zero => rfl
      | succ rank =>
          rw [firsts, List.getElem?_cons_succ, ih _ (Nat.lt_of_succ_lt_succ inside)]
          simp only [firstOf, List.take_succ_cons, List.flatten_cons, List.length_append, Nat.add_assoc]

theorem length_firsts (first : Nat) (groups : List (List (Lane × List Nat))) :
    (firsts first groups).length = groups.length := by
  induction groups generalizing first with
  | nil => rfl
  | cons group rest ih => rw [firsts, List.length_cons, ih, List.length_cons]

end Groups

variable {ranked : RankedGraph} {id rank : Nat}

def runsByRank (ranked : RankedGraph) (lines : Classification) : List (List (Lane × List Nat)) :=
  ranked.order.map (fun id => runsOf lines (ranked.graph.block id))

def exitsOf (ranked : RankedGraph) (lines : Classification) (id : Nat) : List Nat :=
  ((ranked.graph.block id).branches.filterMap ranked.rank?).filterMap
    (fun rank => (firsts 0 (runsByRank ranked lines))[rank]?)

def groupsOf (ranked : RankedGraph) (lines : Classification) : List (List LaneView) :=
  ((ranked.order.zip (runsByRank ranked lines)).zip (firsts 0 (runsByRank ranked lines))).map
    (fun entry => chain entry.1.1 (exitsOf ranked lines entry.1.1) entry.2 entry.1.2)

theorem split_eq (ranked : RankedGraph) (lines : Classification) :
    split ranked lines = (groupsOf ranked lines).flatten :=
  List.flatMap_def

theorem length_groupsOf (ranked : RankedGraph) (lines : Classification) :
    (groupsOf ranked lines).length = ranked.order.length := by
  simp [groupsOf, runsByRank, length_firsts]

theorem runs_groupsOf (ranked : RankedGraph) (lines : Classification) :
    (groupsOf ranked lines).map (List.map run) = runsByRank ranked lines := by
  have long : (firsts 0 (runsByRank ranked lines)).length = (ranked.order.zip (runsByRank ranked lines)).length := by
    simp [runsByRank, length_firsts]
  rw [groupsOf, List.map_map]
  simp only [Function.comp_def, run_chain]
  change List.map (Prod.snd ∘ Prod.fst) _ = _
  rw [← List.map_map, List.map_fst_zip (Nat.le_of_eq long.symm), List.map_snd_zip (by simp [runsByRank])]

theorem getElem?_groupsOf (found : ranked.order[rank]? = some id) : (groupsOf ranked lines)[rank]? =
    some (chain id (exitsOf ranked lines id) (firstOf (groupsOf ranked lines) rank)
      (runsOf lines (ranked.graph.block id))) := by
  have inside : rank < (runsByRank ranked lines).length := by
    obtain ⟨inside, _⟩ := List.getElem?_eq_some_iff.mp found
    simpa [runsByRank] using inside
  have first := getElem?_firsts 0 (runsByRank ranked lines) inside
  rw [Nat.zero_add, ← runs_groupsOf, firstOf_map, runs_groupsOf] at first
  have own : (runsByRank ranked lines)[rank]? = some (runsOf lines (ranked.graph.block id)) := by
    rw [runsByRank, List.getElem?_map, found]
    rfl
  have both : (ranked.order.zip (runsByRank ranked lines))[rank]? = some (id, runsOf lines (ranked.graph.block id)) :=
    List.getElem?_zip_eq_some.mpr ⟨found, own⟩
  have all : ((ranked.order.zip (runsByRank ranked lines)).zip (firsts 0 (runsByRank ranked lines)))[rank]? =
      some ((id, runsOf lines (ranked.graph.block id)), firstOf (groupsOf ranked lines) rank) :=
    List.getElem?_zip_eq_some.mpr ⟨both, first⟩
  rw [groupsOf, List.getElem?_map, all]
  rfl

theorem exitsOf_eq (numbered : ranked.Numbered) (onward : ∀ target ∈ ranked.graph.branches id, target ∈ ranked.order) :
    exitsOf ranked lines id =
      (ranked.graph.branches id).map (fun target => firstOf (groupsOf ranked lines) (ranked.order.idxOf target)) := by
  have one : ∀ target ∈ ranked.graph.branches id,
      (ranked.rank? target).bind (fun rank => (firsts 0 (runsByRank ranked lines))[rank]?) =
        some (firstOf (groupsOf ranked lines) (ranked.order.idxOf target)) := by
    intro target leads
    have inside : ranked.order.idxOf target < (runsByRank ranked lines).length := by
      simpa [runsByRank] using List.idxOf_lt_length_of_mem (onward target leads)
    rw [numbered.rank, if_pos (onward target leads), Option.bind_some, getElem?_firsts 0 _ inside, Nat.zero_add,
      ← runs_groupsOf, firstOf_map]
  rw [exitsOf, List.filterMap_filterMap]
  exact (List.filterMap_congr one).trans (congrFun List.filterMap_eq_map _)

/-- Whether a group of views stands for the block of a rank: it holds the lines of the block, each view leads to the next
    one and the last one to the groups of the branches of the block. -/
structure Stands (ranked : RankedGraph) (lines : Classification) (groups : List (List LaneView)) (rank id : Nat)
    (group : List LaneView) : Prop where
  parent : ∀ view ∈ group, view.parent = id
  distinct : (classified lines (ranked.graph.block id)).Nodup
  covers : Covers lines (ranked.graph.block id) (group.map run)
  next : ∀ k view, group[k]? = some view → k + 1 < group.length → view.branches = [firstOf groups rank + k + 1]
  last : ∀ k view, group[k]? = some view → k + 1 = group.length →
    view.branches = (ranked.graph.branches id).map (fun target => firstOf groups (ranked.order.idxOf target))
  onward : ∀ target ∈ ranked.graph.branches id, target ∈ ranked.order

theorem stands_groupsOf (numbered : ranked.Numbered) (found : ranked.order[rank]? = some id)
    (distinct : (ranked.graph.block id).lines.Nodup)
    (onward : ∀ target ∈ ranked.graph.branches id, target ∈ ranked.order) :
    ∃ group, (groupsOf ranked lines)[rank]? = some group ∧
      Stands ranked lines (groupsOf ranked lines) rank id group := by
  refine ⟨_, getElem?_groupsOf found, parent_of_mem_chain, distinct.filter _, ?_, fun k view held next => ?_,
    fun k view held last => ?_, onward⟩
  · rw [run_chain]
    exact covers_runsOf lines (ranked.graph.block id)
  · rw [length_chain] at next
    exact branches_of_next held next
  · rw [length_chain] at last
    rw [branches_of_last held last, exitsOf_eq numbered onward]

end LaneView

open LaneView

/-- The lane views of a ranked graph are groups, one for each rank: the group of a rank stands for the block of that rank, and
    every branch leads to one of the views. -/
theorem lane_views_cover {level : Level} {graph : BlockGraph} {ranked : RankedGraph} {known : Classification}
    (wf : level.WellFormed) (built : BlockGraph.ofLevel level = .ok graph) (isRanked : graph.rank known = .ok ranked)
    (lines : Classification) : ∃ groups : List (List LaneView),
      split ranked lines = groups.flatten ∧ groups.length = ranked.order.length ∧
      (∀ rank id, ranked.order[rank]? = some id →
        ∃ group, groups[rank]? = some group ∧ Stands ranked lines groups rank id group) ∧
      ∀ view ∈ split ranked lines, ∀ target ∈ view.branches, target < (split ranked lines).length := by
  have fresh := (BlockGraph.fresh_ofLevel built).1
  have inhabited := BlockGraph.inhabited_ofLevel built
  obtain ⟨_, same, unfolds, numbered⟩ := BlockGraph.rank_unfolds fresh inhabited known
  cases isRanked.symm.trans same
  have stands : ∀ rank id, ranked.order[rank]? = some id → ∃ group, (groupsOf ranked lines)[rank]? = some group ∧
      Stands ranked lines (groupsOf ranked lines) rank id group := by
    intro rank id found
    have isSome := numbered.isSome_rank.mpr (List.mem_of_getElem? found)
    refine stands_groupsOf numbered found ?_ (fun target leads => ?_)
    · rw [unfolds.lines id isSome]
      exact BlockGraph.nodup_lines wf built _
    · exact numbered.isSome_rank.mp (unfolds.onward id isSome target (List.mem_append_left _ leads))
  refine ⟨groupsOf ranked lines, split_eq ranked lines, length_groupsOf ranked lines, stands, ?_⟩
  rw [split_eq]
  intro view member target leads
  obtain ⟨group, there, inGroup⟩ := List.mem_flatten.mp member
  obtain ⟨rank, found⟩ := List.getElem?_of_mem there
  have inside : rank < ranked.order.length := by
    obtain ⟨inside, _⟩ := List.getElem?_eq_some_iff.mp found
    exact length_groupsOf ranked lines ▸ inside
  obtain ⟨_, again, own⟩ := stands rank _ (List.getElem?_eq_getElem inside)
  cases found.symm.trans again
  obtain ⟨k, at'⟩ := List.getElem?_of_mem inGroup
  obtain ⟨low, _⟩ := List.getElem?_eq_some_iff.mp at'
  rcases Nat.lt_or_ge (k + 1) group.length with next | last
  · rw [own.next k view at' next] at leads
    cases List.mem_singleton.mp leads
    have room := firstOf_add_le found
    omega
  · rw [own.last k view at' (by omega)] at leads
    obtain ⟨block, branches, rfl⟩ := List.mem_map.mp leads
    have ranks : ranked.order[ranked.order.idxOf block]? = some block := by
      simp [List.getElem?_idxOf, own.onward block branches]
    obtain ⟨other, there, stands⟩ := stands _ _ ranks
    have some : 0 < other.length := by
      have nonempty := stands.covers.nonempty
      exact List.length_pos_iff.mpr (fun none => nonempty (none ▸ rfl))
    have room := firstOf_add_le there
    omega

/-- A loop with lines of every lane, and a last line without an instruction. -/
def crossingLevel : Level :=
  { Level.ofLines [0, 1, 2, 3, 4, 5, 6, 7] with
    labels := [("loop", 1)]
    conditionalJumps := [(6, "loop")] }

def crossingLines : Classification :=
  [(0, ⟨.quantum, default⟩), (1, ⟨.control, default⟩), (2, ⟨.classical, default⟩), (3, ⟨.quantum, default⟩),
    (4, ⟨.classical, default⟩), (5, ⟨.classicalToQuantum, default⟩), (6, ⟨.classicalControl, default⟩)]

/-- The block behind the loop and the exit have no classified lines, and so an empty view. -/
def crossingViews : List LaneView :=
  [⟨0, .quantum, [0], [1]⟩, ⟨0, .control, [1], [2]⟩, ⟨2, .control, [1], [3]⟩, ⟨2, .quantum, [3, 5], [4]⟩,
    ⟨2, .classical, [2, 4], [5]⟩, ⟨2, .control, [6], []⟩, ⟨4, .control, [1], [7]⟩, ⟨4, .quantum, [3, 5], [8]⟩,
    ⟨4, .classical, [2, 4], [9]⟩, ⟨4, .control, [6], []⟩, ⟨5, .quantum, [], [11]⟩, ⟨6, .quantum, [], []⟩]

theorem crossing_lane_views : ∃ graph ranked, crossingLevel.WellFormed ∧ BlockGraph.ofLevel crossingLevel = .ok graph ∧
    graph.rank crossingLines = .ok ranked ∧ split ranked crossingLines = crossingViews ∧
    ∃ groups : List (List LaneView), crossingViews = groups.flatten ∧
      ∀ rank id, ranked.order[rank]? = some id →
        ∃ group, groups[rank]? = some group ∧ Stands ranked crossingLines groups rank id group := by
  have wf : crossingLevel.WellFormed := .intro (by decide) (by decide) (fun none => by cases none)
  obtain ⟨graph, built, views⟩ : ∃ graph, BlockGraph.ofLevel crossingLevel = .ok graph ∧
      (graph.rank crossingLines).toOption.map (fun ranked => split ranked crossingLines) = some crossingViews :=
    ⟨_, rfl, by decide +kernel⟩
  cases isRanked : graph.rank crossingLines with
  | error error =>
      rw [isRanked] at views
      cases views
  | ok ranked =>
      rw [isRanked] at views
      obtain ⟨groups, flat, _, stands, _⟩ := lane_views_cover wf built isRanked crossingLines
      have same : split ranked crossingLines = crossingViews := Option.some.inj views
      exact ⟨graph, ranked, wf, built, isRanked, same, groups, same ▸ flat, stands⟩

end TwoLane
