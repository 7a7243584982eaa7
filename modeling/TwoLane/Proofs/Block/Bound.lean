import Mathlib.Algebra.BigOperators.Ring.List
import Mathlib.Algebra.Order.BigOperators.Group.List
import Mathlib.Data.List.Lattice
import Mathlib.Data.List.Perm.Subperm
import Mathlib.Tactic.Ring
import TwoLane.Proofs.Block.Apart

/-! # The construction comes to its end

The names that a construction asks for are made from a label, a circuit or a line and from the lines of at most as many
calls as there are circuits. Each of them is filled once and asks for two more blocks at most, so no block waits any
more after as many steps as the bound allows for.
-/

namespace TwoLane

namespace Level

/-! ## All levels of a program -/

mutual

def allLevels : Level → List Level
  | ⟨labels, jumps, conditionalJumps, halts, circuits, formals, lines, calls⟩ =>
      ⟨labels, jumps, conditionalJumps, halts, circuits, formals, lines, calls⟩ :: allLevelsOf circuits

/-- The levels of several circuits and of the circuits in them. -/
def allLevelsOf : List (String × Level) → List Level
  | [] => []
  | (_, body) :: rest => allLevels body ++ allLevelsOf rest

end

theorem mem_allLevels_self (level : Level) : level ∈ allLevels level := by
  cases level
  rw [allLevels]
  exact List.mem_cons_self

theorem allLevels_subset {circuits : List (String × Level)} {name : String} {body : Level}
    (member : (name, body) ∈ circuits) : allLevels body ⊆ allLevelsOf circuits := by
  induction circuits with
  | nil => cases member
  | cons entry rest ih =>
      obtain ⟨other, first⟩ := entry
      rw [allLevelsOf]
      rcases List.mem_cons.mp member with same | further
      · cases same
        exact List.subset_append_left _ _
      · exact List.Subset.trans (ih further) (List.subset_append_right _ _)

mutual

theorem circuit_mem_allLevels {name : String} {inner body : Level} (defined : (name, body) ∈ inner.circuits) :
    ∀ level, inner ∈ allLevels level → body ∈ allLevels level
  | ⟨labels, jumps, conditionalJumps, halts, circuits, formals, lines, calls⟩ => by
      intro member
      rw [allLevels] at member ⊢
      rcases List.mem_cons.mp member with rfl | further
      · exact List.mem_cons_of_mem _ (allLevels_subset defined (mem_allLevels_self body))
      · exact List.mem_cons_of_mem _ (circuit_mem_allLevelsOf defined circuits further)

theorem circuit_mem_allLevelsOf {name : String} {inner body : Level} (defined : (name, body) ∈ inner.circuits) :
    ∀ circuits, inner ∈ allLevelsOf circuits → body ∈ allLevelsOf circuits
  | [] => fun member => by cases member
  | (_, first) :: rest => by
      intro member
      rw [allLevelsOf] at member ⊢
      rcases List.mem_append.mp member with here | further
      · exact List.mem_append_left _ (circuit_mem_allLevels defined first here)
      · exact List.mem_append_right _ (circuit_mem_allLevelsOf defined rest further)

end

theorem Within.mem_allLevels {root level : Level} (within : Within root level) : level ∈ allLevels root := by
  induction within with
  | top => exact mem_allLevels_self root
  | circuit _ defined ih => exact circuit_mem_allLevels defined root ih

def ownWeight (level : Level) : Nat :=
  level.labels.length + level.lines.length + level.calls.length + level.circuits.length

mutual

theorem weight_eq : ∀ level, weight level = ((allLevels level).map ownWeight).sum
  | ⟨labels, jumps, conditionalJumps, halts, circuits, formals, lines, calls⟩ => by
      rw [weight, allLevels, weightOfAll_eq circuits, List.map_cons, List.sum_cons, ownWeight]
      ring

theorem weightOfAll_eq : ∀ circuits, weightOfAll circuits = circuits.length + ((allLevelsOf circuits).map ownWeight).sum
  | [] => rfl
  | (_, body) :: rest => by
      rw [weightOfAll, allLevelsOf, weight_eq body, weightOfAll_eq rest, List.map_append, List.sum_append,
        List.length_cons]
      ring

end

mutual

theorem circuitCount_eq : ∀ level, circuitCount level = ((allLevels level).map (fun inner => inner.circuits.length)).sum
  | ⟨labels, jumps, conditionalJumps, halts, circuits, formals, lines, calls⟩ => by
      rw [circuitCount, allLevels, circuitCountOfAll_eq circuits, List.map_cons, List.sum_cons]

theorem circuitCountOfAll_eq : ∀ circuits, circuitCountOfAll circuits =
    circuits.length + ((allLevelsOf circuits).map (fun inner => inner.circuits.length)).sum
  | [] => rfl
  | (_, body) :: rest => by
      rw [circuitCountOfAll, allLevelsOf, circuitCount_eq body, circuitCountOfAll_eq rest, List.map_append,
        List.sum_append, List.length_cons]
      ring

end

theorem length_flatMap_allLevels_le {α : Type} {parts : Level → List α} {few : Nat}
    (each : ∀ level, (parts level).length ≤ few * level.ownWeight) (root : Level) :
    ((allLevels root).flatMap parts).length ≤ few * root.weight := by
  rw [List.length_flatMap, weight_eq, ← List.sum_map_mul_left]
  exact List.sum_le_sum (fun level _ => each level)

/-! ## Names that can be asked for -/

/-- What the names of blocks of a level start with. -/
def words (level : Level) : List String :=
  level.labels.map Prod.fst ++ level.circuits.map Prod.fst ++ level.lines.map (fun line => (Spot.afterCall line).word) ++
    level.lines.map (fun line => (Spot.afterJump line).word)

def listsUpTo {α : Type} (letters : List α) : Nat → List (List α)
  | 0 => [[]]
  | bound + 1 => [] :: letters.flatMap (fun letter => (listsUpTo letters bound).map (letter :: ·))

theorem mem_listsUpTo {α : Type} {letters list : List α} {bound : Nat} (subset : list ⊆ letters)
    (short : list.length ≤ bound) : list ∈ listsUpTo letters bound := by
  induction bound generalizing list with
  | zero =>
      rw [List.length_eq_zero_iff.mp (Nat.le_zero.mp short)]
      exact List.mem_singleton_self _
  | succ bound ih =>
      cases list with
      | nil => exact List.mem_cons_self
      | cons letter rest =>
          obtain ⟨here, further⟩ := List.cons_subset.mp subset
          refine List.mem_cons_of_mem _ (List.mem_flatMap.mpr ⟨letter, here, ?_⟩)
          exact List.mem_map_of_mem (ih further (Nat.le_of_succ_le_succ short))

theorem length_listsUpTo_le {α : Type} (letters : List α) (bound : Nat) :
    (listsUpTo letters bound).length ≤ (letters.length + 1) ^ bound := by
  induction bound with
  | zero => exact Nat.le_refl _
  | succ bound ih =>
      have each : ((letters.map (fun letter => ((listsUpTo letters bound).map (letter :: ·)).length))).sum =
          letters.length * (listsUpTo letters bound).length := by
        simp
      rw [listsUpTo, List.length_cons, List.length_flatMap, each]
      calc letters.length * (listsUpTo letters bound).length + 1
          ≤ letters.length * (letters.length + 1) ^ bound + (letters.length + 1) ^ bound :=
            Nat.add_le_add (Nat.mul_le_mul_left _ ih) (Nat.one_le_pow _ _ (Nat.succ_pos _))
        _ = (letters.length + 1) ^ (bound + 1) := by ring

def callLines (root : Level) : List Nat :=
  (allLevels root).flatMap (fun level => level.calls.map Prod.fst)

/-- All names that the construction of a program can ask for. -/
def blockNames (root : Level) : List String :=
  ((allLevels root).flatMap words).flatMap
    (fun word => (listsUpTo root.callLines root.circuitCount).map (fun calls => word ++ Spot.markOf calls))

theorem length_blockNames_le (root : Level) :
    root.blockNames.length ≤ 2 * root.weight * (root.weight + 1) ^ root.circuitCount := by
  have manyWords : ((allLevels root).flatMap words).length ≤ 2 * root.weight := by
    refine length_flatMap_allLevels_le (fun level => ?_) root
    simp only [words, ownWeight, List.length_append, List.length_map]
    omega
  have manyLines : root.callLines.length ≤ root.weight := by
    rw [← Nat.one_mul root.weight]
    refine length_flatMap_allLevels_le (fun level => ?_) root
    rw [List.length_map, ownWeight]
    omega
  have marks := length_listsUpTo_le root.callLines root.circuitCount
  have each : (((allLevels root).flatMap words).map (fun word =>
      ((listsUpTo root.callLines root.circuitCount).map (fun calls => word ++ Spot.markOf calls)).length)).sum =
        ((allLevels root).flatMap words).length * (listsUpTo root.callLines root.circuitCount).length := by
    simp
  rw [blockNames, List.length_flatMap, each]
  exact Nat.mul_le_mul manyWords (marks.trans (Nat.pow_le_pow_left (Nat.succ_le_succ manyLines) _))

end Level

/-! ## Names that are asked for -/

namespace CallChain.Opened

variable {root : Level} {chain : CallChain} {calls : List Nat}

theorem calls_subset (opened : Opened root chain calls) : calls ⊆ root.callLines := by
  induction opened with
  | program => exact List.nil_subset _
  | @call inner _ _ line call _ _ _ before onLine _ ih =>
      refine List.cons_subset.mpr ⟨?_, ih⟩
      refine List.mem_flatMap.mpr ⟨inner.level, (before.within inner List.mem_cons_self).mem_allLevels, ?_⟩
      exact List.mem_map_of_mem (Table.mem_of_get? onLine)

theorem circuits (opened : Opened root chain calls) : (chain.filterMap LevelInstance.circuit).Nodup ∧
    (chain.filterMap LevelInstance.circuit).length = calls.length ∧
    chain.filterMap LevelInstance.circuit ⊆
      (Level.allLevels root).flatMap (fun level => level.circuits.map Prod.fst) := by
  induction opened with
  | program => exact ⟨List.nodup_nil, rfl, List.nil_subset _⟩
  | @call inner outer calls line call body after bindings before onLine called ih =>
      obtain ⟨distinct, length, subset⟩ := ih
      obtain ⟨closed, found⟩ := callee_eq_ok called
      obtain ⟨other, there, defined⟩ := exists_of_findCircuit? found
      have more : (⟨body, inner.mark ++ "@" ++ toString line, after, bindings, some call.name⟩ :: inner :: outer :
          CallChain).filterMap LevelInstance.circuit = call.name :: (inner :: outer).filterMap LevelInstance.circuit :=
        List.filterMap_cons_some rfl
      rw [more]
      refine ⟨List.nodup_cons.mpr ⟨?_, distinct⟩, congrArg Nat.succ length, List.cons_subset.mpr ⟨?_, subset⟩⟩
      · intro open'
        obtain ⟨instance', member, same⟩ := List.mem_filterMap.mp open'
        have isOpen : isOpen (inner :: outer) call.name = true :=
          List.any_eq_true.mpr ⟨instance', member, by simp [same]⟩
        rw [closed] at isOpen
        cases isOpen
      · refine List.mem_flatMap.mpr ⟨other.level, (before.within other there).mem_allLevels, ?_⟩
        exact List.mem_map_of_mem (Table.mem_of_get? defined)

theorem length_calls_le (opened : Opened root chain calls) : calls.length ≤ root.circuitCount := by
  obtain ⟨distinct, length, subset⟩ := opened.circuits
  have names : ((Level.allLevels root).flatMap (fun level => level.circuits.map Prod.fst)).length =
      root.circuitCount := by
    rw [List.length_flatMap, Level.circuitCount_eq]
    simp only [List.length_map]
  rw [← length, ← names]
  exact (distinct.subperm subset).length_le

/-- The name of a place is one of those that can be asked for. -/
theorem blockName_mem {inner : LevelInstance} {outer : CallChain} {spot : Spot} {position : Nat}
    (opened : Opened root (inner :: outer) calls) (stands : spot.Stands inner position) :
    spot.blockName calls ∈ root.blockNames := by
  have within := (opened.within inner List.mem_cons_self).mem_allLevels
  have word : spot.word ∈ (Level.allLevels root).flatMap Level.words := by
    have valid : ∀ {line before : Nat}, inner.level.position? line = some before → line ∈ inner.level.lines :=
      fun found => List.mem_of_getElem? (Level.getElem?_of_position? found)
    cases spot with
    | label name =>
        obtain ⟨line, defined, _⟩ := stands
        refine List.mem_flatMap.mpr ⟨inner.level, within, ?_⟩
        have here : name ∈ inner.level.labels.map Prod.fst := List.mem_map_of_mem (Table.mem_of_get? defined)
        simp [Level.words, Spot.word, here]
    | entry circuit =>
        obtain ⟨level, there, defined⟩ := opened.defined stands.1
        refine List.mem_flatMap.mpr ⟨level, there.mem_allLevels, ?_⟩
        have here : circuit ∈ level.circuits.map Prod.fst := List.mem_map_of_mem defined
        simp [Level.words, Spot.word, here]
    | afterCall line =>
        obtain ⟨before, found, _⟩ := stands
        refine List.mem_flatMap.mpr ⟨inner.level, within, ?_⟩
        have here : (Spot.afterCall line).word ∈ inner.level.lines.map (fun line => (Spot.afterCall line).word) :=
          List.mem_map_of_mem (valid found)
        exact List.mem_append_left _ (List.mem_append_right _ here)
    | afterJump line =>
        obtain ⟨before, found, _⟩ := stands
        refine List.mem_flatMap.mpr ⟨inner.level, within, ?_⟩
        have here : (Spot.afterJump line).word ∈ inner.level.lines.map (fun line => (Spot.afterJump line).word) :=
          List.mem_map_of_mem (valid found)
        exact List.mem_append_right _ here
  refine List.mem_flatMap.mpr ⟨spot.word, word, List.mem_map.mpr ⟨calls, ?_, rfl⟩⟩
  exact Level.mem_listsUpTo opened.calls_subset opened.length_calls_le

end CallChain.Opened

namespace Inlining

variable {root : Level} {state next last : Inlining} {inner : LevelInstance} {outer chain : CallChain} {ending : Ending}
  {filling : Filling}

/-! ## Requests of a block -/

theorem length_request (state : Inlining) (name : String) (chain : CallChain) (position : Nat) :
    (state.request name chain position).2.waiting.length = state.waiting.length + 1 :=
  List.length_append

theorem length_following_le (state : Inlining) (kind : String) (chain : CallChain) (inner : LevelInstance)
    (line position : Nat) :
    (state.following kind chain inner line position).2.waiting.length ≤ state.waiting.length + 1 := by
  unfold following
  split
  · exact Nat.le_of_eq (length_request _ _ _ _)
  · exact Nat.le_succ _

theorem length_target {label : String} {line id : Nat} (asked : state.target chain label line = .ok (id, next)) :
    next.waiting.length = state.waiting.length + 1 := by
  unfold target at asked
  split at asked
  · cases asked
    exact length_request _ _ _ _
  · cases asked

/-- A block asks for two more blocks at most. -/
theorem length_close_le {block : Nat} (closed : state.close (inner :: outer) inner block ending = .ok next) :
    next.waiting.length ≤ state.waiting.length + 2 := by
  cases ending with
  | leave =>
      cases closed
      exact Nat.le_add_right _ _
  | halt =>
      cases closed
      exact Nat.le_add_right _ _
  | label name position =>
      cases closed
      exact Nat.le_succ_of_le (Nat.le_of_eq (length_request state _ _ _))
  | call call line position =>
      obtain ⟨body, callee, _, _, rfl⟩ := enter_eq_ok closed
      have behind := length_following_le state "return." (inner :: outer) inner line position
      exact (Nat.le_of_eq (length_request _ _ _ _)).trans (Nat.succ_le_succ behind)
  | jump label line =>
      obtain ⟨⟨id, middle⟩, asked, led⟩ := Result.of_bind_eq_ok closed
      cases led
      have first := length_target asked
      exact Nat.le_succ_of_le (Nat.le_of_eq first)
  | conditionalJump label line position =>
      obtain ⟨⟨id, middle⟩, asked, led⟩ := Result.of_bind_eq_ok closed
      cases led
      have first := length_target asked
      have behind := length_following_le (middle.addBranch block id) "after." (inner :: outer) inner line position
      exact behind.trans (Nat.le_of_eq (congrArg Nat.succ first))

theorem length_fill_le (run : state.fill filling = .ok next) : next.waiting.length ≤ state.waiting.length + 2 := by
  unfold fill at run
  split at run
  · cases run
    exact Nat.le_add_right _ _
  · have asked := length_close_le run
    exact asked

/-! ## Steps that are left -/

/-- More steps than a state can still take. -/
def remaining (root : Level) (state : Inlining) : Nat :=
  2 * (root.blockNames.length + 2 - state.filled.length) + state.waiting.length

theorem Built.name_of_filled (wf : root.WellFormed) (built : Built root state) {id : Nat} (filled : id ∈ state.filled) :
    ∃ name ∈ "start" :: "halt" :: root.blockNames, state.graph.nameAt? id = some name := by
  have sound := built.sound wf
  rcases sound.filled id filled with rfl | ⟨filling, rfl, rfl | handed, _⟩
  · exact ⟨_, List.mem_cons_of_mem _ List.mem_cons_self, sound.halt⟩
  · exact ⟨_, List.mem_cons_self, sound.start⟩
  · obtain ⟨spot, calls, _, granted⟩ := handed.askedAs wf
    obtain ⟨inner, outer, head⟩ := granted.opened.exists_cons
    have member := (head ▸ granted.opened).blockName_mem (granted.stands head)
    exact ⟨_, List.mem_cons_of_mem _ (List.mem_cons_of_mem _ member), granted.named⟩

theorem Built.length_filled_le (wf : root.WellFormed) (built : Built root state) :
    state.filled.length ≤ root.blockNames.length + 2 := by
  have sound := built.sound wf
  have distinct : (state.filled.map state.graph.nameAt?).Nodup := by
    refine sound.once.map_on (fun a aFilled b _ same => ?_)
    obtain ⟨name, _, named⟩ := built.name_of_filled wf aFilled
    exact sound.distinct a b name named (same ▸ named)
  have subset : state.filled.map state.graph.nameAt? ⊆ ("start" :: "halt" :: root.blockNames).map some := by
    intro name member
    obtain ⟨id, filled, rfl⟩ := List.mem_map.mp member
    obtain ⟨name, known, named⟩ := built.name_of_filled wf filled
    exact List.mem_map.mpr ⟨name, known, named.symm⟩
  have short := (distinct.subperm subset).length_le
  simpa only [List.length_map, List.length_cons] using short

theorem Built.remaining_lt (wf : root.WellFormed) (built : Built root state) (leads : Leads state next)
    (waits : state.waiting ≠ []) : remaining root next < remaining root state := by
  have bounded := (built.step leads).length_filled_le wf
  rcases step_cases leads with ⟨none, _⟩ | ⟨filling, rest, head, ⟨_, rfl⟩ | ⟨empty, run⟩⟩
  · exact absurd none waits
  · simp only [remaining, head, List.length_cons]
    omega
  · obtain ⟨spot, calls, granted⟩ := (built.sound wf).waiting filling (head ▸ List.mem_cons_self)
    have fills : Fills root filling { state with waiting := rest } next :=
      fill_fills wf granted.opened granted.named run
    have asked : next.waiting.length ≤ rest.length + 2 := length_fill_le run
    simp only [remaining, fills.filled, head, List.length_cons] at bounded ⊢
    omega

/-- With as many steps as are left no block waits in the end. -/
theorem Built.done (wf : root.WellFormed) {bound : Nat} (built : Built root state) (enough : remaining root state ≤ bound)
    (run : Inlining.steps bound state = .ok last) : last.waiting = [] := by
  induction bound generalizing state with
  | zero =>
      cases run
      exact List.length_eq_zero_iff.mp (by unfold remaining at enough; omega)
  | succ bound ih =>
      unfold Inlining.steps at run
      split at run
      · next none =>
          cases run
          exact none
      · next filling rest head =>
          obtain ⟨second, leads, further⟩ := Result.of_bind_eq_ok run
          have less := built.remaining_lt wf leads (by simp [head])
          exact ih (built.step leads) (by omega) further

theorem blockNames_le_fillingBound (root : Level) : 2 * root.blockNames.length + 3 ≤ root.fillingBound := by
  have names := root.length_blockNames_le
  have grows : (root.weight + 1) ^ root.circuitCount ≤ (root.weight + 3) ^ root.circuitCount :=
    Nat.pow_le_pow_left (by omega) _
  have positive : 1 ≤ (root.weight + 3) ^ root.circuitCount := Nat.one_le_pow _ _ (by omega)
  calc 2 * root.blockNames.length + 3
      ≤ 2 * (2 * root.weight * (root.weight + 3) ^ root.circuitCount) + 3 * (root.weight + 3) ^ root.circuitCount := by
        have := names.trans (Nat.mul_le_mul_left (2 * root.weight) grows)
        omega
    _ = (4 * root.weight + 3) * (root.weight + 3) ^ root.circuitCount := by ring
    _ ≤ (4 * (root.weight + 3) ^ 3) * (root.weight + 3) ^ root.circuitCount := by
        refine Nat.mul_le_mul_right _ ?_
        have : root.weight + 3 ≤ (root.weight + 3) ^ 3 := Nat.le_self_pow (by decide) _
        omega
    _ = root.fillingBound := by
        rw [Level.fillingBound, Nat.pow_eq]
        ring

/-- The bound on the number of steps is large enough for every program. -/
theorem done_of_steps (wf : root.WellFormed) (run : Inlining.steps root.fillingBound (.initial root) = .ok last) :
    Built root last ∧ last.waiting = [] := by
  have enough := blockNames_le_fillingBound root
  obtain ⟨bound, same⟩ : ∃ bound, root.fillingBound = bound + 1 := ⟨root.fillingBound - 1, by omega⟩
  rw [same] at run
  refine ⟨built_of_steps run, ?_⟩
  obtain ⟨second, leads, further⟩ := Result.of_bind_eq_ok run
  have built : Built root second := ⟨second, leads, .refl⟩
  refine built.done wf ?_ further
  rcases step_cases leads with ⟨none, _⟩ | ⟨filling, rest, head, ⟨already, rfl⟩ | ⟨_, run⟩⟩
  · cases none
  · cases head
    cases List.mem_singleton.mp already
  · cases head
    have asked : second.waiting.length ≤ 2 := length_fill_le run
    simp only [remaining, (first_fills wf leads).filled, List.length_cons, List.length_nil]
    omega

theorem fill_of_no_lines {level : Level} (empty : level.lines = []) : ∃ last,
    Inlining.steps level.fillingBound (.initial level) = .ok last ∧
      last.graph = BlockGraph.initial.addBranch BlockGraph.start BlockGraph.halt := by
  have enough := blockNames_le_fillingBound level
  obtain ⟨bound, same⟩ : ∃ bound, level.fillingBound = bound + 2 := ⟨level.fillingBound - 2, by omega⟩
  have run : level.runFrom 0 = ([], .leave) := by
    rw [Level.runFrom, empty]
    rfl
  let last : Inlining :=
    ⟨BlockGraph.initial.addBranch BlockGraph.start BlockGraph.halt, [], [BlockGraph.start, BlockGraph.halt]⟩
  have filled : (Inlining.initial level).step = .ok last := by
    change (⟨.initial, [], [BlockGraph.halt]⟩ : Inlining).fill (first level) = _
    simp only [fill, first, run]
    rfl
  refine ⟨last, ?_, rfl⟩
  rw [same]
  change ((Inlining.initial level).step >>= steps (bound + 1)) = _
  rw [filled]
  rfl

end Inlining

namespace BlockGraph

variable {level : Level} {graph : BlockGraph}

theorem built_ofLevel (wf : level.WellFormed) (built : ofLevel level = .ok graph) : ∃ last,
    Inlining.steps level.fillingBound (.initial level) = .ok last ∧ last.graph = graph ∧
      Inlining.Built level last ∧ last.waiting = [] := by
  obtain ⟨last, run, same⟩ : ∃ last,
      Inlining.steps level.fillingBound (.initial level) = .ok last ∧ last.graph = graph := by
    rw [ofLevel] at built
    split at built
    · next empty =>
        cases built
        exact Inlining.fill_of_no_lines (List.isEmpty_iff.mp empty)
    · obtain ⟨last, run, same⟩ := Result.of_map_eq_ok built
      exact ⟨last, run, same⟩
  exact ⟨last, run, same, Inlining.done_of_steps wf run⟩

end BlockGraph

/-! ## Lines of blocks -/

theorem Level.followRun_sublist {level : Level} {isFirst : Bool} {position : Nat} (lines : List Nat) :
    (level.followRun isFirst position lines).1.Sublist lines := by
  induction lines generalizing isFirst position with
  | nil => exact .slnil
  | cons line rest ih =>
      have one : [line].Sublist (line :: rest) := List.singleton_sublist.mpr List.mem_cons_self
      unfold followRun
      split
      · exact one
      · exact List.nil_sublist _
      · split
        · exact one
        · split
          · exact one
          · exact one
          · exact ih.cons_cons line

/-- A block lists no line twice. -/
theorem BlockGraph.nodup_lines {level : Level} {graph : BlockGraph} (wf : level.WellFormed)
    (built : ofLevel level = .ok graph) (id : Nat) : (graph.block id).lines.Nodup := by
  obtain ⟨last, _, rfl, built, _⟩ := built_ofLevel wf built
  have sound := built.sound wf
  by_cases filled : id ∈ last.filled
  · rcases sound.filled id filled with rfl | ⟨filling, rfl, known, written⟩
    · rw [show (last.graph.block halt).lines = [] from congrArg Prod.fst sound.exit.2]
      exact List.nodup_nil
    · obtain ⟨calls, opened⟩ : ∃ calls, CallChain.Opened level filling.chain calls := by
        rcases known with rfl | handed
        · exact ⟨[], .program⟩
        · obtain ⟨spot, calls, _, granted⟩ := handed.askedAs wf
          exact ⟨calls, granted.opened⟩
      obtain ⟨inner, outer, head⟩ := opened.exists_cons
      rw [written.lines head]
      have distinct := ((head ▸ opened).wellFormed wf inner List.mem_cons_self).lines
      exact ((Level.followRun_sublist _).trans (List.drop_sublist _ _)).nodup distinct
  · rw [show (last.graph.block id).lines = [] from congrArg Prod.fst (sound.fresh id filled)]
    exact List.nodup_nil

end TwoLane
