import TwoLane.Proofs.Block.Ranking
import TwoLane.Proofs.Block.Shape
import TwoLane.Proofs.Line.Conditions

/-! # Simple paths

Where the lines of all conditional jumps are classified as conditions, breaking the loops takes away all branches but
one from each block. Then two ways from one root are parts of one another. So one way to a block passes no block
twice, and the dominators of the block are what stands before it on that way.
-/

namespace TwoLane

/-! ## Blocks that keep one branch -/

theorem Level.last_conditional {level : Level} {isFirst : Bool} {position there line : Nat} {lines : List Nat}
    {label : String} (ends : (level.followRun isFirst position lines).2 = .conditionalJump label line there) :
    (level.followRun isFirst position lines).1.getLast? = some line := by
  induction lines generalizing isFirst position with
  | nil => cases ends
  | cons first rest ih =>
      rw [followRun] at ends ⊢
      split at ends
      · cases ends
      · cases ends
      · split at ends
        · cases ends
        · next goesOn =>
            rw [if_neg goesOn]
            split at ends
            · cases ends
            · cases ends
              rfl
            · rw [List.getLast?_cons, ih ends]
              rfl

namespace BlockGraph

variable {graph : BlockGraph} {lines : Classification} {root id last : Nat} {way other front behind : List Nat}

theorem length_branches_le_one {level : Level} (wf : level.WellFormed) (classified : level.ConditionsClassified lines)
    (made : ofLevel level = .ok graph) (id : Nat) :
    (graph.branches id).length ≤ 1 ∨ endsInCondition lines (graph.block id) = true := by
  obtain ⟨last, _, rfl, built, done⟩ := built_ofLevel wf made
  by_cases inside : id < last.graph.size
  · have filled : id ∈ last.filled := by
      rcases built.covered wf id inside with filled | ⟨filling, waits, _⟩
      · exact filled
      · rw [done] at waits
        cases waits
    rcases built.exists_filledFrom wf id filled with rfl | ⟨filling, filledFrom, rfl⟩
    · have exit : last.graph.branches halt = [] := congrArg (fun content => content.2.2) (built.sound wf).exit.2
      simp [exit]
    · obtain ⟨⟨calls, opened⟩, written⟩ := filledFrom.written wf
      obtain ⟨inner, outer, head⟩ := opened.exists_cons
      obtain ⟨few, two⟩ := (written.leads head).length_eq
      refine few.imp (fun one => one.le) (fun isTwo => ?_)
      obtain ⟨label, line, position, ends⟩ := two.mp isTwo
      have atEnd := Level.endsAt_runFrom inner.level filling.position
      rw [ends] at atEnd
      have isCondition := classified inner.level ((head ▸ opened).within inner List.mem_cons_self) line label atEnd.2
      rw [endsInCondition, Block.lastLine?, written.lines head, Level.runFrom, Level.last_conditional ends,
        Option.bind_some, isCondition]
      rfl
  · rw [branches, block_of_le (Nat.le_of_not_lt inside)]
    exact .inl (Nat.zero_le _)

theorem length_branches_withoutConditionals
    (few : ∀ id, (graph.branches id).length ≤ 1 ∨ endsInCondition lines (graph.block id) = true) (id : Nat) :
    ((graph.withoutConditionals lines).branches id).length ≤ 1 := by
  rw [branches, block_withoutConditionals]
  dsimp only
  split
  · exact Nat.zero_le _
  · next goesOn => exact (few id).resolve_right goesOn

theorem length_branches_breakLoops (fresh : graph.Fresh)
    (few : ∀ id, (graph.branches id).length ≤ 1 ∨ endsInCondition lines (graph.block id) = true) (id : Nat) :
    ((graph.breakLoops lines).1.branches id).length ≤ 1 := by
  obtain ⟨copied, _⟩ := copied_targets fresh lines
  rw [breakLoops]
  generalize (graph.withoutConditionals lines).copyAll _ = later at copied
  by_cases here : id < later.1.size
  · have length := congrArg List.length (copied.branches id here)
    rw [List.length_map] at length
    rw [branches_linkLoops _ _ here, length]
    exact length_branches_withoutConditionals few _
  · rw [branches, block_of_le (by rw [size_linkLoops]; exact Nat.le_of_not_lt here)]
    exact Nat.zero_le _

theorem length_branches_rank {level : Level} (wf : level.WellFormed) (classified : level.ConditionsClassified lines)
    (made : ofLevel level = .ok graph) {ranked : RankedGraph} (ranks : graph.rank lines = .ok ranked) (id : Nat) :
    (ranked.graph.branches id).length ≤ 1 := by
  have fresh := (fresh_ofLevel made).1
  have inhabited := inhabited_ofLevel made
  rw [rank_eq_ok fresh inhabited lines] at ranks
  obtain rfl := Except.ok.inj ranks
  rw [(marked_ranking _ _ _).branches]
  exact length_branches_breakLoops fresh (length_branches_le_one wf classified made) id

/-! ## Parts of ways -/

theorem Way.getLast? (leads : graph.Way root way id) : way.getLast? = some id := by
  cases leads <;> simp

theorem Way.head? (leads : graph.Way root way id) : way.head? = some root := by
  induction leads with
  | start => rfl
  | onward leads _ ih => rw [List.head?_append, ih, Option.some_or]

theorem Way.upTo (leads : graph.Way root way last) (split : way = front ++ id :: behind) :
    graph.Way root (front ++ [id]) id := by
  induction leads generalizing front behind with
  | start =>
      obtain ⟨rfl, same⟩ | ⟨_, empty⟩ := List.singleton_eq_append_iff.mp split
      · cases same
        exact .start
      · cases empty
  | @onward way other target leads branches ih =>
      rcases behind.eq_nil_or_concat with rfl | ⟨rest, final, rfl⟩
      · obtain ⟨rfl, same⟩ := List.append_inj' split rfl
        cases same
        exact .onward leads branches
      · rw [List.concat_eq_append, ← List.cons_append, ← List.append_assoc] at split
        exact ih (List.append_inj' split rfl).1

theorem Way.branch (leads : graph.Way root way last) {next : Nat} (split : way = front ++ next :: behind)
    (here : graph.Way root front id) : next ∈ graph.branches id := by
  have further := leads.upTo split
  generalize same : front ++ [next] = whole at further
  cases further with
  | start =>
      have empty : front = [] := by simpa using congrArg List.length same
      cases empty ▸ here.last_mem
  | onward before branches =>
      obtain ⟨rfl, only⟩ := List.append_inj' same rfl
      cases only
      cases Option.some.inj (before.getLast?.symm.trans here.getLast?)
      exact branches

/-- A way from a root to a block that passes no block twice. -/
structure SimpleWay (graph : BlockGraph) (root : Nat) (way : List Nat) (id : Nat) : Prop where
  leads : graph.Way root way id
  once : way.Nodup

theorem Way.exists_simpleWay (leads : graph.Way root way id) : ∃ way, graph.SimpleWay root way id := by
  induction leads with
  | start => exact ⟨[root], .start, List.nodup_singleton root⟩
  | @onward _ id target _ branches ih =>
      obtain ⟨way, leads, once⟩ := ih
      by_cases early : target ∈ way
      · obtain ⟨front, behind, rfl⟩ := List.append_of_mem early
        exact ⟨front ++ [target], leads.upTo rfl, once.sublist (by simp)⟩
      · exact ⟨way ++ [target], .onward leads branches, List.concat_eq_append ▸ once.concat early⟩

theorem SimpleWay.eq_of_prefix (simple : graph.SimpleWay root way id) (leads : graph.Way root other id)
    (part : other <+: way) : other = way := by
  obtain ⟨rest, rfl⟩ := part
  rcases rest.eq_nil_or_concat with rfl | ⟨rest, final, rfl⟩
  · rw [List.append_nil]
  · have ends := simple.leads.getLast?
    rw [List.concat_eq_append, ← List.append_assoc, List.getLast?_concat] at ends
    cases Option.some.inj ends
    have apart := List.disjoint_of_nodup_append simple.once leads.last_mem
    exact absurd (by simp) apart

theorem eq_of_length_le_one {list : List Nat} (few : list.length ≤ 1) {a b : Nat} (aMember : a ∈ list)
    (bMember : b ∈ list) : a = b := by
  rcases list with _ | ⟨only, _ | ⟨more, rest⟩⟩
  · cases aMember
  · rw [List.mem_singleton.mp aMember, List.mem_singleton.mp bMember]
  · simp at few

section OneBranch

variable (few : ∀ id, (graph.branches id).length ≤ 1)
include few

/-- Where each block has one branch at most, of two ways from a root one goes on where the other one ends. -/
theorem Way.prefix_or_prefix {target : Nat} (first : graph.Way root way id) (second : graph.Way root other target) :
    way <+: other ∨ other <+: way := by
  induction first with
  | start =>
      obtain ⟨rest, rfl⟩ := List.head?_eq_some_iff.mp second.head?
      exact .inl ⟨rest, rfl⟩
  | @onward way id target leads branches ih =>
      rcases ih with ⟨rest, split⟩ | shorter
      · cases rest with
        | nil => exact .inr (by simp [← split])
        | cons next rest =>
            have follows := second.branch split.symm leads
            cases eq_of_length_le_one (few id) follows branches
            exact .inl ⟨rest, by simp [← split]⟩
      · exact .inr (shorter.trans (List.prefix_append _ _))

theorem SimpleWay.isPrefix (simple : graph.SimpleWay root way id) (leads : graph.Way root other id) : way <+: other := by
  rcases simple.leads.prefix_or_prefix few leads with part | part
  · exact part
  · obtain rfl := simple.eq_of_prefix leads part
    exact List.prefix_rfl

theorem SimpleWay.unique (simple : graph.SimpleWay root way id) (simple' : graph.SimpleWay root other id) : way = other :=
  simple'.eq_of_prefix simple.leads (simple.isPrefix few simple'.leads)

theorem SimpleWay.dominates_iff (simple : graph.SimpleWay root (front ++ [id]) id) {d : Nat} :
    graph.Dominates root d id ↔ d ∈ front := by
  constructor
  · rintro ⟨differ, all⟩
    simpa [differ] using all _ simple.leads
  · intro member
    refine ⟨?_, fun other leads => (simple.isPrefix few leads).subset (List.mem_append_left _ member)⟩
    rintro rfl
    exact List.disjoint_of_nodup_append simple.once member List.mem_cons_self

theorem SimpleWay.pairwise_dominates (simple : graph.SimpleWay root way id) : way.Pairwise (graph.Dominates root) := by
  obtain ⟨leads, once⟩ := simple
  induction leads with
  | start => exact List.pairwise_singleton _ _
  | @onward way id target leads branches ih =>
      have earlier := ih (once.sublist (by simp))
      refine List.pairwise_append.mpr ⟨earlier, List.pairwise_singleton _ _, fun d member e last => ?_⟩
      cases List.mem_singleton.mp last
      exact (SimpleWay.dominates_iff few ⟨.onward leads branches, once⟩).mpr member

end OneBranch

end BlockGraph

/-! ## Paths of ranked blocks -/

namespace RankedGraph

open BlockGraph

/-- Whether a list of blocks is a way from the start of a region to a block that passes no block twice. -/
def SimplePath (ranked : RankedGraph) (path : List Nat) (id : Nat) : Prop :=
  ∃ root ∈ ranked.startBlocks, ranked.graph.SimpleWay root path id

/-- What holds of the regions of a ranked graph in which no block branches twice. -/
structure Straight (ranked : RankedGraph) : Prop where
  few : ∀ id, (ranked.graph.branches id).length ≤ 1
  reachable : ∀ {id}, id ∈ ranked.order ↔ ∃ root ∈ ranked.startBlocks, ranked.graph.LeadsTo root id
  apart : ∀ {root other id}, root ∈ ranked.startBlocks → other ∈ ranked.startBlocks →
    ranked.graph.LeadsTo root id → ranked.graph.LeadsTo other id → root = other
  dominators : ∀ {root id d}, root ∈ ranked.startBlocks → ranked.graph.LeadsTo root id →
    (d ∈ (ranked.graph.block id).dominators ↔ ranked.graph.Dominates root d id)

variable {ranked : RankedGraph} {id : Nat} {path other front : List Nat}

theorem Straight.existsUnique_path (straight : ranked.Straight) (member : id ∈ ranked.order) :
    ∃! path, ranked.SimplePath path id := by
  obtain ⟨root, there, way, leads⟩ := straight.reachable.mp member
  obtain ⟨path, simple⟩ := leads.exists_simpleWay
  refine ⟨path, ⟨root, there, simple⟩, ?_⟩
  rintro other ⟨root', there', simple'⟩
  cases straight.apart there there' ⟨path, simple.leads⟩ ⟨other, simple'.leads⟩
  exact simple'.unique straight.few simple

theorem SimplePath.exists_front (simple : ranked.SimplePath path id) : ∃ front, path = front ++ [id] := by
  obtain ⟨_, _, leads, _⟩ := simple
  exact List.getLast?_eq_some_iff.mp leads.getLast?

theorem SimplePath.nodup (simple : ranked.SimplePath path id) : path.Nodup := by
  obtain ⟨_, _, _, once⟩ := simple
  exact once

theorem Straight.mem_dominators (straight : ranked.Straight) (simple : ranked.SimplePath (front ++ [id]) id) {d : Nat} :
    d ∈ (ranked.graph.block id).dominators ↔ d ∈ front := by
  obtain ⟨root, there, simple⟩ := simple
  rw [straight.dominators there ⟨_, simple.leads⟩, simple.dominates_iff straight.few]

theorem Straight.pairwise_dominators (straight : ranked.Straight) (simple : ranked.SimplePath path id) :
    path.Pairwise (fun d e => d ∈ (ranked.graph.block e).dominators) := by
  obtain ⟨root, there, simple⟩ := simple
  refine (simple.pairwise_dominates straight.few).imp_of_mem (fun _ member dominates => ?_)
  obtain ⟨front, leads, _⟩ := simple.leads.arrival member
  exact (straight.dominators there ⟨_, leads⟩).mpr dominates

end RankedGraph

namespace BlockGraph

variable {graph : BlockGraph} {lines : Classification} {ranked : RankedGraph}

theorem rank_straight {level : Level} (wf : level.WellFormed) (classified : level.ConditionsClassified lines)
    (made : ofLevel level = .ok graph) (ranks : graph.rank lines = .ok ranked) : ranked.Straight := by
  have few := length_branches_rank wf classified made ranks
  have fresh := (fresh_ofLevel made).1
  have inhabited := inhabited_ofLevel made
  obtain ⟨_, regions, _⟩ := breakLoops_spec fresh inhabited lines
  rw [rank_eq_ok fresh inhabited lines] at ranks
  obtain rfl := Except.ok.inj ranks
  exact {
    few := few
    reachable := by
      intro id
      refine List.mem_flatMap.trans (exists_congr (fun root => and_congr_right (fun there => ?_)))
      exact regions.mem_region_iff _ there
    apart := by
      intro root other id there there' leads leads'
      exact regions.region_unique there there' ((regions.mem_region_iff _ there).mpr leads)
        ((regions.mem_region_iff _ there').mpr leads')
    dominators := by
      intro root id d there leads
      have here := (regions.mem_region_iff _ there).mpr leads
      rw [regions.dominators_ranking _ there here, regions.mem_dominators there here]
      exact (marked_ranking _ _ _).dominates_iff.symm }

end BlockGraph

end TwoLane
