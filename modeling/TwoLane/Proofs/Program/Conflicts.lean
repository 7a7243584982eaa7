import Mathlib.Logic.Relation
import TwoLane.Proofs.Block.Dominators
import TwoLane.Proofs.Memory.Indexed
import TwoLane.Proofs.Program.Results
import TwoLane.Tree.Draft

/-! # Dependencies order conflicts

Each name that a line touches gives one edge from the nearest line before it that touches the same name. Along such
edges a line is ordered behind an earlier one that it conflicts with, as long as all lines behind the earlier one that
touch what it touches name it too: the nearest of them then passes the conflict on. A region is touched by all that
names any of its elements, so what a whole region conflicts with is always passed on.
-/

namespace TwoLane

namespace DependencyGraph

variable {ranked : RankedGraph} {lines : Classification} {nodes : List DependencyNode} {k l m : DependencyNode}

/-! ## The way to a node -/

/-- Whether a node stands in front of another one: in its block, or in a block that dominates its block. -/
def InFront (ranked : RankedGraph) (k l : DependencyNode) : Prop :=
  (k.block = l.block ∧ k.number < l.number) ∨ k.block ∈ (ranked.graph.block l.block).dominators

instance (k l : DependencyNode) : Decidable (InFront ranked k l) :=
  inferInstanceAs (Decidable (_ ∨ _))

/-- Whether a list of blocks is sorted by rank, the last ranked one first. -/
def Falling (ranked : RankedGraph) (ids : List Nat) : Prop :=
  ids.Pairwise (fun a b => (ranked.rank? b).getD 0 ≤ (ranked.rank? a).getD 0)

theorem insertByRank_perm (ranked : RankedGraph) (id : Nat) (ids : List Nat) :
    (insertByRank ranked id ids).Perm (id :: ids) := by
  induction ids with
  | nil => exact .refl _
  | cons other rest ih =>
      rw [insertByRank]
      split
      · exact .refl _
      · exact (ih.cons other).trans (.swap id other rest)

theorem falling_insertByRank {id : Nat} {ids : List Nat} (falling : Falling ranked ids) :
    Falling ranked (insertByRank ranked id ids) := by
  induction ids with
  | nil => exact List.pairwise_singleton _ _
  | cons other rest ih =>
      obtain ⟨first, further⟩ := List.pairwise_cons.mp falling
      rw [insertByRank]
      split
      · next less =>
          refine List.pairwise_cons.mpr ⟨fun b member => ?_, falling⟩
          rcases List.mem_cons.mp member with rfl | behind
          · exact Nat.le_of_lt less
          · exact Nat.le_trans (first b behind) (Nat.le_of_lt less)
      · next notLess =>
          refine List.pairwise_cons.mpr ⟨fun b member => ?_, ih further⟩
          rcases List.mem_cons.mp ((insertByRank_perm ranked id rest).mem_iff.mp member) with rfl | behind
          · exact Nat.le_of_not_lt notLess
          · exact first b behind

theorem foldl_insertByRank (ranked : RankedGraph) (ids : List Nat) {sorted : List Nat} (falling : Falling ranked sorted) :
    (ids.foldl (fun acc d => insertByRank ranked d acc) sorted).Perm (ids ++ sorted) ∧
      Falling ranked (ids.foldl (fun acc d => insertByRank ranked d acc) sorted) := by
  induction ids generalizing sorted with
  | nil => exact ⟨.refl _, falling⟩
  | cons first rest ih =>
      obtain ⟨perm, falling'⟩ := ih (falling_insertByRank falling)
      exact ⟨(perm.trans ((insertByRank_perm ranked first sorted).append_left rest)).trans List.perm_middle, falling'⟩

section Ranked

variable (numbered : ranked.Numbered) (chained : ranked.Chained)

include numbered in
theorem rank?_eq_idxOf {id : Nat} (member : id ∈ ranked.order) : ranked.rank? id = some (ranked.order.idxOf id) := by
  rw [numbered.rank, if_pos member]

include numbered chained

theorem dominatorsOutwards_spec {b : Nat} (member : b ∈ ranked.order) :
    (dominatorsOutwards ranked b).Perm (ranked.graph.block b).dominators ∧ (dominatorsOutwards ranked b).Pairwise
      (fun nearer further => further ∈ (ranked.graph.block nearer).dominators) := by
  have all : dominatorsOutwards ranked b =
      (ranked.graph.block b).dominators.foldl (fun acc d => insertByRank ranked d acc) [] := by
    refine congrArg (List.foldl _ []) (List.filter_eq_self.mpr (fun d dominates => ?_))
    obtain ⟨ranks, _⟩ := chained.earlier b member d dominates
    rw [rank?_eq_idxOf numbered ranks, rank?_eq_idxOf numbered member]
    exact decide_eq_true (chained.region b member d dominates)
  rw [all]
  obtain ⟨perm, falling⟩ :=
    foldl_insertByRank ranked (ranked.graph.block b).dominators (show Falling ranked [] from .nil)
  rw [List.append_nil] at perm
  refine ⟨perm, (falling.and (perm.nodup_iff.mpr (chained.distinct b member))).imp_of_mem ?_⟩
  rintro nearer further nearerMember furtherMember ⟨notLater, differ⟩
  have dominates := perm.mem_iff.mp nearerMember
  have dominates' := perm.mem_iff.mp furtherMember
  obtain ⟨ranks, _⟩ := chained.earlier b member nearer dominates
  obtain ⟨ranks', _⟩ := chained.earlier b member further dominates'
  rw [rank?_eq_idxOf numbered ranks, rank?_eq_idxOf numbered ranks'] at notLater
  refine chained.chain b member nearer dominates further dominates' (Nat.lt_of_le_of_ne notLater ?_)
  exact fun same => differ ((List.idxOf_inj ranks').mp same).symm

end Ranked

/-! ## Nodes -/

def touchedLines (ranked : RankedGraph) (lines : Classification) : List (Nat × TouchedLine) :=
  ranked.order.flatMap (fun id => ((ranked.graph.block id).lines.filterMap
    (TouchedLine.ofLine? lines (ranked.graph.block id).bindings)).map (fun touched => (id, touched)))

theorem mem_touchedLines {entry : Nat × TouchedLine} : entry ∈ touchedLines ranked lines ↔
    entry.1 ∈ ranked.order ∧ ∃ line ∈ (ranked.graph.block entry.1).lines,
      TouchedLine.ofLine? lines (ranked.graph.block entry.1).bindings line = some entry.2 := by
  simp only [touchedLines, List.mem_flatMap, List.mem_map, List.mem_filterMap]
  constructor
  · rintro ⟨id, ranks, touched, ⟨line, there, read⟩, rfl⟩
    exact ⟨ranks, line, there, read⟩
  · rintro ⟨ranks, line, there, read⟩
    exact ⟨entry.1, ranks, entry.2, ⟨line, there, read⟩, rfl⟩

theorem mem_nodesOf {node : DependencyNode} : node ∈ nodesOf ranked lines ↔
    (touchedLines ranked lines)[node.number]? = some (node.block, node.line) := by
  change node ∈ (touchedLines ranked lines).zipIdx.map _ ↔ _
  rw [List.mem_map]
  constructor
  · rintro ⟨entry, there, rfl⟩
    exact List.mem_zipIdx_iff_getElem?.mp there
  · intro found
    exact ⟨((node.block, node.line), node.number), List.mem_zipIdx_iff_getElem?.mpr found, rfl⟩

theorem exists_node_iff {id : Nat} {touched : TouchedLine} :
    (∃ node ∈ nodesOf ranked lines, node.block = id ∧ node.line = touched) ↔
      id ∈ ranked.order ∧ ∃ line ∈ (ranked.graph.block id).lines,
        TouchedLine.ofLine? lines (ranked.graph.block id).bindings line = some touched := by
  refine Iff.trans ?_ (@mem_touchedLines ranked lines (id, touched))
  constructor
  · rintro ⟨node, member, rfl, rfl⟩
    exact List.mem_of_getElem? (mem_nodesOf.mp member)
  · intro member
    obtain ⟨number, found⟩ := List.mem_iff_getElem?.mp member
    exact ⟨⟨number, id, touched⟩, mem_nodesOf.mpr found, rfl, rfl⟩

theorem block_mem_order {node : DependencyNode} (member : node ∈ nodesOf ranked lines) : node.block ∈ ranked.order :=
  (exists_node_iff.mp ⟨node, member, rfl, rfl⟩).1

theorem nodes_pairwise (distinct : ranked.order.Nodup) (lines : Classification) : (nodesOf ranked lines).Pairwise
    (fun a b => a.number < b.number ∧ ranked.order.idxOf a.block ≤ ranked.order.idxOf b.block) := by
  have blocks : (touchedLines ranked lines).Pairwise
      (fun a b => ranked.order.idxOf a.1 ≤ ranked.order.idxOf b.1) := by
    refine List.pairwise_flatMap.mpr ⟨fun id _ => ?_, (Schedule.pairwise_idxOf distinct).imp ?_⟩
    · rw [List.pairwise_map]
      exact List.pairwise_of_forall (fun _ _ => Nat.le_refl _)
    · rintro a b less x xMember y yMember
      obtain ⟨_, _, rfl⟩ := List.mem_map.mp xMember
      obtain ⟨_, _, rfl⟩ := List.mem_map.mp yMember
      exact Nat.le_of_lt less
  change ((touchedLines ranked lines).zipIdx.map _).Pairwise _
  rw [List.pairwise_map, List.pairwise_iff_getElem]
  rintro i j iInside jInside less
  rw [List.length_zipIdx] at iInside jInside
  rw [List.getElem_zipIdx, List.getElem_zipIdx]
  exact ⟨by simpa using less, List.pairwise_iff_getElem.mp blocks i j iInside jInside less⟩

section Ranked

variable (numbered : ranked.Numbered) (chained : ranked.Chained)
include numbered chained

theorem number_lt (kNode : k ∈ nodesOf ranked lines) (lNode : l ∈ nodesOf ranked lines) (front : InFront ranked k l) :
    k.number < l.number := by
  rcases front with ⟨_, less⟩ | dominates
  · exact less
  · obtain ⟨_, earlier⟩ := chained.earlier l.block (block_mem_order lNode) k.block dominates
    obtain ⟨i, iInside, rfl⟩ := List.mem_iff_getElem.mp kNode
    obtain ⟨j, jInside, rfl⟩ := List.mem_iff_getElem.mp lNode
    have ordered := List.pairwise_iff_getElem.mp (nodes_pairwise numbered.distinct lines)
    rcases Nat.lt_trichotomy i j with less | rfl | more
    · exact (ordered i j iInside jInside less).1
    · omega
    · have := (ordered j i jInside iInside more).2
      omega

omit numbered in
theorem InFront.trans (lNode : l ∈ nodesOf ranked lines) (first : InFront ranked k m) (second : InFront ranked m l) :
    InFront ranked k l := by
  rcases second with ⟨same, less⟩ | dominates
  · rcases first with ⟨same', less'⟩ | dominates'
    · exact .inl ⟨same'.trans same, Nat.lt_trans less' less⟩
    · exact .inr (same ▸ dominates')
  · refine .inr ?_
    rcases first with ⟨same', _⟩ | dominates'
    · exact same' ▸ dominates
    · exact chained.onward l.block (block_mem_order lNode) m.block dominates dominates'

theorem mem_before (lNode : l ∈ nodesOf ranked lines) :
    k ∈ before ranked (nodesOf ranked lines) l ↔ k ∈ nodesOf ranked lines ∧ InFront ranked k l := by
  obtain ⟨perm, _⟩ := dominatorsOutwards_spec numbered chained (block_mem_order lNode)
  simp only [before, List.mem_append, List.mem_reverse, List.mem_filter, List.mem_flatMap, Bool.and_eq_true,
    beq_iff_eq, decide_eq_true_eq, InFront, perm.mem_iff]
  constructor
  · rintro (⟨member, own⟩ | ⟨d, dominates, member, rfl⟩)
    · exact ⟨member, .inl own⟩
    · exact ⟨member, .inr dominates⟩
  · rintro ⟨member, own | dominates⟩
    · exact .inl ⟨member, own⟩
    · exact .inr ⟨k.block, dominates, member, rfl⟩

/-- On the way to a node the nearer ones come first. -/
theorem before_pairwise (lNode : l ∈ nodesOf ranked lines) :
    (before ranked (nodesOf ranked lines) l).Pairwise (fun nearer further => InFront ranked further nearer) := by
  obtain ⟨perm, outwards⟩ := dominatorsOutwards_spec numbered chained (block_mem_order lNode)
  have sameBlock : ∀ (b : Nat) {holds : DependencyNode → Bool}, (∀ node, holds node = true → node.block = b) →
      ((nodesOf ranked lines).filter holds).reverse.Pairwise (fun nearer further => InFront ranked further nearer) := by
    intro b holds inBlock
    refine List.pairwise_reverse.mpr (((nodes_pairwise numbered.distinct lines).filter holds).imp_of_mem ?_)
    intro x y xMember yMember less
    exact .inl ⟨(inBlock x (List.mem_filter.mp xMember).2).trans (inBlock y (List.mem_filter.mp yMember).2).symm, less.1⟩
  refine List.pairwise_append.mpr ⟨sameBlock l.block ?_, List.pairwise_flatMap.mpr ⟨fun d _ => sameBlock d ?_,
    outwards.imp ?_⟩, ?_⟩
  · intro node own
    exact beq_iff_eq.mp (Bool.and_eq_true_iff.mp own).1
  · exact fun node own => beq_iff_eq.mp own
  · intro nearer further dominates x xMember y yMember
    simp only [List.mem_reverse, List.mem_filter, beq_iff_eq] at xMember yMember
    rw [← xMember.2, ← yMember.2] at dominates
    exact .inr dominates
  · intro x xMember y yMember
    obtain ⟨d, outer, yMember⟩ := List.mem_flatMap.mp yMember
    simp only [List.mem_reverse, List.mem_filter, Bool.and_eq_true, beq_iff_eq] at xMember yMember
    have dominates := perm.mem_iff.mp outer
    rw [← yMember.2, ← xMember.2.1] at dominates
    exact .inr dominates

end Ranked

/-! ## Paths -/

/-- Whether a path of edges leads from a node to another one. -/
def Orders (graph : DependencyGraph) (k l : DependencyNode) : Prop :=
  Relation.TransGen (fun source target => ∃ edge ∈ graph.edges, edge.source = source ∧ edge.target = target)
    k.number l.number

/-- A node is ordered behind an earlier one that touches all of a family of resources, if each node behind the earlier
    one that touches a member of the family names one. -/
theorem orders_of_family (family : Resource → Prop) (numbered : ranked.Numbered) (chained : ranked.Chained)
    (touches : ∀ resource, family resource → k.line.touches resource = true) (kNode : k ∈ nodesOf ranked lines)
    (lNode : l ∈ nodesOf ranked lines) (front : InFront ranked k l)
    (named : ∃ resource ∈ l.line.resources, family resource)
    (passed : ∀ m ∈ nodesOf ranked lines, InFront ranked k m → InFront ranked m l → ∀ resource, family resource →
      m.line.touches resource = true → ∃ other ∈ m.line.resources, family other) :
    (ofRanked ranked lines).Orders k l := by
  -- the induction is on the number of the later node: the nearest node that touches the name takes its place
  induction below : l.number using Nat.strong_induction_on generalizing l with
  | _ number ih =>
      subst below
      obtain ⟨resource, names, inFamily⟩ := named
      have there := (mem_before numbered chained lNode).mpr ⟨kNode, front⟩
      obtain ⟨m, found⟩ : ∃ m, (before ranked (nodesOf ranked lines) l).find?
          (fun other => other.line.touches resource) = some m :=
        Option.isSome_iff_exists.mp (List.find?_isSome.mpr ⟨k, there, touches resource inFamily⟩)
      obtain ⟨mTouches, nearer, further, split, apart⟩ := List.find?_eq_some_iff_append.mp found
      have edge : ∃ edge ∈ (ofRanked ranked lines).edges, edge.source = m.number ∧ edge.target = l.number :=
        ⟨⟨m.number, l.number, resource.name⟩, List.mem_flatMap.mpr ⟨l, lNode,
          List.mem_filterMap.mpr ⟨resource, names, by rw [found]; rfl⟩⟩, rfl, rfl⟩
      obtain ⟨mNode, mFront⟩ := (mem_before numbered chained lNode).mp (List.mem_of_find?_eq_some found)
      rw [split] at there
      rcases List.mem_append.mp there with near | behind
      · have untouched := apart k near
        simp [touches resource inFamily] at untouched
      · rcases List.mem_cons.mp behind with rfl | far
        · exact .single edge
        · have ways := split ▸ before_pairwise numbered chained lNode
          have kFront := (List.pairwise_cons.mp (List.pairwise_append.mp ways).2.1).1 k far
          refine .tail (ih m.number (number_lt numbered chained mNode lNode mFront) mNode kFront ?_ ?_ rfl) edge
          · exact passed m mNode kFront mFront resource inFamily mTouches
          · intro n nNode nBehind nFront
            exact passed n nNode nBehind (nFront.trans chained lNode mFront)

/-- Whether two nodes conflict at a resource: the earlier one names the memory or touches the qubit, and the later one
    touches it. -/
def ConflictAt (k l : DependencyNode) : Resource → Prop
  | .memory name => name ∈ k.line.classical ∧ l.line.touchesMemory name = true
  | .qubit name => k.line.touchesQubit name = true ∧ l.line.touchesQubit name = true

instance (k l : DependencyNode) : (resource : Resource) → Decidable (ConflictAt k l resource)
  | .memory _ => inferInstanceAs (Decidable (_ ∧ _))
  | .qubit _ => inferInstanceAs (Decidable (_ ∧ _))

theorem exists_conflictAt_iff : (∃ resource, ConflictAt k l resource) ↔
    (∃ qubit, k.line.touchesQubit qubit = true ∧ l.line.touchesQubit qubit = true) ∨
      ∃ a ∈ k.line.classical, ∃ b ∈ l.line.classical, Memory.mayOverlap a b = true := by
  constructor
  · rintro ⟨resource, conflict⟩
    cases resource with
    | memory name =>
        obtain ⟨other, there, overlaps⟩ := List.any_eq_true.mp conflict.2
        exact .inr ⟨name, conflict.1, other, there, (Memory.mayOverlap_comm name other).trans overlaps⟩
    | qubit name => exact .inl ⟨name, conflict⟩
  · rintro (⟨qubit, conflict⟩ | ⟨a, aNames, b, bNames, overlaps⟩)
    · exact ⟨.qubit qubit, conflict⟩
    · exact ⟨.memory a, aNames, List.any_eq_true.mpr ⟨b, bNames, (Memory.mayOverlap_comm b a).trans overlaps⟩⟩

/-- Whether a resource is a memory region, with all its elements. -/
def IsWhole : Resource → Prop
  | .memory name => Memory.isElement name = false
  | .qubit _ => False

/-- Whether a node, and all between it and an earlier one, name a resource if they touch it. -/
def Named (ranked : RankedGraph) (nodes : List DependencyNode) (k l : DependencyNode) (resource : Resource) : Prop :=
  ∀ m ∈ nodes, InFront ranked k m → m = l ∨ InFront ranked m l → m.line.touches resource = true →
    resource ∈ m.line.resources

instance (k l : DependencyNode) (resource : Resource) : Decidable (Named ranked nodes k l resource) :=
  inferInstanceAs (Decidable (∀ m ∈ nodes, _))

/-- Whether all between two nodes that touch the region of a reference name the reference or the whole region. -/
def NamedInRegion (ranked : RankedGraph) (nodes : List DependencyNode) (k l : DependencyNode) : Resource → Prop
  | .memory name => ∀ m ∈ nodes, InFront ranked k m → InFront ranked m l →
      m.line.touchesMemory (Memory.region name) = true →
        name ∈ m.line.classical ∨ Memory.region name ∈ m.line.classical
  | .qubit _ => False

instance (k l : DependencyNode) : (resource : Resource) → Decidable (NamedInRegion ranked nodes k l resource)
  | .memory _ => inferInstanceAs (Decidable (∀ m ∈ nodes, _))
  | .qubit _ => inferInstanceAs (Decidable False)

theorem mem_resources_memory {line : TouchedLine} {name : String} :
    .memory name ∈ line.resources ↔ name ∈ line.classical := by
  simp [TouchedLine.resources]

theorem ConflictAt.touches {resource : Resource} (conflict : ConflictAt k l resource) :
    k.line.touches resource = true ∧ l.line.touches resource = true := by
  cases resource with
  | memory name => exact ⟨List.any_eq_true.mpr ⟨name, conflict.1, Memory.mayOverlap_self name⟩, conflict.2⟩
  | qubit name => exact conflict

section Conflicts

variable (numbered : ranked.Numbered) (chained : ranked.Chained) (kNode : k ∈ nodesOf ranked lines)
  (lNode : l ∈ nodesOf ranked lines) (front : InFront ranked k l)
include numbered chained kNode lNode front

/-- All that overlaps a whole region is passed on, since what touches an element of it names one. -/
theorem orders_of_whole {name : String} (whole : Memory.isElement name = false) (conflict : ConflictAt k l (.memory name)) :
    (ofRanked ranked lines).Orders k l := by
  have overlapping : ∀ {line : TouchedLine} {other : String}, Memory.mayOverlap name other = true →
      line.touchesMemory other = true →
        ∃ named ∈ line.resources, ∃ a, named = .memory a ∧ Memory.mayOverlap name a = true := by
    intro line other overlaps touched
    obtain ⟨a, there, overlaps'⟩ := List.any_eq_true.mp touched
    exact ⟨.memory a, mem_resources_memory.mpr there, a, rfl,
      Indexed.mayOverlap_trans whole overlaps ((Memory.mayOverlap_comm other a).trans overlaps')⟩
  refine orders_of_family (fun resource => ∃ a, resource = .memory a ∧ Memory.mayOverlap name a = true) numbered chained
    ?_ kNode lNode front (overlapping (Memory.mayOverlap_self name) conflict.2) ?_
  · rintro _ ⟨a, rfl, overlaps⟩
    exact List.any_eq_true.mpr ⟨name, conflict.1, overlaps⟩
  · rintro m _ _ _ _ ⟨a, rfl, overlaps⟩ touched
    exact overlapping overlaps touched

theorem orders_of_named {resource : Resource} (conflict : ConflictAt k l resource)
    (named : Named ranked (nodesOf ranked lines) k l resource) : (ofRanked ranked lines).Orders k l := by
  obtain ⟨touches, touches'⟩ := conflict.touches
  refine orders_of_family (· = resource) numbered chained ?_ kNode lNode front
    ⟨resource, named l lNode front (.inl rfl) touches', rfl⟩ ?_
  · rintro _ rfl
    exact touches
  · rintro m mNode kFront mFront _ rfl touched
    exact ⟨_, named m mNode kFront (.inr mFront) touched, rfl⟩

/-- What touches an element names it or its whole region, so the two of them pass a conflict on. -/
theorem orders_of_region {name : String} (element : Memory.isElement name = true)
    (conflict : ConflictAt k l (.memory name))
    (named : NamedInRegion ranked (nodesOf ranked lines) k l (.memory name)) : (ofRanked ranked lines).Orders k l := by
  refine orders_of_family (fun resource => resource = .memory name ∨ resource = .memory (Memory.region name)) numbered
    chained ?_ kNode lNode front ?_ ?_
  · rintro _ (rfl | rfl)
    · exact conflict.touches.1
    · exact List.any_eq_true.mpr ⟨name, conflict.1, Indexed.mayOverlap_region (Memory.mayOverlap_self name)⟩
  · obtain ⟨a, there, overlaps⟩ := List.any_eq_true.mp conflict.2
    refine ⟨.memory a, mem_resources_memory.mpr there, ?_⟩
    simp only [Memory.mayOverlap, element, Bool.or_eq_true, Bool.and_eq_true, beq_iff_eq, Bool.not_true,
      Bool.false_eq_true, or_false, Bool.not_eq_true'] at overlaps
    rcases overlaps with rfl | ⟨same, whole⟩
    · exact .inl rfl
    · rw [Indexed.region_of_whole whole] at same
      exact .inr (congrArg Resource.memory same)
  · intro m mNode kFront mFront resource member touched
    have inRegion : m.line.touchesMemory (Memory.region name) = true := by
      rcases member with rfl | rfl
      · obtain ⟨a, there, overlaps⟩ := List.any_eq_true.mp touched
        exact List.any_eq_true.mpr ⟨a, there, Indexed.mayOverlap_region overlaps⟩
      · exact touched
    rcases named m mNode kFront mFront inRegion with own | own
    · exact ⟨_, mem_resources_memory.mpr own, .inl rfl⟩
    · exact ⟨_, mem_resources_memory.mpr own, .inr rfl⟩

/-- A conflict is ordered by a path if it is at a whole region, if no node behind the earlier one touches the resource
    without naming it, or if all between the two nodes that touch its region name the reference or the whole region. -/
theorem orders_of_conflictAt {resource : Resource} (conflict : ConflictAt k l resource)
    (passed : IsWhole resource ∨ Named ranked (nodesOf ranked lines) k l resource ∨
      NamedInRegion ranked (nodesOf ranked lines) k l resource) : (ofRanked ranked lines).Orders k l := by
  rcases passed with whole | named | region
  · cases resource with
    | qubit name => cases whole
    | memory name => exact orders_of_whole numbered chained kNode lNode front whole conflict
  · exact orders_of_named numbered chained kNode lNode front conflict named
  · cases resource with
    | qubit name => cases region
    | memory name =>
        cases element : Memory.isElement name with
        | false => exact orders_of_whole numbered chained kNode lNode front element conflict
        | true => exact orders_of_region numbered chained kNode lNode front element conflict region

end Conflicts

end DependencyGraph

namespace HybridProgram

open DependencyGraph

variable {root : Tree} {text : String} {readout : List String} {program : HybridProgram}

/-- The dependencies of a program lead from a line to each later line that conflicts with it, in its block or in one that
    its block dominates, if the conflict is at a whole region, if no line behind the earlier one up to the later one
    touches the resource without naming it, or if all lines between them that touch its region name the reference or
    the whole region. -/
theorem dependencies_order_conflicts (built : ofTree root text readout = .ok program) {k l : DependencyNode}
    (kNode : k ∈ program.dependencies.nodes) (lNode : l ∈ program.dependencies.nodes)
    (front : InFront program.ranked k l) {resource : Resource} (conflict : ConflictAt k l resource)
    (passed : IsWhole resource ∨ Named program.ranked program.dependencies.nodes k l resource ∨
      NamedInRegion program.ranked program.dependencies.nodes k l resource) : program.dependencies.Orders k l := by
  obtain ⟨graph, level, rest⟩ := Result.of_bind_eq_ok built
  obtain ⟨ranked, ranks, rest⟩ := Result.of_bind_eq_ok rest
  cases rest
  obtain ⟨fresh, exits⟩ := BlockGraph.fresh_ofLevel level
  have inhabited : BlockGraph.start < graph.size := Nat.lt_trans (Nat.lt_succ_self 0) exits
  obtain ⟨other, ranks', _, numbered⟩ := BlockGraph.rank_unfolds fresh inhabited (Classification.ofTree root)
  cases ranks.symm.trans ranks'
  exact orders_of_conflictAt numbered (BlockGraph.rank_chained fresh inhabited ranks) kNode lNode front conflict passed

/-- Add to an element again and again, and multiply it. -/
def addingStatements : List Statement :=
  [.classical "MOVE" ["r[0]", "1"], .label "next", .classical "ADD" ["r[0]", "2"], .classical "MUL" ["r[0]", "3"],
    .jumpWhen "next" "c"]

/-- The product is ordered behind the assignment in the dominating block, by way of the sum. -/
theorem adding_orders_conflict : ∃ program k l, ofTree (Draft.ofStatements addingStatements).tree
      (Draft.ofStatements addingStatements).source ["r[0]"] = .ok program ∧
    program.dependencies.node? 0 0 = some k ∧ program.dependencies.node? 2 3 = some l ∧
    InFront program.ranked k l ∧ ConflictAt k l (.memory "r[0]") ∧
    Named program.ranked program.dependencies.nodes k l (.memory "r[0]") ∧ program.dependencies.Orders k l := by
  have computed : ((ofTree (Draft.ofStatements addingStatements).tree (Draft.ofStatements addingStatements).source
      ["r[0]"]).toOption.bind fun program => (program.dependencies.node? 0 0).bind fun k =>
        (program.dependencies.node? 2 3).map fun l => decide (InFront program.ranked k l ∧
          ConflictAt k l (.memory "r[0]") ∧ Named program.ranked program.dependencies.nodes k l (.memory "r[0]"))) =
      some true := by
    decide +kernel
  obtain ⟨program, built, rest⟩ := Option.bind_eq_some_iff.mp computed
  obtain ⟨k, first, rest⟩ := Option.bind_eq_some_iff.mp rest
  obtain ⟨l, second, holds⟩ := Option.map_eq_some_iff.mp rest
  obtain ⟨front, conflict, named⟩ := of_decide_eq_true holds
  have built := Result.of_toOption_eq_some built
  exact ⟨program, k, l, built, first, second, front, conflict, named, dependencies_order_conflicts built
    (List.mem_of_find?_eq_some first) (List.mem_of_find?_eq_some second) front conflict (.inr (.inl named))⟩

/-- A reset of all qubits names none, so nothing orders it behind a gate. -/
theorem conflicts_may_stay_unordered : ¬ ∀ (root : Tree) (text : String) (readout : List String)
    (program : HybridProgram), ofTree root text readout = .ok program → ∀ k ∈ program.dependencies.nodes,
      ∀ l ∈ program.dependencies.nodes, InFront program.ranked k l →
        ((∃ qubit, k.line.touchesQubit qubit = true ∧ l.line.touchesQubit qubit = true) ∨
          ∃ a ∈ k.line.classical, ∃ b ∈ l.line.classical, Memory.mayOverlap a b = true) →
        program.dependencies.Orders k l := by
  intro always
  have computed : ((ofTree (Draft.ofStatements [.gate "X" [] ["0"], .reset none, .gate "H" [] ["0"]]).tree
      (Draft.ofStatements [.gate "X" [] ["0"], .reset none, .gate "H" [] ["0"]]).source []).toOption.bind
        fun program => (program.dependencies.node? 0 0).bind fun k => (program.dependencies.node? 0 1).map fun l =>
          (k.number, program.dependencies.edges, decide (InFront program.ranked k l ∧
            k.line.touchesQubit "0" = true ∧ l.line.touchesQubit "0" = true))) = some (0, [⟨1, 2, "0"⟩], true) := by
    decide +kernel
  obtain ⟨program, built, rest⟩ := Option.bind_eq_some_iff.mp computed
  obtain ⟨k, first, rest⟩ := Option.bind_eq_some_iff.mp rest
  obtain ⟨l, second, same⟩ := Option.map_eq_some_iff.mp rest
  simp only [Prod.mk.injEq, decide_eq_true_eq] at same
  obtain ⟨number, edges, front, touch⟩ := same
  have path := always _ _ _ program (Result.of_toOption_eq_some built) k (List.mem_of_find?_eq_some first) l
    (List.mem_of_find?_eq_some second) front (.inl ⟨"0", touch⟩)
  obtain ⟨_, ⟨edge, member, source, _⟩, _⟩ := Relation.TransGen.head'_iff.mp path
  rw [edges] at member
  rw [List.mem_singleton.mp member, number] at source
  cases source

end HybridProgram

end TwoLane
