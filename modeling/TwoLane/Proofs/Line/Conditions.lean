import TwoLane.Line.Classification
import TwoLane.Proofs.Block.Levels
import TwoLane.Proofs.Block.PlainNames

/-! # Classified conditions

Lines are classified in one walk through the tree, and levels collect their jumps in another one. Where each
instruction has its line to itself and instructions stand only in the bodies of others, the two walks come to the
same instructions. So every line that is a conditional jump of some level is classified as one.
-/

namespace TwoLane

namespace Tree

def isInstruction (node : Tree) : Bool :=
  (Category.ofTree? node).isSome

def holdsInstruction (tree : Tree) : Bool :=
  tree.walk.any isInstruction

/-- Whether each instruction in the tree has its line to itself. -/
def OwnLines (root : Tree) : Prop :=
  ((root.walk.filter isInstruction).map Tree.line).Nodup

instance (root : Tree) : Decidable root.OwnLines :=
  inferInstanceAs (Decidable (List.Nodup _))

/-- Whether instructions below a node stand in the body of the circuit that it defines, if it is an instruction. -/
def NestsInBody (node : Tree) : Prop :=
  node.isInstruction = true → ∀ child ∈ node.children, child.holdsInstruction = true →
    node.isA Rule.defCircuit.text = true ∧ child.isA Rule.circuitBody.text = true

instance (node : Tree) : Decidable node.NestsInBody :=
  inferInstanceAs (Decidable (_ → _))

/-- Whether instructions are nested only in the bodies of circuits. The body of a circuit is the first one of its
    definition. Other ones belong to no level, unless the definition is the whole tree. -/
structure NestsInBodies (root : Tree) : Prop where
  inside : ∀ node ∈ root.walk, node.NestsInBody
  whole : root.isInstruction = true → ∀ child ∈ root.children, child.holdsInstruction = true →
    root.child? Rule.circuitBody.text = some child

theorem walkAll_children_subset (node : Tree) : walkAll node.children ⊆ node.walk := by
  cases node
  exact List.subset_cons_of_subset _ (List.Subset.refl _)

end Tree

namespace Classification

open TwoLane.Tree

variable {node : Tree} {nodes : List Tree} {lines : Classification}

/-! ## Instructions of a tree -/

mutual

theorem instructions_sublist (node : Tree) : (instructions node).Sublist (node.walk.filter isInstruction) := by
  match node with
  | ⟨line, rule, label, children⟩ =>
      by_cases own : (Category.ofTree? ⟨line, rule, label, children⟩).isSome = true
      · rw [instructions, if_pos own, walk, List.filter_cons_of_pos (by exact own)]
        refine .cons_cons _ ?_
        split
        · exact instructionsOfBody_sublist children
        · exact List.nil_sublist _
      · rw [instructions, if_neg own, walk, List.filter_cons_of_neg (by exact own)]
        exact instructionsOfAll_sublist children

theorem instructionsOfAll_sublist (nodes : List Tree) :
    (instructionsOfAll nodes).Sublist ((walkAll nodes).filter isInstruction) := by
  match nodes with
  | [] => exact List.nil_sublist _
  | node :: rest =>
      rw [instructionsOfAll, walkAll, List.filter_append]
      exact (instructions_sublist node).append (instructionsOfAll_sublist rest)

theorem instructionsOfBody_sublist (nodes : List Tree) :
    (instructionsOfBody nodes).Sublist ((walkAll nodes).filter isInstruction) := by
  match nodes with
  | [] => exact List.nil_sublist _
  | node :: rest =>
      rw [instructionsOfBody, walkAll, List.filter_append]
      split
      · exact (instructions_sublist node).trans (List.sublist_append_left _ _)
      · exact (instructionsOfBody_sublist rest).trans (List.sublist_append_right _ _)

end

theorem instructions_eq (node : Tree) : instructions node =
    if node.isInstruction = true then
      node :: (if node.rule = Rule.defCircuit.text then instructionsOfBody node.children else [])
    else instructionsOfAll node.children := by
  cases node
  rw [instructions]
  rfl

theorem mem_instructionsOfAll : node ∈ instructionsOfAll nodes ↔ ∃ tree ∈ nodes, node ∈ instructions tree := by
  induction nodes with
  | nil => simp [instructionsOfAll]
  | cons first rest ih => simp [instructionsOfAll, ih]

theorem instructionsOfBody_eq {body : Tree}
    (found : nodes.find? (fun node => node.isA Rule.circuitBody.text) = some body) :
    instructionsOfBody nodes = instructions body := by
  induction nodes with
  | nil => cases found
  | cons first rest ih =>
      rw [List.find?_cons] at found
      rw [instructionsOfBody]
      split at found
      · next isBody =>
          cases found
          rw [if_pos isBody]
      · next other => rw [if_neg (by simp [other]), ih found]

theorem holdsInstruction_of_mem {tree : Tree} (member : node ∈ instructions tree) : tree.holdsInstruction = true := by
  obtain ⟨inside, isInstruction⟩ := List.mem_filter.mp ((instructions_sublist tree).subset member)
  exact List.any_eq_true.mpr ⟨node, inside, isInstruction⟩

theorem instructions_of_body {body : Tree} (isBody : body.isA Rule.circuitBody.text = true) :
    instructions body = instructionsOfAll body.children := by
  have kind : body.kind = some .circuitBody := kind_eq_some_iff.mpr (beq_iff_eq.mp isBody)
  have none : ¬ body.isInstruction = true := by simp [isInstruction, Category.ofTree?, kind]
  rw [instructions_eq, if_neg none]

theorem instructionsOfAll_children (nests : node.NestsInBody) (other : node.rule ≠ Rule.defCircuit.text) :
    instructionsOfAll node.children ⊆ instructions node := by
  intro inner member
  by_cases own : node.isInstruction = true
  · obtain ⟨child, there, member⟩ := mem_instructionsOfAll.mp member
    have definition := (nests own child there (holdsInstruction_of_mem member)).1
    exact absurd (beq_iff_eq.mp definition) other
  · rwa [instructions_eq, if_neg own]

theorem instructionsOfAll_root {root : Tree} (nested : root.NestsInBodies) :
    instructionsOfAll root.children ⊆ instructions root := by
  by_cases definition : root.rule = Rule.defCircuit.text
  · have kind : root.kind = some .defCircuit := kind_eq_some_iff.mpr definition
    have own : root.isInstruction = true := by simp [isInstruction, Category.ofTree?, kind]
    intro inner member
    obtain ⟨child, there, member⟩ := mem_instructionsOfAll.mp member
    have body := instructionsOfBody_eq (nested.whole own child there (holdsInstruction_of_mem member))
    rw [instructions_eq, if_pos own, if_pos definition, body]
    exact List.mem_cons_of_mem _ member
  · exact instructionsOfAll_children (nested.inside root root.self_mem_walk) definition

/-! ## Categories of instructions -/

theorem get?_foldl_record {line : Nat} (apart : ∀ node ∈ nodes, node.line ≠ line) :
    Table.get? line (nodes.foldl record lines) = Table.get? line lines := by
  induction nodes generalizing lines with
  | nil => rfl
  | cons node rest ih =>
      obtain ⟨here, later⟩ := List.forall_mem_cons.mp apart
      rw [List.foldl_cons, ih later, record]
      split
      · rfl
      · split
        · rfl
        · exact Table.get?_put_of_ne here.symm _ _

theorem get?_foldl_record_of_mem (distinct : (nodes.map Tree.line).Nodup)
    (free : ∀ node ∈ nodes, Table.get? node.line lines = none) (member : node ∈ nodes) {category : Category}
    (isOne : Category.ofTree? node = some category) :
    Table.get? node.line (nodes.foldl record lines) = some ⟨category, node⟩ := by
  induction nodes generalizing lines with
  | nil => cases member
  | cons first rest ih =>
      obtain ⟨apart, distinct⟩ := List.nodup_cons.mp distinct
      obtain ⟨here, later⟩ := List.forall_mem_cons.mp free
      have others : ∀ other ∈ rest, other.line ≠ first.line :=
        fun other there same => apart (List.mem_map.mpr ⟨other, there, same⟩)
      rw [List.foldl_cons]
      rcases List.mem_cons.mp member with rfl | behind
      · rw [get?_foldl_record others, record, isOne]
        simp [Table.contains, here]
      · refine ih distinct (fun other there => ?_) behind
        have kept : Table.get? other.line ([first].foldl record lines) = Table.get? other.line lines :=
          get?_foldl_record (by simpa using (others other there).symm)
        exact kept.trans (later other there)

theorem category?_ofTree {root : Tree} (own : root.OwnLines) (member : node ∈ instructions root) :
    (ofTree root).category? node.line = Category.ofTree? node := by
  have sublist := instructions_sublist root
  obtain ⟨category, isOne⟩ := Option.isSome_iff_exists.mp (List.mem_filter.mp (sublist.subset member)).2
  have distinct : ((instructions root).map Tree.line).Nodup := (sublist.map Tree.line).nodup own
  rw [category?, ofTree, get?_foldl_record_of_mem distinct (fun _ _ => rfl) member isOne, isOne]
  rfl

end Classification

namespace Level

open TwoLane.Tree Classification

variable {root node : Tree} {nodes : List Tree} {level : Level} {line : Nat} {label : String}

/-! ## Conditional jumps of levels -/

theorem exists_of_foldl_recordFlow (visible : List String)
    (jumps : (nodes.foldl (recordFlow visible) level).conditionalJumpAt? line = some label) :
    level.conditionalJumpAt? line = some label ∨
      ∃ node ∈ nodes, node.line = line ∧ Category.ofTree? node = some .classicalControl := by
  induction nodes generalizing level with
  | nil => exact .inl jumps
  | cons node rest ih =>
      rcases ih jumps with early | ⟨other, there, found⟩
      · rw [recordFlow] at early
        split at early
        case h_3 kind | h_4 kind =>
          by_cases here : line = node.line
          · exact .inr ⟨node, List.mem_cons_self, here.symm, by simp [Category.ofTree?, kind]⟩
          · exact .inl ((Table.get?_put_of_ne here _ _).symm.trans early)
        case h_1 =>
          dsimp only at early
          split at early <;> exact .inl early
        case h_6 => split at early <;> exact .inl early
        all_goals exact .inl early
      · exact .inr ⟨other, List.mem_cons_of_mem _ there, found⟩

theorem circuits_ofNodes (visible formals : List String) (circuits : List (String × Level)) (nodes : List Tree) :
    (ofNodes visible formals circuits nodes).circuits = Table.ofList circuits := by
  have kept : ∀ level : Level, (nodes.foldl (recordFlow visible) level).circuits = level.circuits := by
    induction nodes with
    | nil => exact fun _ => rfl
    | cons node rest ih => exact fun level => (ih _).trans (recordFlow_keeps visible level node).2.1
  exact kept _

theorem Within.top_or_inside {root : Level} (within : Within root level) :
    level = root ∨ ∃ entry ∈ root.circuits, Within entry.2 level := by
  induction within with
  | top => exact .inl rfl
  | @circuit outer name body _ member ih =>
      rcases ih with rfl | ⟨entry, there, inside⟩
      · exact .inr ⟨(name, body), member, .top⟩
      · exact .inr ⟨entry, there, .circuit inside member⟩

mutual

theorem mem_instructions_of_ownNodes {tree : Tree} (nested : ∀ inner ∈ tree.walk, inner.NestsInBody)
    (member : node ∈ ownNodes tree) (own : node.isInstruction = true) : node ∈ instructions tree := by
  match tree with
  | ⟨line, rule, label, children⟩ =>
      rw [ownNodes] at member
      split at member
      · cases member
      · next other =>
          rcases List.mem_cons.mp member with rfl | below
          · rw [instructions_eq, if_pos own]
            exact List.mem_cons_self
          · have nests := nested _ (self_mem_walk ⟨line, rule, label, children⟩)
            refine instructionsOfAll_children nests other (mem_instructions_of_ownNodesOfAll ?_ below own)
            exact fun inner there => nested inner (List.mem_cons_of_mem _ there)

theorem mem_instructions_of_ownNodesOfAll {nodes : List Tree} (nested : ∀ inner ∈ walkAll nodes, inner.NestsInBody)
    (member : node ∈ ownNodesOfAll nodes) (own : node.isInstruction = true) : node ∈ instructionsOfAll nodes := by
  match nodes with
  | [] => cases member
  | first :: rest =>
      rw [walkAll] at nested
      rw [ownNodesOfAll] at member
      rw [instructionsOfAll]
      rcases List.mem_append.mp member with here | later
      · refine List.mem_append_left _ (mem_instructions_of_ownNodes ?_ here own)
        exact fun inner there => nested inner (List.mem_append_left _ there)
      · refine List.mem_append_right _ (mem_instructions_of_ownNodesOfAll ?_ later own)
        exact fun inner there => nested inner (List.mem_append_right _ there)

end

/-- Whether each conditional jump of the levels in a level is a classified instruction of the tree. -/
def ConditionsOf (root : Tree) (level : Level) : Prop :=
  ∀ inner, Within level inner → ∀ line label, inner.conditionalJumpAt? line = some label →
    ∃ node ∈ instructions root, node.line = line ∧ Category.ofTree? node = some .classicalControl

/-- Whether nodes nest instructions in bodies only, and some of their instructions are classified in the tree. -/
def ClassifiedIn (root : Tree) (nodes found : List Tree) : Prop :=
  (∀ node ∈ walkAll nodes, node.NestsInBody) ∧ found ⊆ instructions root

theorem conditionsOf_ofNodes {visible formals : List String} {circuits : List (String × Level)}
    (classified : ClassifiedIn root nodes (instructionsOfAll nodes))
    (bodies : ∀ entry ∈ circuits, ConditionsOf root entry.2) :
    ConditionsOf root (ofNodes visible formals circuits (ownNodesOfAll nodes)) := by
  intro inner within line label jumps
  rcases within.top_or_inside with rfl | ⟨entry, member, inside⟩
  · rcases exists_of_foldl_recordFlow visible jumps with none | ⟨node, member, here, isOne⟩
    · cases none
    · have own : node.isInstruction = true := Option.isSome_of_eq_some isOne
      exact ⟨node, classified.2 (mem_instructions_of_ownNodesOfAll classified.1 member own), here, isOne⟩
  · rw [circuits_ofNodes] at member
    exact bodies _ (Table.mem_of_mem_ofList member) inner inside line label jumps

theorem ClassifiedIn.children (classified : ClassifiedIn root [node] (instructions node)) {found : List Tree}
    (among : found ⊆ instructions node) : ClassifiedIn root node.children found :=
  ⟨fun inner member => classified.1 inner (by simpa [walkAll] using walkAll_children_subset node member),
    List.Subset.trans among classified.2⟩

theorem ClassifiedIn.first {rest found : List Tree} (classified : ClassifiedIn root (node :: rest) found)
    (among : instructions node ⊆ found) : ClassifiedIn root [node] (instructions node) :=
  ⟨fun inner member => classified.1 inner (List.mem_append_left _ (by simpa [walkAll] using member)),
    List.Subset.trans among classified.2⟩

theorem ClassifiedIn.rest {rest found fewer : List Tree} (classified : ClassifiedIn root (node :: rest) found)
    (among : fewer ⊆ found) : ClassifiedIn root rest fewer :=
  ⟨fun inner member => classified.1 inner (List.mem_append_right _ member), List.Subset.trans among classified.2⟩

/-- The induction goes along the circuits of the tree, with what is classified of them. -/
theorem conditionsOf_ofBody (inherited formals : List String) (body : Tree)
    (classified : ClassifiedIn root body.children (instructionsOfAll body.children)) :
    ConditionsOf root (ofBody inherited formals body) := by
  revert classified
  refine ofBody.induct
    (fun inherited formals body => ClassifiedIn root body.children (instructionsOfAll body.children) →
      ConditionsOf root (ofBody inherited formals body))
    (fun visible nodes => ClassifiedIn root nodes (instructionsOfAll nodes) →
      ∀ entry ∈ circuitsOfAll visible nodes, ConditionsOf root entry.2)
    (fun visible node => ClassifiedIn root [node] (instructions node) →
      ∀ entry ∈ circuitsOf visible node, ConditionsOf root entry.2)
    (fun visible formals nodes => ClassifiedIn root nodes (instructionsOfBody nodes) →
      ConditionsOf root (bodyLevel visible formals nodes))
    ?_ ?_ ?_ ?_ ?_ ?_ ?_ ?_ inherited formals body
  · intro inherited formals line rule label children visible bodies classified
    rw [ofBody]
    exact conditionsOf_ofNodes classified (bodies classified)
  · intro visible line label children definition formals body classified entry member
    rw [circuitsOf, if_pos rfl] at member
    rw [List.mem_singleton.mp member]
    have kind : definition.kind = some .defCircuit := kind_eq_some_iff.mpr rfl
    have own : definition.isInstruction = true := by simp [isInstruction, Category.ofTree?, kind]
    refine body (classified.children ?_)
    rw [instructions_eq definition, if_pos own, if_pos rfl]
    exact List.subset_cons_self _ _
  · intro visible line rule label children other bodies classified entry member
    rw [circuitsOf, if_neg other] at member
    have nests := classified.1 ⟨line, rule, label, children⟩ (by simp [walkAll, walk])
    exact bodies (classified.children (instructionsOfAll_children nests other)) entry member
  · intro visible _ entry member
    rw [circuitsOfAll] at member
    cases member
  · intro visible node rest first further classified entry member
    rw [circuitsOfAll] at member
    rw [instructionsOfAll] at classified
    rcases List.mem_append.mp member with here | later
    · exact first (classified.first (List.subset_append_left _ _)) entry here
    · exact further (classified.rest (List.subset_append_right _ _)) entry later
  · intro visible formals _ inner within line label jumps
    rw [bodyLevel] at within
    rcases within.top_or_inside with rfl | ⟨entry, member, _⟩
    · cases jumps
    · cases member
  · intro visible formals node rest isBody body classified
    rw [bodyLevel, if_pos isBody]
    rw [instructionsOfBody, if_pos isBody] at classified
    refine body ((classified.first (List.Subset.refl _)).children ?_)
    rw [instructions_of_body isBody]
    exact List.Subset.refl _
  · intro visible formals node rest other further classified
    rw [bodyLevel, if_neg other]
    rw [instructionsOfBody, if_neg other] at classified
    exact further (classified.rest (List.Subset.refl _))

/-- Whether the lines of all conditional jumps of a program are classified as conditions. -/
def ConditionsClassified (root : Level) (lines : Classification) : Prop :=
  ∀ level, Within root level → ∀ line label, level.conditionalJumpAt? line = some label →
    lines.category? line = some .classicalControl

theorem conditionsClassified_ofTree (own : root.OwnLines) (nested : root.NestsInBodies) :
    (ofTree root).ConditionsClassified (Classification.ofTree root) := by
  intro level within line label jumps
  have classified : ClassifiedIn root root.children (instructionsOfAll root.children) :=
    ⟨fun inner member => nested.inside inner (root.walkAll_children_subset member), instructionsOfAll_root nested⟩
  obtain ⟨node, member, rfl, isOne⟩ := conditionsOf_ofBody [] [] root classified level within line label jumps
  rw [category?_ofTree own member, isOne]

end Level

end TwoLane
