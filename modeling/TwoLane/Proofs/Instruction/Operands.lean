import TwoLane.Proofs.Text.Trim
import TwoLane.Line.Category
import TwoLane.Instruction.Operation

/-! # What operands are read from

A parameter or an expression with a single child stands for that child, so an operand is decided by the node at the
end of such wrappers, its core. Two things follow for the names an operation uses. They are the texts of address
nodes, except where a number node holds a word: that word is read as a memory reference. And what a wrapper writes
around its child is lost, which only a wrapper that writes nothing but blanks can bear.
-/

namespace TwoLane

namespace Tree

variable {node inner : Tree} {name : String}

theorem mem_walkAll {nodes : List Tree} :
    inner ∈ walkAll nodes ↔ ∃ node ∈ nodes, inner ∈ node.walk := by
  induction nodes with
  | nil => simp [walkAll]
  | cons node rest ih => simp [walkAll, ih]

theorem walk_of_child (member : inner ∈ node.children) : inner.walk ⊆ node.walk := by
  obtain ⟨line, rule, label, children⟩ := node
  rw [walk]
  exact fun below inside => List.mem_cons_of_mem _ (mem_walkAll.mpr ⟨inner, member, inside⟩)

theorem mem_addresses : name ∈ node.addresses ↔ ∃ inner ∈ node.walk, inner.kind = some .addr ∧ inner.label = name := by
  simp only [addresses, List.mem_map, List.mem_filter, isA, beq_iff_eq, kind_eq_some_iff, and_assoc]

theorem addresses_of_child (member : inner ∈ node.children) (named : name ∈ inner.addresses) :
    name ∈ node.addresses := by
  obtain ⟨below, inside, described⟩ := mem_addresses.mp named
  exact mem_addresses.mpr ⟨below, walk_of_child member inside, described⟩

theorem label_mem_addresses (kind : node.kind = some .addr) : node.label ∈ node.addresses :=
  mem_addresses.mpr ⟨node, self_mem_walk node, kind, rfl⟩

theorem contains_addr_iff : node.contains Rule.addr.text = true ↔ node.addresses ≠ [] := by
  simp [contains, addresses]

theorem addresses_around {line : Nat} {rule label : String} (differs : rule ≠ Rule.addr.text) :
    addresses ⟨line, rule, label, [inner]⟩ = inner.addresses := by
  simp [addresses, walk, walkAll, isA, differs]

def Spelled (text : List Char) : List (List Char) → Prop
  | [] => True
  | part :: rest => ∃ front back, text = front ++ (part ++ back) ∧ Spelled back rest

/-- Whether each node carries its literal text: no text is empty, and the texts of the children stand in the text of
    their parent one behind the other. -/
def Literal (node : Tree) : Prop :=
  ∀ below ∈ node.walk,
    below.label ≠ "" ∧ Spelled below.label.toList (below.children.map (fun part => part.label.toList))

theorem Literal.of_child (literal : node.Literal) (member : inner ∈ node.children) : inner.Literal :=
  fun below inside => literal below (walk_of_child member inside)

/-- The text of a single child is a part of the text of the node. -/
theorem Literal.around {line : Nat} {rule label : String}
    (literal : Literal ⟨line, rule, label, [inner]⟩) :
    ∃ front back, label.toList = front ++ (inner.label.toList ++ back) := by
  obtain ⟨front, back, parts, -⟩ := (literal _ (self_mem_walk _)).2
  exact ⟨front, back, parts⟩

end Tree

namespace Operand

variable {node token : Tree} {name : String}

/-- The node that decides an operand: parameters and expressions with a single child are passed. -/
def core : Tree → Tree
  | ⟨line, rule, label, children⟩ =>
      match Rule.ofText? rule, children with
      | some .param, [inner] => core inner
      | some .expression, [inner] => core inner
      | _, _ => ⟨line, rule, label, children⟩

def ofCore (node : Tree) : Operand :=
  match node.kind with
  | some .addr => .address node.label
  | some .number => read node.label
  | _ => .expression node.label node.addresses

theorem ofTree_eq (node : Tree) : ofTree node = ofCore (core node) := by
  fun_induction core node with
  | case1 line rule label inner kind ih => rw [← ih, ofTree.eq_def]; simp only [kind]
  | case2 line rule label inner kind ih => rw [← ih, ofTree.eq_def]; simp only [kind]
  | case3 line rule label children notParam notExpression =>
      rw [ofCore, Tree.kind, ofTree.eq_def]
      dsimp only
      split <;> simp_all

theorem addresses_core (node : Tree) : (core node).addresses = node.addresses := by
  have differs : ∀ {rule : String} {other : Rule}, Rule.ofText? rule = some other → other ≠ .addr →
      rule ≠ Rule.addr.text := by
    intro rule other kind distinct same
    rw [same, Rule.ofText?_text] at kind
    exact distinct (Option.some.inj kind).symm
  fun_induction core node with
  | case1 line rule label inner kind ih => rw [ih, Tree.addresses_around (differs kind (by decide))]
  | case2 line rule label inner kind ih => rw [ih, Tree.addresses_around (differs kind (by decide))]
  | case3 => rfl

/-- A number node whose text is read as a memory reference. -/
def Misread (token : Tree) : Prop :=
  token.kind = some .number ∧ read token.label = .address token.label

theorem read_address {text : String} (h : read text = .address name) : name = text := by
  unfold read at h
  split at h
  · cases h
  · split at h
    · exact (Operand.address.inj h).symm
    · cases h

theorem mem_addresses_read {text : String} :
    name ∈ (read text).addresses ↔ read text = .address text ∧ name = text := by
  unfold read
  split
  · simp [addresses]
  · split <;> simp [addresses]

/-- The names an operand uses are the texts of address nodes, or the word in a misread number node. -/
theorem mem_addresses_ofCore (member : name ∈ (ofCore token).addresses) :
    (Misread token ∧ name = token.label) ∨ name ∈ token.addresses := by
  unfold ofCore at member
  split at member
  · next kind =>
      rw [addresses, List.mem_singleton] at member
      exact .inr (member ▸ Tree.label_mem_addresses kind)
  · next kind =>
      obtain ⟨word, same⟩ := mem_addresses_read.mp member
      exact .inl ⟨⟨kind, word⟩, same⟩
  · exact .inr member

theorem Misread.mem_addresses (misread : Misread token) : token.label ∈ (ofCore token).addresses := by
  simp [ofCore, misread.1, misread.2, addresses]

theorem addresses_ofCore_ne_nil :
    (ofCore token).addresses ≠ [] ↔ Misread token ∨ (token.kind ≠ some .number ∧ token.addresses ≠ []) := by
  constructor
  · intro uses
    obtain ⟨name, member⟩ := List.exists_mem_of_ne_nil _ uses
    by_cases kind : token.kind = some .number
    · simp only [ofCore, kind] at member
      exact .inl ⟨kind, (mem_addresses_read.mp member).1⟩
    · rcases mem_addresses_ofCore member with ⟨⟨number, -⟩, -⟩ | mentioned
      · exact absurd number kind
      · exact .inr ⟨kind, List.ne_nil_of_mem mentioned⟩
  · rintro (misread | ⟨kind, mentioned⟩)
    · exact List.ne_nil_of_mem misread.mem_addresses
    · unfold ofCore
      split
      · simp [addresses]
      · next number => exact absurd number kind
      · exact mentioned

/-- Whether the wrappers that are passed write nothing but blanks around their child. -/
def Transparent : Tree → Prop
  | ⟨_, rule, label, children⟩ =>
      match Rule.ofText? rule, children with
      | some .param, [inner] => Text.trim label.toList = Text.trim inner.label.toList ∧ Transparent inner
      | some .expression, [inner] => Text.trim label.toList = Text.trim inner.label.toList ∧ Transparent inner
      | _, _ => True

theorem transparent_around {line : Nat} {rule label : String} {inner : Tree}
    (wraps : Rule.ofText? rule = some .param ∨ Rule.ofText? rule = some .expression) :
    Transparent ⟨line, rule, label, [inner]⟩ ↔
      Text.trim label.toList = Text.trim inner.label.toList ∧ Transparent inner := by
  rcases wraps with kind | kind <;> rw [Transparent.eq_def] <;> simp only [kind]

theorem Transparent.trim_eq (transparent : Transparent node) :
    Text.trim node.label.toList = Text.trim (core node).label.toList := by
  fun_induction core node with
  | case1 line rule label inner kind ih =>
      obtain ⟨same, below⟩ := (transparent_around (.inl kind)).mp transparent
      exact same.trans (ih below)
  | case2 line rule label inner kind ih =>
      obtain ⟨same, below⟩ := (transparent_around (.inr kind)).mp transparent
      exact same.trans (ih below)
  | case3 => rfl

theorem inked_core_le (literal : node.Literal) :
    Text.inked (core node).label.toList ≤ Text.inked node.label.toList := by
  have around : ∀ {line rule label inner}, Tree.Literal ⟨line, rule, label, [inner]⟩ →
      Text.inked inner.label.toList ≤ Text.inked label.toList := by
    intro line rule label inner literal
    obtain ⟨front, back, parts⟩ := literal.around
    rw [parts, Text.inked_append, Text.inked_append]
    omega
  fun_induction core node with
  | case1 line rule label inner kind ih =>
      exact (ih (literal.of_child (List.mem_singleton_self _))).trans (around literal)
  | case2 line rule label inner kind ih =>
      exact (ih (literal.of_child (List.mem_singleton_self _))).trans (around literal)
  | case3 => exact le_rfl

/-- Where each node carries its literal text, only transparent wrappers say what their core says: what another one
    writes is not in the core, and no wrapper further in can make up for it. -/
theorem transparent_of_trim_eq (literal : node.Literal)
    (same : Text.trim node.label.toList = Text.trim (core node).label.toList) : Transparent node := by
  have passed : ∀ {line rule label inner},
      Rule.ofText? rule = some .param ∨ Rule.ofText? rule = some .expression →
      Tree.Literal ⟨line, rule, label, [inner]⟩ →
      Text.trim label.toList = Text.trim (core inner).label.toList →
      (inner.Literal → Text.trim inner.label.toList = Text.trim (core inner).label.toList → Transparent inner) →
      Transparent ⟨line, rule, label, [inner]⟩ := by
    intro line rule label inner wraps literal same ih
    have below := literal.of_child (List.mem_singleton_self inner)
    obtain ⟨front, back, parts⟩ := literal.around
    have count := congrArg Text.inked same
    rw [Text.inked_trim, Text.inked_trim, parts, Text.inked_append, Text.inked_append] at count
    have shorter := inked_core_le below
    have trimmed : Text.trim label.toList = Text.trim inner.label.toList := by
      rw [parts]
      exact Text.trim_around (by omega) (by omega)
    exact (transparent_around wraps).mpr ⟨trimmed, ih below (trimmed.symm.trans same)⟩
  fun_induction core node with
  | case1 line rule label inner kind ih => exact passed (.inl kind) literal same ih
  | case2 line rule label inner kind ih => exact passed (.inr kind) literal same ih
  | case3 line rule label children notParam notExpression =>
      rw [Transparent.eq_def]
      dsimp only
      split <;> simp_all

theorem ofCore_address (h : ofCore token = .address name) : name = token.label := by
  unfold ofCore at h
  split at h
  · exact (Operand.address.inj h).symm
  · exact read_address h
  · cases h

theorem ofCore_literal {value : Number} (h : ofCore token = .literal value) : Number.read token.label = some value := by
  unfold ofCore read at h
  split at h
  · cases h
  · split at h
    · next reads => rw [reads, Operand.literal.inj h]
    · split at h <;> cases h
  · cases h

/-- How far an operand says what its node says, for nodes that carry their literal text. A memory reference is the
    trimmed text of its node exactly if the wrappers around it are transparent and its own text has no blanks at its
    ends; a literal is the number that the text of its node denotes wherever the wrappers around it are transparent. -/
theorem plain_operand (node : Tree) (literal : node.Literal) :
    (∀ name, ofTree node = .address name →
      (Text.trim node.label.toList = name.toList ↔ Transparent node ∧ Text.trim name.toList = name.toList)) ∧
    (∀ value, ofTree node = .literal value → Transparent node → Number.read node.label = some value) := by
  refine ⟨fun name address => ?_, fun value number transparent => ?_⟩
  · rw [ofTree_eq] at address
    obtain rfl := ofCore_address address
    constructor
    · intro same
      have trimmed : Text.trim (core node).label.toList = (core node).label.toList := by
        rw [← same, Text.trim_trim]
      exact ⟨transparent_of_trim_eq literal (same.trans trimmed.symm), trimmed⟩
    · rintro ⟨transparent, trimmed⟩
      exact transparent.trim_eq.trans trimmed
  · rw [ofTree_eq] at number
    rw [Number.read, transparent.trim_eq]
    exact ofCore_literal number

/-- A parameter that holds an expression around the address `theta`. -/
def thetaParam (label : String) : Tree :=
  ⟨0, Rule.param.text, label, [⟨0, Rule.expression.text, label, [.leaf 0 .addr "theta"]⟩]⟩

theorem literal_thetaParam {label : String} (front back : List Char)
    (parts : label.toList = front ++ ("theta".toList ++ back)) (filled : label ≠ "") : (thetaParam label).Literal := by
  intro below member
  simp only [thetaParam, Tree.leaf, Tree.walk, Tree.walkAll, List.append_nil, List.mem_cons, List.not_mem_nil,
    or_false] at member
  rcases member with rfl | rfl | rfl
  · exact ⟨filled, [], [], by simp, trivial⟩
  · exact ⟨filled, front, back, parts, trivial⟩
  · exact ⟨by decide, trivial⟩

/-- Blanks around a reference are no part of it. -/
theorem spaced_reference :
    (thetaParam " theta ").Literal ∧ Text.trim (thetaParam " theta ").label.toList = "theta".toList := by
  have literal : (thetaParam " theta ").Literal := literal_thetaParam [' '] [' '] rfl (by decide)
  have transparent : Transparent (thetaParam " theta ") := ⟨rfl, rfl, trivial⟩
  exact ⟨literal, ((plain_operand (thetaParam " theta ") literal).1 "theta" rfl).mpr ⟨transparent, rfl⟩⟩

/-- The sign in the parameter `-theta` is lost: the operand is the memory reference `theta`. -/
theorem sign_is_dropped :
    ¬ ∀ node : Tree, node.kind = some .param → node.Literal → ∀ name, ofTree node = .address name →
        Text.trim node.label.toList = name.toList := by
  intro plain
  have literal : (thetaParam "-theta").Literal := literal_thetaParam ['-'] [] rfl (by decide)
  have same := plain (thetaParam "-theta") rfl literal "theta" rfl
  exact absurd same (by decide)

end Operand

namespace Operation

variable {node token : Tree} {bindings : Bindings}

/-- The nodes that decide the operands of a gate or of a classical instruction. -/
def tokens (node : Tree) : List Tree :=
  match node.kind with
  | some .gate => (node.childrenOf Rule.param.text).map Operand.core
  | some .classicalUnary | some .classicalBinary | some .classicalComparison
  | some .load | some .store =>
      (node.children.filter (fun child => child.isA Rule.addr.text || child.isA Rule.number.text)).map Operand.core
  | _ => []

theorem names_accessesOf (use : MemoryUse) (operands : List Operand) :
    (accessesOf use operands).map MemoryAccess.name = operands.flatMap Operand.addresses := by
  simp [accessesOf, Function.comp_def]

theorem names_classical (opcode : String) (operands : List Operand) :
    (classical opcode operands).memoryAccesses.map MemoryAccess.name = operands.flatMap Operand.addresses := by
  rw [memoryAccesses, List.map_append, names_accessesOf, names_accessesOf, ← List.flatMap_append,
    List.take_append_drop]

theorem names_ofTree (reads : node.kind = some .gate ∨ Category.ofTree? node = some .classical) :
    (ofTree node bindings).memoryAccesses.map MemoryAccess.name =
      (tokens node).flatMap (fun token => (Operand.ofCore token).addresses) := by
  have same : ∀ nodes : List Tree, (nodes.map Operand.ofTree).flatMap Operand.addresses =
      (nodes.map Operand.core).flatMap (fun token => (Operand.ofCore token).addresses) := by
    intro nodes
    simp only [List.flatMap_map, Operand.ofTree_eq]
  cases kind : node.kind with
  | none => simp [Category.ofTree?, kind] at reads
  | some rule =>
      cases rule
      case gate => simp only [ofTree, tokens, kind, memoryAccesses, names_accessesOf, Tree.childrenOf, same]
      case classicalUnary | classicalBinary | classicalComparison | load | store =>
          simp only [ofTree, tokens, kind, names_classical, same]
      case declare => simp [ofTree, tokens, kind, memoryAccesses]
      case measure =>
          simp only [Category.ofTree?, kind] at reads
          split at reads <;> simp at reads
      all_goals simp [Category.ofTree?, kind] at reads

theorem addresses_of_token (member : token ∈ tokens node) : token.addresses ⊆ node.addresses := by
  have passed : ∀ {kept : Tree → Bool}, token ∈ (node.children.filter kept).map Operand.core →
      token.addresses ⊆ node.addresses := by
    intro kept member
    obtain ⟨inner, inside, rfl⟩ := List.mem_map.mp member
    intro name named
    exact Tree.addresses_of_child (List.mem_filter.mp inside |>.1) (Operand.addresses_core inner ▸ named)
  unfold tokens at member
  split at member
  all_goals first | exact passed member | cases member

theorem hasAddressParam_iff (kind : node.kind = some .gate) :
    Category.hasAddressParam node = true ↔ ∃ token ∈ tokens node, token.addresses ≠ [] := by
  simp [Category.hasAddressParam, tokens, kind, Tree.contains_addr_iff, Operand.addresses_core]

theorem classified_iff (kind : node.kind = some .gate) :
    Category.ofTree? node = some .classicalToQuantum ↔ Category.hasAddressParam node = true := by
  simp only [Category.ofTree?, kind, Option.some.injEq]
  split <;> simp_all

theorem uses_iff (kind : node.kind = some .gate) :
    (ofTree node bindings).memoryAccesses ≠ [] ↔
      ∃ token ∈ tokens node, Operand.Misread token ∨ (token.kind ≠ some .number ∧ token.addresses ≠ []) := by
  have names : (ofTree node bindings).memoryAccesses.map MemoryAccess.name = _ := names_ofTree (.inl kind)
  rw [Ne, ← List.map_eq_nil_iff, names, List.flatMap_eq_nil_iff]
  simp only [not_forall, exists_prop, ← Operand.addresses_ofCore_ne_nil, ne_eq]

/-- How far the category of a node and the operation read from it agree on the names that are used, whatever the
    bindings. The category of a gate says that a memory reference is used exactly where the operation uses one, if a
    gate with a misread number always has a parameter that mentions an address, and a gate with such a parameter always
    has one that is no number, or a misread number. Every name that a gate or a classical instruction uses is the text
    of an address node in it, if the word in each misread number is such a text. -/
theorem classified_names (node : Tree) (bindings : Bindings) :
    (node.kind = some .gate →
      ((Category.ofTree? node = some .classicalToQuantum ↔ (ofTree node bindings).memoryAccesses ≠ []) ↔
        ((∃ token ∈ tokens node, Operand.Misread token) → Category.hasAddressParam node = true) ∧
          (Category.hasAddressParam node = true →
            ∃ token ∈ tokens node, Operand.Misread token ∨ (token.kind ≠ some .number ∧ token.addresses ≠ [])))) ∧
    (node.kind = some .gate ∨ Category.ofTree? node = some .classical →
      ((∀ access ∈ (ofTree node bindings).memoryAccesses, access.name ∈ node.addresses) ↔
        ∀ token ∈ tokens node, Operand.Misread token → token.label ∈ node.addresses)) := by
  refine ⟨fun kind => ?_, fun reads => ?_⟩
  · rw [classified_iff kind, uses_iff kind]
    constructor
    · intro agree
      refine ⟨?_, agree.mp⟩
      rintro ⟨token, member, misread⟩
      exact agree.mpr ⟨token, member, .inl misread⟩
    · rintro ⟨misread, used⟩
      refine ⟨used, ?_⟩
      rintro ⟨token, member, wrong | ⟨-, mentioned⟩⟩
      · exact misread ⟨token, member, wrong⟩
      · exact (hasAddressParam_iff kind).mpr ⟨token, member, mentioned⟩
  · have named : (∀ access ∈ (ofTree node bindings).memoryAccesses, access.name ∈ node.addresses) ↔
        ∀ token ∈ tokens node, ∀ name ∈ (Operand.ofCore token).addresses, name ∈ node.addresses := by
      rw [← List.forall_mem_map, names_ofTree reads]
      simp only [List.mem_flatMap, forall_exists_index, and_imp]
      exact ⟨fun h token member name used => h name token member used,
        fun h name token member used => h token member name used⟩
    rw [named]
    constructor
    · intro inside token member misread
      exact inside token member token.label misread.mem_addresses
    · intro inside token member name used
      rcases Operand.mem_addresses_ofCore used with ⟨misread, rfl⟩ | mentioned
      · exact inside token member misread
      · exact addresses_of_token member mentioned

/-- The syntax node of a rotation of qubit 0 by an angle. -/
def rotation (angle : Tree) : Tree :=
  ⟨0, Rule.gate.text, "RX(" ++ angle.label ++ ") 0",
    [.leaf 0 .name "RX", ⟨0, Rule.param.text, angle.label, [angle]⟩, .leaf 0 .qubit "0"]⟩

/-- A rotation by a memory reference is classified by it, and uses no other name. -/
theorem reference_is_classified :
    (Category.ofTree? (rotation (.leaf 0 .addr "theta")) = some .classicalToQuantum ↔
      (ofTree (rotation (.leaf 0 .addr "theta")) []).memoryAccesses ≠ []) ∧
    ∀ access ∈ (ofTree (rotation (.leaf 0 .addr "theta")) []).memoryAccesses,
      access.name ∈ (rotation (.leaf 0 .addr "theta")).addresses := by
  have tokens_eq : tokens (rotation (.leaf 0 .addr "theta")) = [.leaf 0 .addr "theta"] := by rfl
  have correct : ∀ token ∈ tokens (rotation (.leaf 0 .addr "theta")), ¬ Operand.Misread token := by
    rw [tokens_eq]
    rintro token member ⟨kind, -⟩
    rw [List.mem_singleton.mp member] at kind
    exact absurd kind (by decide)
  refine ⟨((classified_names _ []).1 rfl).mpr ⟨?_, fun _ => ?_⟩, ((classified_names _ []).2 (.inl rfl)).mpr ?_⟩
  · rintro ⟨token, member, misread⟩
    exact absurd misread (correct token member)
  · exact ⟨.leaf 0 .addr "theta", by rw [tokens_eq]; exact List.mem_singleton_self _, .inr (by decide)⟩
  · exact fun token member misread => absurd misread (correct token member)

/-- The constant in a rotation by `pi` is read as a memory reference, although no address node stands in the rotation
    and it is classified as purely quantum. -/
theorem constant_is_misread :
    ¬ (∀ (node : Tree) (bindings : Bindings), node.kind = some .gate →
        (Category.ofTree? node = some .classicalToQuantum ↔ (ofTree node bindings).memoryAccesses ≠ [])) ∧
    ¬ (∀ (node : Tree) (bindings : Bindings), node.kind = some .gate →
        ∀ access ∈ (ofTree node bindings).memoryAccesses, access.name ∈ node.addresses) := by
  have quantum : Category.ofTree? (rotation (.leaf 0 .number "pi")) = some .quantum := by rfl
  have accesses : (ofTree (rotation (.leaf 0 .number "pi")) []).memoryAccesses = [⟨"pi", .usage⟩] := by rfl
  have none : (rotation (.leaf 0 .number "pi")).addresses = [] := by rfl
  refine ⟨fun agree => ?_, fun inside => ?_⟩
  · have classified := (agree (rotation (.leaf 0 .number "pi")) [] rfl).mpr
      (by rw [accesses]; exact List.cons_ne_nil _ _)
    rw [quantum] at classified
    cases classified
  · have member := inside (rotation (.leaf 0 .number "pi")) [] rfl ⟨"pi", .usage⟩
      (by rw [accesses]; exact List.mem_singleton_self _)
    rw [none] at member
    cases member

end Operation

end TwoLane
