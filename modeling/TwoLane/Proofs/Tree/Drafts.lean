import TwoLane.Proofs.Line.Conditions
import TwoLane.Proofs.Text.Tidy
import TwoLane.Tree.Draft

/-! # Drafts spell their instructions

A draft numbers its nodes and collects its lines apart from each other, and a circuit definition hands both counts on to
the draft of its body and back. The counts agree: the node of each instruction, in whatever body, has the number of the
line that was written for it. Where the words of all statements are tidy so are these lines, and the text of a draft
falls into them again.
-/

namespace TwoLane

open Text (IsTidy Closes isBlank)

/-! ## Texts of operations -/

namespace Decimal

variable {c : Char}

theorem ink_digitsOf {n : Nat} (member : c ∈ digitsOf n) : isBlank c = false := by
  have digit := Nat.isDigit_of_mem_toDigits (by decide) (by decide) member
  simp only [Char.isDigit, Bool.and_eq_true, decide_eq_true_eq] at digit
  obtain ⟨low, high⟩ := digit
  have low : 48 ≤ c.toNat := low
  have high : c.toNat ≤ 57 := high
  simp only [isBlank, Bool.or_eq_false_iff, Bool.and_eq_false_iff, decide_eq_false_iff_not, beq_eq_false_iff_ne]
  omega

/-- There are no blanks in a number that is written without an exponent. -/
theorem ink_positionally {style : Style} {d : Scaled} :
    style.positionally d ≠ [] ∧ ∀ c ∈ style.positionally d, isBlank c = false := by
  have point : isBlank '.' = false := rfl
  have zero : isBlank '0' = false := rfl
  have some : digitsOf d.digits ≠ [] := Nat.toDigits_ne_nil
  have zeros : ∀ {n c}, c ∈ List.replicate n '0' → isBlank c = false :=
    fun member => (List.eq_of_mem_replicate member) ▸ zero
  unfold Style.positionally
  dsimp only
  split
  · refine ⟨by simp [some], fun c member => ?_⟩
    rcases List.mem_append.mp member with whole | fraction
    · exact (List.mem_append.mp whole).elim ink_digitsOf zeros
    · split at fraction
      · rcases List.mem_pair.mp fraction with rfl | rfl
        · exact point
        · exact zero
      · cases fraction
  · split
    · refine ⟨by simp, fun c member => ?_⟩
      rcases List.mem_append.mp member with whole | fraction
      · exact ink_digitsOf (List.mem_of_mem_take whole)
      · rcases List.mem_cons.mp fraction with rfl | places
        · exact point
        · exact ink_digitsOf (List.mem_of_mem_drop places)
    · refine ⟨by simp, fun c member => ?_⟩
      rcases List.mem_cons.mp member with rfl | fraction
      · exact zero
      · rcases List.mem_cons.mp fraction with rfl | places
        · exact point
        · exact (List.mem_append.mp places).elim zeros ink_digitsOf

theorem ink_amounts (x : Float) : amounts.write x ≠ [] ∧ ∀ c ∈ amounts.write x, isBlank c = false := by
  have ink : ∀ {s : List Char}, s.all (fun c => !isBlank c) = true → ∀ c ∈ s, isBlank c = false :=
    fun all c member => (Bool.not_eq_true' _).mp (List.all_eq_true.mp all c member)
  unfold Style.write
  split
  · next b _ =>
      have magnitude : amounts.magnitude b ≠ [] ∧ ∀ c ∈ amounts.magnitude b, isBlank c = false := by
        unfold Style.magnitude
        split
        · exact ⟨List.cons_ne_nil _ _, ink rfl⟩
        · exact ink_positionally
      refine ⟨by simp [magnitude.1], fun c member => ?_⟩
      rcases List.mem_append.mp member with sign | digits
      · split at sign
        · rw [List.mem_singleton.mp sign]
          rfl
        · cases sign
      · exact magnitude.2 c digits
  · split
    · exact ⟨List.cons_ne_nil _ _, ink rfl⟩
    · split <;> exact ⟨List.cons_ne_nil _ _, ink rfl⟩

end Decimal

theorem Number.isTidy_text (a : Number) : IsTidy a.text := by
  have amount : ∀ x, IsTidy (Decimal.amountText x) :=
    fun x => Text.isTidy_of_ink (Decimal.ink_amounts x).1 (Decimal.ink_amounts x).2
  have unit : Closes "i".toList := (show IsTidy "i" by decide).closes
  have signed : ∀ {sign : String}, '\n' ∉ sign.toList → ∀ x, Closes (sign ++ (Decimal.amountText x ++ "i")).toList := by
    intro sign oneLine x
    rw [String.toList_append]
    exact ((amount x).append unit).closes_behind oneLine
  unfold Number.text
  split
  · exact amount _
  · split
    · exact (amount _).append unit
    · split
      · rw [String.append_assoc, String.append_assoc]
        exact (amount _).append (signed (by decide) _)
      · rw [String.append_assoc, String.append_assoc]
        exact (amount _).append (signed (by decide) _)

namespace Operand

theorem isTidy_read {text : String} (tidy : IsTidy text) : IsTidy (read text).text := by
  unfold read
  split
  · exact Number.isTidy_text _
  · split <;> exact tidy

theorem isTidy_ofTree (node : Tree) (labels : ∀ inner ∈ node.walk, IsTidy inner.label) :
    IsTidy (Operand.ofTree node).text := by
  have own := labels node node.self_mem_walk
  induction node using Operand.ofTree.induct with
  | case1 line rule label children kind =>
      simp only [Operand.ofTree, kind]
      exact own
  | case2 line rule label children kind =>
      simp only [Operand.ofTree, kind]
      exact isTidy_read own
  | case3 line rule label inner kind ih | case4 line rule label inner kind ih =>
      have inside : inner.walk ⊆ Tree.walk ⟨line, rule, label, [inner]⟩ := by simp [Tree.walk, Tree.walkAll]
      simp only [Operand.ofTree, kind]
      exact ih (fun other member => labels other (inside member)) (labels inner (inside inner.self_mem_walk))
  | case5 line rule label children noAddress noNumber noParam noExpression =>
      unfold Operand.ofTree
      split
      · next kind => exact (noAddress kind).elim
      · next kind => exact (noNumber kind).elim
      · next kind => exact (noParam _ kind rfl).elim
      · next kind => exact (noExpression _ kind rfl).elim
      · exact own

end Operand

/-- An operation whose words are tidy. Names of labels may be cut off at the front. -/
def Operation.Tidy : Operation → Prop
  | .gate name params qubits => IsTidy name ∧ (∀ param ∈ params, IsTidy param.text) ∧ ∀ qubit ∈ qubits, IsTidy qubit
  | .measure qubit target => IsTidy qubit ∧ ∀ name ∈ target, IsTidy name
  | .reset qubit => ∀ name ∈ qubit, IsTidy name
  | .classical opcode operands => IsTidy opcode ∧ ∀ operand ∈ operands, IsTidy operand.text
  | .declare content | .other content => IsTidy content
  | .label name | .jump name => Closes name.toList
  | .jumpWhen target condition | .jumpUnless target condition => Closes target.toList ∧ IsTidy condition
  | .halt => True
  | .circuit name formals => IsTidy name ∧ ∀ formal ∈ formals, IsTidy formal

namespace Operation

theorem isTidy_words {first : String} (tidy : IsTidy first) {rest : List String} (each : ∀ word ∈ rest, IsTidy word) :
    IsTidy (words first rest) := by
  induction rest generalizing first with
  | nil => exact tidy
  | cons word rest ih =>
      have closes : Closes (" " ++ word).toList := by
        rw [String.toList_append]
        exact (each word List.mem_cons_self).closes_behind (by decide)
      rw [words, List.foldl_cons, String.append_assoc]
      exact ih (tidy.append closes) (fun other member => each other (List.mem_cons_of_mem _ member))

theorem oneLine_intercalate {separator : String} (oneLine : '\n' ∉ separator.toList) {texts : List String}
    (each : ∀ text ∈ texts, IsTidy text) : '\n' ∉ (separator.intercalate texts).toList := by
  rw [String.toList_intercalate]
  induction texts with
  | nil => simp
  | cons text rest ih =>
      have first := (each text List.mem_cons_self).2.1
      have further := ih (fun other member => each other (List.mem_cons_of_mem _ member))
      cases rest with
      | nil => simpa using first
      | cons next others =>
          rw [List.map_cons] at further
          rw [List.map_cons, List.map_cons, List.intercalate_cons_cons]
          simp only [List.mem_append, not_or]
          exact ⟨⟨first, oneLine⟩, further⟩

theorem Tidy.isTidy_text {operation : Operation} (tidy : operation.Tidy) : IsTidy operation.text := by
  have texts : ∀ {operands : List Operand}, (∀ operand ∈ operands, IsTidy operand.text) →
      ∀ text ∈ operands.map Operand.text, IsTidy text := fun each => List.forall_mem_map.mpr each
  cases operation with
  | gate name params qubits =>
      obtain ⟨named, each, rest⟩ := tidy
      refine isTidy_words ?_ rest
      split
      · exact named
      · -- the bracket stands last, so what is inside only has to stay on the line
        have oneLine : '\n' ∉ ("(" ++ ", ".intercalate (params.map Operand.text)).toList := by
          rw [String.toList_append, List.mem_append, not_or]
          exact ⟨by decide, oneLine_intercalate (by decide) (texts each)⟩
        rw [String.append_assoc, String.append_assoc]
        refine named.append ?_
        rw [String.toList_append, String.toList_append, ← List.append_assoc, ← String.toList_append]
        exact Text.closes_snoc oneLine (by decide)
  | measure qubit target =>
      obtain ⟨first, second⟩ := tidy
      refine isTidy_words (by decide) (fun word member => ?_)
      rcases List.mem_cons.mp member with rfl | there
      · exact first
      · exact second word (Option.mem_toList.mp there)
  | reset qubit => exact isTidy_words (by decide) (fun word member => tidy word (Option.mem_toList.mp member))
  | classical opcode operands => exact isTidy_words tidy.1 (texts tidy.2)
  | declare content => exact tidy
  | other content => exact tidy
  | label name => exact (show IsTidy "LABEL @" by decide).append tidy
  | jump target => exact (show IsTidy "JUMP @" by decide).append tidy
  | jumpWhen target condition =>
      refine isTidy_words ((show IsTidy "JUMP-WHEN @" by decide).append tidy.1) (fun word member => ?_)
      rw [List.mem_singleton.mp member]
      exact tidy.2
  | jumpUnless target condition =>
      refine isTidy_words ((show IsTidy "JUMP-UNLESS @" by decide).append tidy.1) (fun word member => ?_)
      rw [List.mem_singleton.mp member]
      exact tidy.2
  | halt => decide
  | circuit name formals =>
      obtain ⟨named, each⟩ := tidy
      have header : ∀ {rest : String}, '\n' ∉ rest.toList → IsTidy ("DEFCIRCUIT " ++ rest ++ ":") := by
        intro rest oneLine
        rw [show "DEFCIRCUIT " = "DEFCIRCUIT" ++ " " from rfl, String.append_assoc, String.append_assoc]
        refine (show IsTidy "DEFCIRCUIT" by decide).append ?_
        rw [← String.append_assoc, String.toList_append, String.toList_append]
        refine Text.closes_snoc (fun member => ?_) (by decide)
        exact (List.mem_append.mp member).elim (by decide) oneLine
      change IsTidy (if formals.isEmpty = true then "DEFCIRCUIT " ++ name ++ ":"
        else "DEFCIRCUIT " ++ name ++ " " ++ " ".intercalate formals ++ ":")
      split
      · exact header named.2.1
      · have grouped : "DEFCIRCUIT " ++ name ++ " " ++ " ".intercalate formals =
            "DEFCIRCUIT " ++ (name ++ " " ++ " ".intercalate formals) := by
          rw [← String.append_assoc, ← String.append_assoc]
        rw [grouped]
        refine header ?_
        rw [String.toList_append, String.toList_append]
        simp only [List.mem_append, not_or]
        exact ⟨⟨named.2.1, by decide⟩, oneLine_intercalate (by decide) each⟩

end Operation

/-! ## Texts of nodes -/

namespace Tree

variable {node child : Tree} {rule : Rule}

def Tidy (tree : Tree) : Prop :=
  ∀ inner ∈ tree.walk, IsTidy inner.label

theorem Tidy.label (tidy : node.Tidy) : IsTidy node.label :=
  tidy node node.self_mem_walk

theorem tidy_leaf {line : Nat} {rule : Rule} {label : String} (tidy : IsTidy label) : (leaf line rule label).Tidy := by
  intro inner member
  rw [leaf, walk, walkAll] at member
  rw [List.mem_singleton.mp member]
  exact tidy

theorem tidy_childLabel (children : ∀ child ∈ node.children, child.Tidy)
    (found : (node.child? rule.text).isSome = true) : IsTidy (node.childLabel rule) := by
  obtain ⟨child, here⟩ := Option.isSome_iff_exists.mp found
  rw [childLabel, here]
  exact (children child (List.mem_of_find?_eq_some here)).label

theorem tidy_qubitsOf (children : ∀ child ∈ node.children, child.Tidy) :
    ∀ qubit ∈ Operation.qubitsOf node [], IsTidy qubit := by
  intro qubit member
  obtain ⟨child, there, rfl⟩ := List.mem_map.mp member
  exact (children child (List.mem_filter.mp there).1).label

theorem tidy_operands (children : ∀ child ∈ node.children, child.Tidy) (keep : Tree → Bool) :
    ∀ operand ∈ (node.children.filter keep).map Operand.ofTree, IsTidy operand.text := by
  intro operand member
  obtain ⟨child, there, rfl⟩ := List.mem_map.mp member
  exact Operand.isTidy_ofTree child (children child (List.mem_filter.mp there).1)

theorem closes_labelName (children : ∀ child ∈ node.children, child.Tidy)
    (found : (node.child? Rule.label.text).isSome = true) : Closes (Operation.labelName node).toList := by
  rw [Operation.labelName, String.toList_ofList]
  exact Text.closes_of_suffix (tidy_childLabel children found).closes (List.dropWhile_suffix _)

end Tree

mutual

/-- The texts that a statement is made of, those in the body of a circuit included. -/
def Statement.texts : Statement → List String
  | .gate name params qubits => name :: params ++ qubits
  | .measure qubit target => qubit :: target.toList
  | .reset qubit => qubit.toList
  | .classical opcode operands => opcode :: operands
  | .declare name type => [name, type]
  | .label name | .jump name => [name]
  | .jumpWhen name condition | .jumpUnless name condition => [name, condition]
  | .halt => []
  | .defCircuit name formals body => name :: formals ++ Statement.textsOfAll body

/-- The texts that several statements are made of. -/
def Statement.textsOfAll : List Statement → List String
  | [] => []
  | statement :: rest => statement.texts ++ Statement.textsOfAll rest

end

namespace Draft

variable {draft : Draft} {statement : Statement} {text : String} {line : Nat}

theorem tidy_operandLeaf (tidy : IsTidy text) : (operandLeaf line text).Tidy := by
  have read := Operand.isTidy_read tidy
  unfold operandLeaf
  split <;> next same =>
    rw [same] at read
    exact Tree.tidy_leaf read

theorem tidy_qubitLeaf (tidy : IsTidy text) : (draft.qubitLeaf text).Tidy :=
  Tree.tidy_leaf tidy

theorem isQubit_qubitLeaf (draft : Draft) (qubit : String) :
    ((draft.qubitLeaf qubit).isA Rule.qubit.text || (draft.qubitLeaf qubit).isA Rule.qubitVariable.text) = true := by
  unfold qubitLeaf
  split <;> rfl

theorem toUpper_cases (c : Char) : c.toUpper = c ∨ isBlank c.toUpper = false := by
  have small : ∀ n < 123, 97 ≤ n → isBlank (Char.ofNat n).toUpper = false := by decide
  by_cases lower : 97 ≤ c.toNat ∧ c.toNat < 123
  · have ink := small c.toNat lower.2 lower.1
    rw [Char.ofNat_toNat] at ink
    exact .inr ink
  · have outside : ¬ (c.val ≥ 97 ∧ c.val ≤ 122) := fun inside => lower ⟨inside.1, Nat.lt_succ_of_le inside.2⟩
    exact .inl (dif_neg outside)

theorem isTidy_toUpper (tidy : IsTidy text) : IsTidy (text.map Char.toUpper) := by
  have kept : ∀ {c}, isBlank c = false → isBlank c.toUpper = false := by
    intro c ink
    rcases toUpper_cases c with same | upper
    · rwa [same]
    · exact upper
  obtain ⟨⟨c, head, ink⟩, oneLine, last⟩ := Text.isTidy_iff.mp tidy
  refine Text.isTidy_iff.mpr ⟨⟨c.toUpper, ?_, kept ink⟩, fun member => ?_, fun d there => ?_⟩
  · rw [String.toList_map, List.head?_map, head]
    rfl
  · rw [String.toList_map] at member
    obtain ⟨d, inside, same⟩ := List.mem_map.mp member
    rcases toUpper_cases d with unchanged | upper
    · exact oneLine (same ▸ unchanged.symm ▸ inside)
    · exact Text.ne_newline upper same.symm
  · rw [String.toList_map, List.getLast?_map] at there
    obtain ⟨e, final, rfl⟩ := Option.map_eq_some_iff.mp there
    exact kept (last e final)

theorem tidy_children (draft : Draft) (tidy : ∀ text ∈ statement.texts, IsTidy text) :
    ∀ child ∈ (draft.node statement).children, child.Tidy := by
  cases statement with
  | gate name params qubits =>
      simp only [Statement.texts, List.cons_append, List.forall_mem_cons, List.forall_mem_append] at tidy
      obtain ⟨named, eachParam, eachQubit⟩ := tidy
      simp only [node, List.cons_append, List.forall_mem_cons, List.forall_mem_append, List.forall_mem_map]
      refine ⟨Tree.tidy_leaf named, fun param member inner inside => ?_, fun qubit member => ?_⟩
      · rw [Tree.walk] at inside
        rcases List.mem_cons.mp inside with rfl | below
        · exact eachParam param member
        · simp only [Tree.walkAll, List.append_nil] at below
          exact tidy_operandLeaf (eachParam param member) inner below
      · exact tidy_qubitLeaf (eachQubit qubit member)
  | measure qubit target =>
      simp only [Statement.texts, List.forall_mem_cons, Option.mem_toList] at tidy
      simp only [node, List.forall_mem_cons, List.forall_mem_map, Option.mem_toList]
      exact ⟨tidy_qubitLeaf tidy.1, fun name member => Tree.tidy_leaf (tidy.2 name member)⟩
  | reset qubit =>
      simp only [Statement.texts, Option.mem_toList] at tidy
      simp only [node, List.forall_mem_map, Option.mem_toList]
      exact fun name member => tidy_qubitLeaf (tidy name member)
  | classical opcode operands =>
      simp only [Statement.texts, List.forall_mem_cons] at tidy
      simp only [node, List.forall_mem_cons, List.forall_mem_map]
      exact ⟨Tree.tidy_leaf (isTidy_toUpper tidy.1), fun operand member => tidy_operandLeaf (tidy.2 operand member)⟩
  | declare name type | label name | jump name =>
      simp only [Statement.texts, List.forall_mem_cons] at tidy
      simp only [node, List.forall_mem_cons]
      exact ⟨Tree.tidy_leaf tidy.1, fun _ none => by cases none⟩
  | jumpWhen name condition | jumpUnless name condition =>
      simp only [Statement.texts, List.forall_mem_cons] at tidy
      simp only [node, List.forall_mem_cons]
      exact ⟨Tree.tidy_leaf tidy.1, Tree.tidy_leaf tidy.2.1, fun _ none => by cases none⟩
  | halt => exact fun _ none => by cases none
  | defCircuit name formals body =>
      simp only [Statement.texts, List.cons_append, List.forall_mem_cons, List.forall_mem_append] at tidy
      simp only [node, List.forall_mem_cons, List.forall_mem_map]
      exact ⟨Tree.tidy_leaf tidy.1, fun formal member => Tree.tidy_leaf (tidy.2.1 formal member)⟩

theorem kind_classical (draft : Draft) (opcode : String) (operands : List String) :
    (draft.node (.classical opcode operands)).kind = some (classicalRule (opcode.map Char.toUpper)) :=
  Rule.ofText?_text _

theorem tidy_ofTree (tidy : ∀ text ∈ statement.texts, IsTidy text) :
    (Operation.ofTree (draft.node statement) []).Tidy := by
  have children := tidy_children draft tidy
  cases statement with
  | gate name params qubits =>
      have kind : (draft.node (.gate name params qubits)).kind = some .gate := Rule.ofText?_text .gate
      simp only [Operation.ofTree, kind]
      exact ⟨Tree.tidy_childLabel children rfl, Tree.tidy_operands children _, Tree.tidy_qubitsOf children⟩
  | measure qubit target =>
      have kind : (draft.node (.measure qubit target)).kind = some .measure := Rule.ofText?_text .measure
      simp only [Operation.ofTree, kind]
      refine ⟨?_, fun name member => ?_⟩
      · have first : (Operation.qubitsOf (draft.node (.measure qubit target)) []).head? = some qubit := by
          rw [Operation.qubitsOf, node, List.filter_cons, if_pos (draft.isQubit_qubitLeaf qubit)]
          rfl
        rw [first]
        exact tidy qubit List.mem_cons_self
      · obtain ⟨child, found, rfl⟩ := Option.map_eq_some_iff.mp member
        exact (children child (List.mem_of_find?_eq_some found)).label
  | reset qubit =>
      have kind : (draft.node (.reset qubit)).kind = some .reset := Rule.ofText?_text .reset
      simp only [Operation.ofTree, kind]
      exact fun name member => Tree.tidy_qubitsOf children name (List.mem_of_mem_head? member)
  | classical opcode operands =>
      have operation : Operation.ofTree (draft.node (.classical opcode operands)) [] =
          .classical (((draft.node (.classical opcode operands)).childLabel .name).map Char.toUpper)
            (((draft.node (.classical opcode operands)).children.filter
              (fun child => child.isA Rule.addr.text || child.isA Rule.number.text)).map Operand.ofTree) := by
        unfold Operation.ofTree
        rw [kind_classical]
        unfold classicalRule
        split_ifs <;> rfl
      rw [operation]
      exact ⟨isTidy_toUpper (Tree.tidy_childLabel children rfl), Tree.tidy_operands children _⟩
  | declare name type =>
      have kind : (draft.node (.declare name type)).kind = some .declare := Rule.ofText?_text .declare
      simp only [Operation.ofTree, kind]
      have words : IsTidy (Operation.words "DECLARE" [name, type]) := Operation.isTidy_words (by decide) tidy
      exact words
  | label name =>
      have kind : (draft.node (.label name)).kind = some .defLabel := Rule.ofText?_text .defLabel
      simp only [Operation.ofTree, kind]
      exact Tree.closes_labelName children rfl
  | jump name =>
      have kind : (draft.node (.jump name)).kind = some .jump := Rule.ofText?_text .jump
      simp only [Operation.ofTree, kind]
      exact Tree.closes_labelName children rfl
  | jumpWhen name condition =>
      have kind : (draft.node (.jumpWhen name condition)).kind = some .jumpWhen := Rule.ofText?_text .jumpWhen
      simp only [Operation.ofTree, kind]
      exact ⟨Tree.closes_labelName children rfl, Tree.tidy_childLabel children rfl⟩
  | jumpUnless name condition =>
      have kind : (draft.node (.jumpUnless name condition)).kind = some .jumpUnless := Rule.ofText?_text .jumpUnless
      simp only [Operation.ofTree, kind]
      exact ⟨Tree.closes_labelName children rfl, Tree.tidy_childLabel children rfl⟩
  | halt => trivial
  | defCircuit name formals body =>
      have kind : (draft.node (.defCircuit name formals body)).kind = some .defCircuit := Rule.ofText?_text .defCircuit
      simp only [Operation.ofTree, kind]
      refine ⟨Tree.tidy_childLabel children rfl, fun formal member => ?_⟩
      obtain ⟨child, there, rfl⟩ := List.mem_map.mp member
      exact (children child (List.mem_filter.mp there).1).label

/-! ## Lines of drafts -/

theorem line_node (draft : Draft) (statement : Statement) : (draft.node statement).line = draft.nextLine := by
  cases statement <;> rfl

theorem isInstruction_node (draft : Draft) (statement : Statement) : (draft.node statement).isInstruction = true := by
  cases statement with
  | classical opcode operands =>
      unfold Tree.isInstruction Category.ofTree?
      rw [kind_classical]
      unfold classicalRule
      split_ifs <;> rfl
  | _ => rfl

def definition (draft : Draft) (name : String) (formals : List String) (nodes : List Tree) : Tree :=
  (draft.node (.defCircuit name formals [])).withChildren [⟨draft.nextLine + 1, Rule.circuitBody.text, "", nodes⟩]

variable {name : String} {formals : List String} {nodes : List Tree}

theorem ofTree_definition : Operation.ofTree (draft.definition name formals nodes) [] =
    Operation.ofTree (draft.node (.defCircuit name formals [])) [] := by
  have kind : (draft.definition name formals nodes).kind = some .defCircuit := Rule.ofText?_text .defCircuit
  have header : (draft.node (.defCircuit name formals [])).kind = some .defCircuit := Rule.ofText?_text .defCircuit
  have qubits : (draft.definition name formals nodes).childrenOf Rule.qubitVariable.text =
      (draft.node (.defCircuit name formals [])).childrenOf Rule.qubitVariable.text := by
    rw [Tree.childrenOf, definition, Tree.withChildren, List.filter_append]
    exact List.append_nil _
  simp only [Operation.ofTree, kind, header, qubits]
  rfl

theorem instructions_definition : Classification.instructions (draft.definition name formals nodes) =
    draft.definition name formals nodes :: Classification.instructionsOfAll nodes := by
  set body : Tree := ⟨draft.nextLine + 1, Rule.circuitBody.text, "", nodes⟩ with isBody
  have found : (draft.definition name formals nodes).children.find? (fun node => node.isA Rule.circuitBody.text) =
      some body := by
    have none : (draft.node (.defCircuit name formals [])).children.find? (fun node => node.isA Rule.circuitBody.text) =
        none := by
      have other : ∀ {rule : Rule} {text : String}, (Tree.leaf draft.nextLine rule text).isA Rule.circuitBody.text =
          (rule.text == Rule.circuitBody.text) := rfl
      rw [List.find?_eq_none, node, List.forall_mem_cons, List.forall_mem_map]
      simp only [other]
      exact ⟨by decide, fun _ _ => by decide⟩
    rw [definition, Tree.withChildren, List.find?_append, none]
    rfl
  have isInstruction : (draft.definition name formals nodes).isInstruction = true := rfl
  have rule : (draft.definition name formals nodes).rule = Rule.defCircuit.text := rfl
  rw [Classification.instructions_eq, if_pos isInstruction, if_pos rule, Classification.instructionsOfBody_eq found,
    Classification.instructions_of_body rfl]

theorem trim_sourceLine {node : Tree} (tidy : (Operation.ofTree node []).Tidy) :
    Text.trim (draft.sourceLine node).toList = (Operation.ofTree node []).text.toList := by
  rw [sourceLine, String.toList_append, String.toList_ofList]
  exact tidy.isTidy_text.trim_indented draft.indent

theorem closes_sourceLine {node : Tree} (tidy : (Operation.ofTree node []).Tidy) :
    draft.sourceLine node ≠ "" ∧ Closes (draft.sourceLine node).toList := by
  have text := tidy.isTidy_text
  constructor
  · intro empty
    exact text.1 (String.append_eq_empty_iff.mp empty).2
  · rw [sourceLine, String.toList_append, String.toList_ofList]
    exact text.closes_behind (fun member => absurd (List.eq_of_mem_replicate member) (by decide))

/-- Whether lines, numbered from a start, show the instructions of trees, each one on the line of its number. -/
structure Shows (start : Nat) (lines : List String) (nodes : List Tree) : Prop where
  shown : ∀ node ∈ Classification.instructionsOfAll nodes, ∃ i content, node.line = start + i ∧
    lines[i]? = some content ∧ Text.trim content.toList = (Operation.ofTree node []).text.toList
  closes : ∀ content ∈ lines, content ≠ "" ∧ Closes content.toList

namespace Shows

open Classification (mem_instructionsOfAll)

variable {start : Nat} {lines more : List String} {nodes others : List Tree} {node : Tree}

theorem append (first : Shows start lines nodes) (second : Shows (start + lines.length) more others) :
    Shows start (lines ++ more) (nodes ++ others) where
  shown := by
    intro node member
    obtain ⟨tree, there, inside⟩ := mem_instructionsOfAll.mp member
    rcases List.mem_append.mp there with here | later
    · obtain ⟨i, content, line, found, text⟩ := first.shown node (mem_instructionsOfAll.mpr ⟨tree, here, inside⟩)
      exact ⟨i, content, line, List.getElem?_append_left (List.getElem?_eq_some_iff.mp found).1 ▸ found, text⟩
    · obtain ⟨i, content, line, found, text⟩ := second.shown node (mem_instructionsOfAll.mpr ⟨tree, later, inside⟩)
      refine ⟨lines.length + i, content, by omega, ?_, text⟩
      rw [List.getElem?_append_right (Nat.le_add_right _ _), Nat.add_sub_cancel_left]
      exact found
  closes := fun content member => (List.mem_append.mp member).elim (first.closes content) (second.closes content)

theorem header (tidy : (Operation.ofTree node []).Tidy) {inner : List Tree}
    (inside : Classification.instructions node = node :: Classification.instructionsOfAll inner)
    (further : Shows (node.line + 1) more inner) : Shows node.line (draft.sourceLine node :: more) [node] where
  shown := by
    intro other member
    rw [Classification.instructionsOfAll, Classification.instructionsOfAll, List.append_nil, inside] at member
    rcases List.mem_cons.mp member with rfl | below
    · exact ⟨0, _, rfl, rfl, trim_sourceLine tidy⟩
    · obtain ⟨i, content, line, found, text⟩ := further.shown other below
      exact ⟨i + 1, content, by omega, found, text⟩
  closes := List.forall_mem_cons.mpr ⟨closes_sourceLine tidy, further.closes⟩

theorem nil (start : Nat) : Shows start [] [] where
  shown := by
    intro node none
    rw [Classification.instructionsOfAll] at none
    cases none
  closes := fun _ none => by cases none

end Shows

/-- A draft whose nodes are numbered as its lines are, from a start. -/
structure Aligned (start : Nat) (draft : Draft) : Prop where
  next : draft.nextLine = start + draft.lines.length
  shows : Shows start draft.lines draft.nodes

namespace Aligned

variable {start : Nat}

/-- Below the header of a circuit the lines start anew. -/
theorem body (draft : Draft) (formals : List String) : Aligned (draft.nextLine + 1) (draft.body formals) :=
  ⟨rfl, .nil _⟩

theorem push (aligned : Aligned start draft) (tidy : ∀ text ∈ statement.texts, IsTidy text)
    (plain : (draft.node statement).rule ≠ Rule.defCircuit.text) :
    Aligned start (draft.push (draft.node statement)) where
  next := by
    simp only [Draft.push, aligned.next, List.length_append, List.length_singleton]
    omega
  shows := by
    have inside : Classification.instructions (draft.node statement) =
        draft.node statement :: Classification.instructionsOfAll [] := by
      rw [Classification.instructions_eq, if_pos (draft.isInstruction_node statement), if_neg plain]
      rfl
    -- a node without a body is a header with nothing behind it
    have shown : Shows _ [draft.sourceLine (draft.node statement)] [draft.node statement] :=
      Shows.header (tidy_ofTree tidy) inside (.nil _)
    rw [line_node, aligned.next] at shown
    exact aligned.shows.append shown

/-- The lines of a body come between the header and the next statement. -/
theorem closeCircuit (aligned : Aligned start draft)
    (tidy : ∀ text ∈ name :: formals, IsTidy text) {inner : Draft} (within : Aligned (draft.nextLine + 1) inner) :
    Aligned start (draft.closeCircuit (draft.node (.defCircuit name formals [])) inner) where
  next := by
    simp only [Draft.closeCircuit, within.next, aligned.next, List.length_append, List.length_cons]
    omega
  shows := by
    have texts : ∀ text ∈ (Statement.defCircuit name formals []).texts, IsTidy text := by
      simpa only [Statement.texts, Statement.textsOfAll, List.append_nil] using tidy
    set definition := draft.definition name formals inner.nodes with isDefinition
    have shown : Shows definition.line (draft.sourceLine definition :: inner.lines) [definition] :=
      Shows.header (ofTree_definition ▸ tidy_ofTree texts) instructions_definition within.shows
    rw [show definition.line = start + draft.lines.length from aligned.next] at shown
    exact aligned.shows.append shown

mutual

/-- A statement keeps nodes and lines of a draft together. -/
theorem add {start : Nat} {draft : Draft} (aligned : Aligned start draft) (statement : Statement)
    (tidy : ∀ text ∈ statement.texts, IsTidy text) : Aligned start (draft.add statement) := by
  match statement with
  | .defCircuit name formals statements =>
      rw [Statement.texts, List.forall_mem_append] at tidy
      exact aligned.closeCircuit tidy.1 (addAll (.body draft formals) statements tidy.2)
  | .classical opcode operands =>
      refine aligned.push tidy ?_
      simp only [node, classicalRule]
      split_ifs <;> decide
  | .gate name params qubits | .measure qubit target | .reset qubit | .declare name type | .label name | .jump name
  | .jumpWhen name condition | .jumpUnless name condition | .halt => 
      exact aligned.push tidy (by simp only [node, Tree.leaf]; decide)

/-- Statements one after the other keep nodes and lines together. -/
theorem addAll {start : Nat} {draft : Draft} (aligned : Aligned start draft) (statements : List Statement)
    (tidy : ∀ text ∈ Statement.textsOfAll statements, IsTidy text) : Aligned start (draft.addAll statements) := by
  match statements with
  | [] => exact aligned
  | statement :: rest =>
      rw [Statement.textsOfAll, List.forall_mem_append] at tidy
      exact addAll (add aligned statement tidy.1) rest tidy.2

end

end Aligned

/-! ## Assembled programs -/

variable {statements : List Statement}

theorem aligned_ofStatements (tidy : ∀ text ∈ Statement.textsOfAll statements, IsTidy text) :
    Aligned 0 (ofStatements statements) :=
  have start : Aligned 0 empty := ⟨rfl, .nil 0⟩
  start.addAll statements tidy

theorem exists_line (tidy : ∀ text ∈ Statement.textsOfAll statements, IsTidy text) {node : Tree}
    (member : node ∈ Classification.instructions (ofStatements statements).tree) :
    ∃ content, (Text.lines (ofStatements statements).source)[node.line]? = some content ∧
      Text.trim content.toList = (Operation.ofTree node []).text.toList := by
  have shows := (aligned_ofStatements tidy).shows
  have below : Classification.instructions (ofStatements statements).tree =
      Classification.instructionsOfAll (ofStatements statements).nodes := by
    have noInstruction : ¬ (ofStatements statements).tree.isInstruction = true := by
      change ¬ (Category.ofTree? ⟨0, Rule.program.text, "", (ofStatements statements).nodes⟩).isSome = true
      exact Bool.false_ne_true
    rw [Classification.instructions_eq, if_neg noInstruction]
    rfl
  rw [below] at member
  obtain ⟨i, content, line, found, text⟩ := shows.shown node member
  rw [Nat.zero_add] at line
  rw [source, Text.lines_intercalate shows.closes, line]
  exact ⟨content, found, text⟩

end Draft

end TwoLane
