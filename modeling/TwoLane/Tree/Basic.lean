import TwoLane.Json.Basic
import TwoLane.Tree.Rule

/-! # Syntax trees

A program arrives as a tree. Each node carries the source line it starts on, counted from zero, the name
of its grammar rule, its literal text, and its children in source order.
-/

namespace TwoLane

/-- A node of a syntax tree. -/
structure Tree where
  line : Nat
  rule : String
  label : String
  children : List Tree
  deriving Inhabited

namespace Tree

/-- A node without children. -/
def leaf (line : Nat) (rule : Rule) (label : String) : Tree :=
  ⟨line, rule.text, label, []⟩

def withChildren (node : Tree) (more : List Tree) : Tree :=
  { node with children := node.children ++ more }

/-- What the grammar rule of the node stands for, if it has a meaning. -/
def kind (node : Tree) : Option Rule :=
  Rule.ofText? node.rule

def isLeaf (node : Tree) : Bool :=
  node.children.isEmpty

/-- Whether the node was produced by a rule. -/
def isA (node : Tree) (rule : String) : Bool :=
  node.rule == rule

/-- The first child that a rule produced. -/
def child? (node : Tree) (rule : String) : Option Tree :=
  node.children.find? (fun child => child.isA rule)

def childrenOf (node : Tree) (rule : String) : List Tree :=
  node.children.filter (fun child => child.isA rule)

/-- The text of the first child that a rule produced, or the empty text. -/
def childLabel (node : Tree) (rule : Rule) : String :=
  ((node.child? rule.text).map Tree.label).getD ""

mutual

/-- The nodes of a tree, each one before its children. -/
def walk : Tree → List Tree
  | ⟨line, rule, label, children⟩ => ⟨line, rule, label, children⟩ :: walkAll children

/-- The nodes of several trees, one tree after the other. -/
def walkAll : List Tree → List Tree
  | [] => []
  | node :: rest => walk node ++ walkAll rest

end

def contains (node : Tree) (rule : String) : Bool :=
  node.walk.any (fun inner => inner.isA rule)

/-- The texts of the leaves in source order. -/
def leafLabels (node : Tree) : List String :=
  (node.walk.filter isLeaf).map Tree.label

/-- The texts of the address nodes in source order. -/
def addresses (node : Tree) : List String :=
  (node.walk.filter (fun inner => inner.isA Rule.addr.text)).map Tree.label

mutual

/-- The report form of a tree names all four parts of every node. -/
def toJson : Tree → Json
  | ⟨line, rule, label, children⟩ =>
      .obj [("line", .nat line), ("rule", .str rule), ("label", .str label),
        ("children", .arr (toJsonAll children))]

/-- The report forms of several trees. -/
def toJsonAll : List Tree → List Json
  | [] => []
  | node :: rest => toJson node :: toJsonAll rest

end

theorem kind_eq_some_iff {node : Tree} {rule : Rule} :
    node.kind = some rule ↔ node.rule = rule.text :=
  Rule.ofText?_eq_some_iff

theorem self_mem_walk (node : Tree) : node ∈ node.walk := by
  cases node
  simp [walk]

end Tree

end TwoLane
