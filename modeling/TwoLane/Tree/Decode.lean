import TwoLane.Document.Record
import TwoLane.Json.Document
import TwoLane.Tree.Basic

/-! # Syntax trees from documents

A node is a record of its line, its rule, its label and its children. The label and the children may be
left out. Nodes and lists of children may be nested in each other 127 deep.
-/

namespace TwoLane.Tree

/-- How deep objects and arrays may be nested. -/
def maximalNesting : Nat := 127

/-- Interpret a document as a tree, with a bound on the levels of nesting still allowed. -/
def decode? : Nat → Document → Option Tree
  | 0, _ => none
  | allowed + 1, document => do
      match ← document.record? true ["line", "rule", "label", "children"] with
      | [some line, some rule, label, children] =>
          let line ← line.count?
          let rule ← rule.text?
          let label ← Document.orDefault "" Document.text? label
          match children, allowed with
          | none, _ => some ⟨line, rule, label, []⟩
          | some (.array items), inner + 1 => do
              let children ← items.mapM (decode? inner)
              some ⟨line, rule, label, children⟩
          | some _, _ => none
      | _ => none

def ofDocument? (document : Document) : Option Tree :=
  decode? maximalNesting document

def read? (text : String) : Option Tree := do
  ofDocument? (← Json.read? text)

end TwoLane.Tree
