import TwoLane.Proofs.Block.Failures
import TwoLane.Proofs.Block.Scopes
import TwoLane.Proofs.Line.Conditions

/-! # Calls find their circuits

A gate is a call where a circuit of its name is visible: one that is defined in its level or in a level around it, as
they are written. The construction looks for the circuit among the open instances, from the inside. A chain of calls
holds an instance of each level around its innermost one, so what is visible is found, and no construction fails for a
circuit that is not defined.
-/

namespace TwoLane

namespace Level

/-! ## What is visible in a level -/

/-- A level whose calls name visible circuits only: circuits that it inherits or defines itself. What is visible in it
    is inherited by the circuits in it. -/
inductive CallsVisible : List String → Level → Prop where
  | intro {inherited visible : List String} {level : Level} :
      (∀ name ∈ visible, name ∈ inherited ∨ level.definesCircuit name = true) →
      (∀ {line call}, level.callAt? line = some call → call.name ∈ visible) →
      (∀ entry ∈ level.circuits, CallsVisible visible entry.2) → CallsVisible inherited level

variable {level : Level} {line : Nat} {call : Call}

theorem visible_of_foldl_recordFlow (visible : List String) {nodes : List Tree}
    (calls : (nodes.foldl (recordFlow visible) level).callAt? line = some call) :
    level.callAt? line = some call ∨ call.name ∈ visible := by
  induction nodes generalizing level with
  | nil => exact .inl calls
  | cons node rest ih =>
      rcases ih calls with early | named
      · rw [recordFlow] at early
        split at early
        case h_1 =>
          dsimp only at early
          split at early <;> exact .inl early
        case h_6 =>
          split at early
          · next made isCall =>
              unfold call? at isCall
              split at isCall
              · next isVisible =>
                  cases isCall
                  by_cases here : line = node.line
                  · subst here
                    rw [callAt?, Table.get?_put_self] at early
                    cases early
                    exact .inr (List.contains_iff_mem.mp isVisible)
                  · exact .inl ((Table.get?_put_of_ne here _ _).symm.trans early)
              · cases isCall
          · exact .inl early
        all_goals exact .inl early
      · exact .inr named

mutual

theorem map_fst_circuitsOf (visible : List String) :
    ∀ node, (circuitsOf visible node).map Prod.fst = (definitions node).map circuitName
  | ⟨line, rule, label, children⟩ => by
      rw [circuitsOf, definitions]
      split
      · rfl
      · exact map_fst_circuitsOfAll visible children

theorem map_fst_circuitsOfAll (visible : List String) :
    ∀ nodes, (circuitsOfAll visible nodes).map Prod.fst = (definitionsOfAll nodes).map circuitName
  | [] => by rw [circuitsOfAll, definitionsOfAll, List.map_nil, List.map_nil]
  | node :: rest => by
      rw [circuitsOfAll, definitionsOfAll, List.map_append, List.map_append, map_fst_circuitsOf visible node,
        map_fst_circuitsOfAll visible rest]

end

theorem callsVisible_ofNodes (inherited formals : List String) {circuits : List (String × Level)}
    {visible : List String} (own : ∀ name ∈ visible, name ∈ inherited ∨ name ∈ circuits.map Prod.fst)
    (bodies : ∀ entry ∈ circuits, CallsVisible visible entry.2) (nodes : List Tree) :
    CallsVisible inherited (ofNodes visible formals circuits nodes) := by
  refine .intro (fun name (member : name ∈ visible) => (own name member).imp_right (fun defined => ?_))
    (fun calls => ?_) (fun entry member => ?_)
  · rw [definesCircuit, circuit?, circuits_ofNodes]
    exact Table.contains_ofList defined
  · rcases visible_of_foldl_recordFlow visible calls with none | named
    · cases none
    · exact named
  · rw [circuits_ofNodes] at member
    exact bodies entry (Table.mem_of_mem_ofList member)

theorem callsVisible_ofBody (inherited formals : List String) (body : Tree) :
    CallsVisible inherited (ofBody inherited formals body) := by
  refine ofBody_induction (motive := CallsVisible) ?_ ?_ inherited formals body
  · exact fun _ _ =>
      .intro (fun name member => .inl member) (fun none => by cases none) (fun entry none => by cases none)
  · rintro inherited formals children visible rfl bodies
    refine callsVisible_ofNodes inherited formals (fun name member => ?_) bodies _
    rw [map_fst_circuitsOfAll]
    exact Sorted.mem_union.mp member

theorem Enclosed.callsVisible {root : Level} {scope : List Level} (calls : CallsVisible [] root)
    (enclosed : Enclosed root scope) : ∃ level outer inherited, scope = level :: outer ∧ CallsVisible inherited level ∧
      ∀ name ∈ inherited, ∃ around ∈ outer, around.definesCircuit name = true := by
  induction enclosed with
  | program => exact ⟨root, [], [], rfl, calls, fun _ none => by cases none⟩
  | @circuit level body scope name _ defined ih =>
      obtain ⟨_, _, inherited, same, here, around⟩ := ih
      cases same
      cases here with
      | @intro _ visible _ own _ bodies =>
          refine ⟨body, level :: scope, visible, rfl, bodies _ (Table.mem_of_get? defined), fun name member => ?_⟩
          rcases own name member with known | here
          · obtain ⟨outside, there, defines⟩ := around name known
            exact ⟨outside, List.mem_cons_of_mem _ there, defines⟩
          · exact ⟨level, List.mem_cons_self, here⟩

theorem Enclosed.exists_defines {root : Level} {outer : List Level} (calls : CallsVisible [] root)
    (enclosed : Enclosed root (level :: outer)) (onLine : level.callAt? line = some call) :
    ∃ around ∈ level :: outer, around.definesCircuit call.name = true := by
  obtain ⟨_, _, inherited, same, here, around⟩ := enclosed.callsVisible calls
  cases same
  cases here with
  | intro own named _ =>
      rcases own call.name (named onLine) with known | here
      · obtain ⟨outside, there, defines⟩ := around call.name known
        exact ⟨outside, List.mem_cons_of_mem _ there, defines⟩
      · exact ⟨level, List.mem_cons_self, here⟩

end Level

namespace CallChain

variable {root : Level} {inner : LevelInstance} {outer : CallChain} {calls : List Nat} {line : Nat} {call : Call}

theorem static_sublist (chain : CallChain) : chain.static.Sublist chain := by
  cases chain with
  | nil => exact .slnil
  | cons inner outer => exact (enclosing_sublist inner.circuit outer).cons_cons inner

theorem exists_findCircuit?_of_mem {chain : CallChain} {name : String} (member : inner ∈ chain)
    (defines : inner.level.definesCircuit name = true) : ∃ body, chain.findCircuit? name = some body := by
  rw [← Option.isSome_iff_exists, findCircuit?_eq, List.findSome?_isSome_iff]
  exact ⟨inner, member, defines⟩

theorem Opened.exists_findCircuit? (visible : Level.CallsVisible [] root) (opened : Opened root (inner :: outer) calls)
    (onLine : inner.level.callAt? line = some call) : ∃ body, findCircuit? call.name (inner :: outer) = some body := by
  obtain ⟨around, there, defines⟩ := opened.enclosed.exists_defines visible onLine
  obtain ⟨definer, member, rfl⟩ : ∃ definer ∈ static (inner :: outer), definer.level = around := List.mem_map.mp there
  exact exists_findCircuit?_of_mem ((static_sublist _).subset member) defines

end CallChain

namespace BlockGraph

open CallChain (Opened findCircuit? callee)

/-- No construction for the level of a tree fails for a circuit that is not defined: in whatever chain of calls it comes
    to a call, it finds the circuit, or the circuit is open already. -/
theorem calls_find_circuits (tree : Tree) :
    (∀ name line, ofLevel (Level.ofTree tree) ≠ .error (.undefinedCircuit name line)) ∧
      ∀ inner outer calls line call, Opened (Level.ofTree tree) (inner :: outer) calls →
        inner.level.callAt? line = some call → ∃ body, findCircuit? call.name (inner :: outer) = some body ∧
          (callee (inner :: outer) call.name line = .ok body ∨
            callee (inner :: outer) call.name line = .error (.recursiveCircuit call.name)) := by
  have visible : Level.CallsVisible [] (Level.ofTree tree) := Level.callsVisible_ofBody [] [] tree
  refine ⟨fun name line failed => ?_, fun inner outer calls line call opened onLine => ?_⟩
  · obtain ⟨_, inner, outer, _, callers, stop, nested, _, faulty⟩ := Inlining.exists_faulty_of_error failed
    cases faulty with
    | circuit _ onLine missing =>
        obtain ⟨body, found⟩ := nested.opened.exists_findCircuit? visible onLine
        cases missing.symm.trans ((nested.findCircuit _ stop).trans found)
  · obtain ⟨body, found⟩ := opened.exists_findCircuit? visible onLine
    refine ⟨body, found, ?_⟩
    rw [callee, found]
    split
    · exact .inr rfl
    · exact .inl rfl

/-- A circuit finds the one beside which it is defined, from inside its own call. -/
theorem beside_calls_find_circuits :
    (∀ name line, ofLevel (Level.ofTree (Draft.ofStatements besideStatements).tree) ≠
      .error (.undefinedCircuit name line)) ∧
    ∃ inner outer calls body, Opened (Level.ofTree (Draft.ofStatements besideStatements).tree) (inner :: outer) calls ∧
      inner.circuit = some "both" ∧ findCircuit? "flip" (inner :: outer) = some body := by
  let root := Level.ofTree (Draft.ofStatements besideStatements).tree
  let program : CallChain := [⟨root, "", BlockGraph.halt, [], none⟩]
  obtain ⟨never, finds⟩ := calls_find_circuits (Draft.ofStatements besideStatements).tree
  have computed : ((program.callee "both" 8).toOption.map fun both => [root.callAt? 8, both.callAt? 6]) =
      some [some ⟨"both", []⟩, some ⟨"flip", []⟩] := by
    decide +kernel
  obtain ⟨both, entered, same⟩ := Option.map_eq_some_iff.mp computed
  simp only [List.cons.injEq, and_true] at same
  have opened : Opened root (⟨both, "" ++ "@" ++ toString 8, 0, [], some "both"⟩ :: program) [8] :=
    .call .program same.1 (Result.of_toOption_eq_some entered)
  obtain ⟨body, found, _⟩ := finds _ _ _ 6 ⟨"flip", []⟩ opened same.2
  exact ⟨never, _, _, _, body, opened, rfl, found⟩

end BlockGraph

end TwoLane
