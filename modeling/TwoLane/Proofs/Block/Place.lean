import Mathlib.Data.List.Nodup
import TwoLane.Proofs.Block.BlockName
import TwoLane.Proofs.Sorted

/-! # Places of a program

A place is a position in an instance of a level. An instance is the program or a circuit behind a chain of open
calls, and the lines of these calls say which one. Blocks are asked for at places: at a label, at the
entry of a circuit, and behind a call or a conditional jump.
-/

namespace TwoLane

/-! ## Levels as tables -/

/-- The tables of a level, and of the circuits in it, hold one entry for each key, and its code lines are
    distinct. -/
inductive Level.WellFormed : Level → Prop
  | intro {level : Level} :
      (level.labels.map Prod.fst).Nodup → level.lines.Nodup →
      (∀ {name body}, (name, body) ∈ level.circuits → Level.WellFormed body) →
      Level.WellFormed level

namespace Level

theorem WellFormed.labels {level : Level} (wf : level.WellFormed) :
    (level.labels.map Prod.fst).Nodup := by
  cases wf
  assumption

theorem WellFormed.lines {level : Level} (wf : level.WellFormed) : level.lines.Nodup := by
  cases wf
  assumption

theorem WellFormed.circuit {level body : Level} {name} (wf : level.WellFormed)
    (found : level.circuit? name = some body) : body.WellFormed := by
  obtain ⟨_, _, circuits⟩ := wf
  exact circuits (Table.mem_of_get? found)

theorem labelLine?_of_labelAt? {level : Level} {line name} (wf : level.WellFormed)
    (h : level.labelAt? line = some name) : level.labelLine? name = some line := by
  obtain ⟨entry, found, rfl⟩ := Option.map_eq_some_iff.mp h
  have onLine : entry.2 = line := by simpa using List.find?_some found
  refine Table.get?_of_mem wf.labels ?_
  rw [← onLine]
  exact List.mem_of_find?_eq_some found

theorem position?_of_getElem? {level : Level} {line position} (wf : level.WellFormed)
    (h : level.lines[position]? = some line) : level.position? line = some position := by
  obtain ⟨inside, rfl⟩ := List.getElem?_eq_some_iff.mp h
  refine List.findIdx?_eq_some_iff_getElem.mpr ⟨inside, by simp, ?_⟩
  intro earlier before
  have differ : level.lines[earlier] ≠ level.lines[position] := by
    intro same
    exact absurd ((List.Nodup.getElem_inj_iff wf.lines).mp same) (by omega)
  simpa using differ

theorem getElem?_of_position? {level : Level} {line position}
    (h : level.position? line = some position) : level.lines[position]? = some line := by
  obtain ⟨inside, same, _⟩ := List.findIdx?_eq_some_iff_getElem.mp h
  rw [List.getElem?_eq_getElem inside]
  simpa using same

end Level

/-! ## Chains of calls -/

namespace CallChain

/-- The chains of instances that calls can open, with the lines of the open calls, the innermost one first. -/
inductive Opened (root : Level) : CallChain → List Nat → Prop
  | program : Opened root [⟨root, "", BlockGraph.halt, [], none⟩] []
  | call {inner outer calls line call body after bindings} :
      Opened root (inner :: outer) calls →
      inner.level.callAt? line = some call →
      CallChain.callee (inner :: outer) call.name line = .ok body →
      Opened root
        (⟨body, inner.mark ++ "@" ++ toString line, after, bindings, some call.name⟩ :: inner :: outer)
        (line :: calls)

theorem exists_of_findCircuit? {chain : CallChain} {name body}
    (found : chain.findCircuit? name = some body) :
    ∃ inner ∈ chain, inner.level.circuit? name = some body := by
  induction chain with
  | nil => cases found
  | cons inner outer ih =>
      simp only [findCircuit?] at found
      split at found
      · next body' here =>
          cases found
          exact ⟨inner, List.mem_cons_self, here⟩
      · obtain ⟨other, member, there⟩ := ih found
        exact ⟨other, List.mem_cons_of_mem _ member, there⟩

theorem callee_eq_ok {chain : CallChain} {name line body} (h : chain.callee name line = .ok body) :
    chain.isOpen name = false ∧ chain.findCircuit? name = some body := by
  unfold callee at h
  split at h
  · cases h
  · next closed =>
      refine ⟨by simpa using closed, ?_⟩
      split at h
      · next found =>
          cases h
          exact found
      · cases h

namespace Opened

variable {root : Level} {chain : CallChain} {calls : List Nat}

theorem wellFormed (wf : root.WellFormed) (h : Opened root chain calls) :
    ∀ inner ∈ chain, inner.level.WellFormed := by
  induction h with
  | program =>
      intro inner member
      rw [List.mem_singleton.mp member]
      exact wf
  | call _ _ called ih =>
      intro inner member
      rcases List.mem_cons.mp member with rfl | further
      · obtain ⟨other, there, defined⟩ := exists_of_findCircuit? (callee_eq_ok called).2
        exact (ih other there).circuit defined
      · exact ih inner further

theorem exists_cons (h : Opened root chain calls) : ∃ inner outer, chain = inner :: outer := by
  cases h with
  | program => exact ⟨_, _, rfl⟩
  | call => exact ⟨_, _, rfl⟩

theorem mark_eq {inner outer} (h : Opened root (inner :: outer) calls) :
    inner.mark = Spot.markOf calls := by
  generalize same : inner :: outer = chain at h
  induction h generalizing inner outer with
  | program =>
      cases same
      rfl
  | call _ _ _ ih =>
      cases same
      simp [Spot.markOf, ih rfl]

end Opened

/-- What a chain says about levels and open circuits, without exits and bindings. -/
def outline (chain : CallChain) : List (Level × Option String) :=
  chain.map (fun inner => (inner.level, inner.circuit))

theorem of_outline_cons {inner inner' : LevelInstance} {outer outer' : CallChain}
    (h : outline (inner :: outer) = outline (inner' :: outer')) :
    inner.level = inner'.level ∧ inner.circuit = inner'.circuit ∧ outline outer = outline outer' := by
  simp only [outline, List.map_cons, List.cons.injEq, Prod.mk.injEq] at h
  exact ⟨h.1.1, h.1.2, h.2⟩

theorem findCircuit?_congr {a b : CallChain} (h : a.outline = b.outline) (name : String) :
    a.findCircuit? name = b.findCircuit? name := by
  induction a generalizing b with
  | nil =>
      cases b with
      | nil => rfl
      | cons _ _ => cases h
  | cons inner outer ih =>
      cases b with
      | nil => cases h
      | cons inner' outer' =>
          obtain ⟨level, _, further⟩ := of_outline_cons h
          simp only [findCircuit?, level, ih further]

theorem Opened.outline_unique {root : Level} {a b : CallChain} {calls : List Nat}
    (ha : Opened root a calls) (hb : Opened root b calls) : a.outline = b.outline := by
  induction ha generalizing b with
  | program =>
      cases hb
      rfl
  | @call inner outer calls line call body after bindings opened onLine called ih =>
      cases hb with
      | @call inner' outer' _ _ call' body' after' bindings' opened' onLine' called' =>
          have same := ih opened'
          rw [(of_outline_cons same).1, onLine'] at onLine
          cases onLine
          have bodies : some body = some body' := by
            rw [← (callee_eq_ok called).2, ← (callee_eq_ok called').2]
            exact findCircuit?_congr same _
          cases bodies
          simp only [outline, List.map_cons] at same ⊢
          rw [same]

theorem findLabel?_congr {a b : CallChain} (h : a.outline = b.outline) {label : String}
    {home : CallChain} {mark : String} {position : Nat}
    (found : a.findLabel? label = some (home, mark, position)) :
    ∃ home' mark', b.findLabel? label = some (home', mark', position) ∧
      home.outline = home'.outline := by
  induction a generalizing b with
  | nil => cases found
  | cons inner outer ih =>
      cases b with
      | nil => cases h
      | cons inner' outer' =>
          obtain ⟨level, _, further⟩ := of_outline_cons h
          simp only [findLabel?, level] at found ⊢
          cases here : (inner'.level.labelLine? label).bind inner'.level.position? with
          | some there =>
              rw [here] at found
              cases found
              exact ⟨_, _, rfl, h⟩
          | none =>
              rw [here] at found
              exact ih further found

end CallChain

/-! ## Spots -/

namespace Spot

/-- Whether a spot is at a position of a level instance. -/
def Stands (inner : LevelInstance) : Spot → Nat → Prop
  | .label name, position =>
      ∃ line, inner.level.labelLine? name = some line ∧ inner.level.position? line = some position
  | .entry circuit, position => inner.circuit = some circuit ∧ position = 0
  | .afterCall line, position | .afterJump line, position =>
      ∃ before, inner.level.position? line = some before ∧ position = before + 1

theorem Stands.congr {inner other : LevelInstance} {spot : Spot} {position : Nat}
    (stands : spot.Stands other position) (level : inner.level = other.level)
    (circuit : inner.circuit = other.circuit) : spot.Stands inner position := by
  cases spot <;> simpa only [Stands, level, circuit] using stands

end Spot

namespace CallChain

theorem Opened.findLabel {root : Level} {chain home : CallChain} {calls : List Nat}
    {label mark : String} {position : Nat} (opened : Opened root chain calls)
    (found : chain.findLabel? label = some (home, mark, position)) :
    ∃ homeCalls inner outer, home = inner :: outer ∧ Opened root home homeCalls ∧
      mark = inner.mark ∧ (Spot.label label).Stands inner position := by
  induction opened with
  | program =>
      simp only [findLabel?] at found
      split at found
      · next here =>
          cases found
          obtain ⟨line, defined, valid⟩ := Option.bind_eq_some_iff.mp here
          exact ⟨[], _, _, rfl, .program, rfl, line, defined, valid⟩
      · cases found
  | call opened onLine called ih =>
      rw [findLabel?] at found
      split at found
      · next here =>
          cases found
          obtain ⟨line, defined, valid⟩ := Option.bind_eq_some_iff.mp here
          exact ⟨_, _, _, rfl, .call opened onLine called, rfl, line, defined, valid⟩
      · exact ih found

end CallChain

end TwoLane
