import TwoLane.Proofs.Block.Place

/-! # Plain names

The names of blocks are glued together, so a program can name a label or a circuit as something else is named.
Names that look like no made-up one do not: the name of a place gives back the open calls and the position.
-/

namespace TwoLane

namespace Level

/-- A level of a program: the program or a circuit defined in one of its levels. -/
inductive Within (root : Level) : Level → Prop
  | top : Within root root
  | circuit {level name body} : Within root level → (name, body) ∈ level.circuits → Within root body

theorem Within.of_single {root body level : Level} {name : String} (within : Within root level)
    (single : root.circuits = [(name, body)]) (leaf : body.circuits = []) : level = root ∨ level = body := by
  induction within with
  | top => exact .inl rfl
  | circuit _ member ih =>
      rcases ih with rfl | rfl
      · rw [single] at member
        cases List.mem_singleton.mp member
        exact .inr rfl
      · rw [leaf] at member
        cases member

/-- A name that a program gives to a label or to a circuit. -/
inductive Names (root : Level) : String → Prop
  | label {level name line} : Within root level → (name, line) ∈ level.labels → Names root name
  | circuit {level name body} : Within root level → (name, body) ∈ level.circuits → Names root name

/-- Names of labels and circuits that look like no name made for a block. A label of the program is not named
    as the entry or the exit, and a circuit labels no line but its first one with its own name. -/
structure PlainNames (root : Level) : Prop where
  unmarked : ∀ {name}, Names root name → BlockName.Unmarked name
  notMade : ∀ {name}, Names root name → ∀ line : Nat,
    name ≠ "return." ++ toString line ∧ name ≠ "after." ++ toString line
  notSentinel : ∀ {name line}, (name, line) ∈ root.labels → name ≠ "start" ∧ name ≠ "halt"
  notSelf : ∀ {level name body line position}, Within root level → (name, body) ∈ level.circuits →
    (name, line) ∈ body.labels → body.position? line = some position → position = 0

theorem ne_made {name : String} (behindCall : name.toList.take 7 ≠ "return.".toList)
    (behindJump : name.toList.take 6 ≠ "after.".toList) (line : Nat) :
    name ≠ "return." ++ toString line ∧ name ≠ "after." ++ toString line := by
  refine ⟨?_, ?_⟩ <;> rintro rfl
  · exact behindCall (by rw [String.toList_append]; rfl)
  · exact behindJump (by rw [String.toList_append]; rfl)

end Level

namespace CallChain.Opened

variable {root : Level} {chain : CallChain} {calls : List Nat}

theorem within (h : Opened root chain calls) : ∀ inner ∈ chain, Level.Within root inner.level := by
  induction h with
  | program =>
      intro inner member
      rw [List.mem_singleton.mp member]
      exact .top
  | call _ _ called ih =>
      intro inner member
      rcases List.mem_cons.mp member with rfl | further
      · obtain ⟨other, there, defined⟩ := exists_of_findCircuit? (callee_eq_ok called).2
        exact .circuit (ih other there) (Table.mem_of_get? defined)
      · exact ih inner further

theorem defined {inner outer circuit} (h : Opened root (inner :: outer) calls)
    (entered : inner.circuit = some circuit) :
    ∃ level, Level.Within root level ∧ (circuit, inner.level) ∈ level.circuits := by
  cases h with
  | program => cases entered
  | call opened _ called =>
      cases entered
      obtain ⟨other, there, defined⟩ := exists_of_findCircuit? (callee_eq_ok called).2
      exact ⟨other.level, opened.within other there, Table.mem_of_get? defined⟩

theorem of_no_calls {inner outer} (h : Opened root (inner :: outer) []) :
    inner.level = root ∧ inner.circuit = none := by
  cases h
  exact ⟨rfl, rfl⟩

end CallChain.Opened

namespace Level.PlainNames

open CallChain

variable {root : Level} {calls : List Nat} {inner inner' : LevelInstance} {outer : CallChain}
  {spot spot' : Spot} {position position' : Nat}

theorem names_label (opened : Opened root (inner :: outer) calls) {name : String} {line : Nat}
    (defined : inner.level.labelLine? name = some line) : Names root name :=
  .label (opened.within inner List.mem_cons_self) (Table.mem_of_get? defined)

theorem names_entry (opened : Opened root (inner :: outer) calls) {circuit : String}
    (entered : inner.circuit = some circuit) : Names root circuit := by
  obtain ⟨level, within, defined⟩ := opened.defined entered
  exact .circuit within defined

theorem return_ne_after (a b : Nat) : "return." ++ toString a ≠ "after." ++ toString b := by
  intro same
  simpa using congrArg (fun word => word.toList.head?) same

theorem append_toString_injective {word : String} {a b : Nat}
    (same : word ++ toString a = word ++ toString b) : a = b := by
  apply BlockName.toString_injective
  simpa [String.append_right_inj] using same

theorem behind_unique {line : Nat}
    (before : ∃ n, inner.level.position? line = some n ∧ position = n + 1)
    (before' : ∃ n, inner.level.position? line = some n ∧ position' = n + 1) :
    position = position' := by
  obtain ⟨n, valid, rfl⟩ := before
  obtain ⟨n', valid', rfl⟩ := before'
  rw [Option.some.inj (valid.symm.trans valid')]

theorem unmarked_word (plain : root.PlainNames) (opened : Opened root (inner :: outer) calls)
    (stands : spot.Stands inner position) : BlockName.Unmarked spot.word := by
  cases spot with
  | label name =>
      obtain ⟨line, defined, _⟩ := stands
      exact plain.unmarked (names_label opened defined)
  | entry circuit => exact plain.unmarked (names_entry opened stands.1)
  | afterCall line =>
      exact BlockName.unmarked_append (by unfold BlockName.Unmarked; decide)
        (BlockName.unmarked_toString line)
  | afterJump line =>
      exact BlockName.unmarked_append (by unfold BlockName.Unmarked; decide)
        (BlockName.unmarked_toString line)

theorem label_entry (plain : root.PlainNames) (opened : Opened root (inner :: outer) calls)
    {name : String} (label : (Spot.label name).Stands inner position)
    (entry : (Spot.entry name).Stands inner position') : position = position' := by
  obtain ⟨line, defined, valid⟩ := label
  obtain ⟨level, within, circuit⟩ := opened.defined entry.1
  rw [plain.notSelf within circuit (Table.mem_of_get? defined) valid, entry.2]

theorem position_unique (plain : root.PlainNames) (opened : Opened root (inner :: outer) calls)
    (stands : spot.Stands inner position) (stands' : spot'.Stands inner position')
    (same : spot.word = spot'.word) : position = position' := by
  cases spot with
  | label name =>
      obtain ⟨line, defined, valid⟩ := id stands
      have notMade := plain.notMade (names_label opened defined)
      cases spot' with
      | label name' =>
          cases same
          obtain ⟨line', defined', valid'⟩ := stands'
          cases defined.symm.trans defined'
          exact Option.some.inj (valid.symm.trans valid')
      | entry circuit =>
          cases same
          exact plain.label_entry opened stands stands'
      | afterCall line' => exact absurd same (notMade line').1
      | afterJump line' => exact absurd same (notMade line').2
  | entry circuit =>
      have notMade := plain.notMade (names_entry opened stands.1)
      cases spot' with
      | label name' =>
          cases same
          exact (plain.label_entry opened stands' stands).symm
      | entry circuit' => rw [stands.2, stands'.2]
      | afterCall line' => exact absurd same (notMade line').1
      | afterJump line' => exact absurd same (notMade line').2
  | afterCall line =>
      cases spot' with
      | label name' =>
          obtain ⟨_, defined, _⟩ := stands'
          exact absurd same.symm (plain.notMade (names_label opened defined) line).1
      | entry circuit' =>
          exact absurd same.symm (plain.notMade (names_entry opened stands'.1) line).1
      | afterCall line' =>
          cases append_toString_injective same
          exact behind_unique stands stands'
      | afterJump line' => exact absurd same (return_ne_after line line')
  | afterJump line =>
      cases spot' with
      | label name' =>
          obtain ⟨_, defined, _⟩ := stands'
          exact absurd same.symm (plain.notMade (names_label opened defined) line).2
      | entry circuit' =>
          exact absurd same.symm (plain.notMade (names_entry opened stands'.1) line).2
      | afterCall line' => exact absurd same.symm (return_ne_after line' line)
      | afterJump line' =>
          cases append_toString_injective same
          exact behind_unique stands stands'

/-- No place is named as the entry or the exit. -/
theorem ne_sentinel (plain : root.PlainNames) (opened : Opened root (inner :: outer) calls)
    (stands : spot.Stands inner position) {sentinel : String}
    (known : sentinel = "start" ∨ sentinel = "halt") : spot.blockName calls ≠ sentinel := by
  intro same
  have unmarked : BlockName.Unmarked sentinel := by
    unfold BlockName.Unmarked
    rcases known with rfl | rfl <;> decide
  have glued : spot.word ++ Spot.markOf calls = sentinel ++ Spot.markOf [] := by
    rw [Spot.markOf, String.append_empty]
    exact same
  obtain ⟨word, rfl⟩ :=
    BlockName.append_markOf_injective (plain.unmarked_word opened stands) unmarked glued
  obtain ⟨level, circuit⟩ := opened.of_no_calls
  cases spot with
  | label name =>
      obtain ⟨line, defined, _⟩ := stands
      rw [level] at defined
      have differ := plain.notSentinel (Table.mem_of_get? defined)
      rcases known with rfl | rfl
      · exact differ.1 word
      · exact differ.2 word
  | entry name => cases circuit.symm.trans stands.1
  | afterCall line =>
      have letter := congrArg (fun word => word.toList.head?) word
      rcases known with rfl | rfl <;> simp [Spot.word] at letter
  | afterJump line =>
      have letter := congrArg (fun word => word.toList.head?) word
      rcases known with rfl | rfl <;> simp [Spot.word] at letter

end Level.PlainNames

end TwoLane
