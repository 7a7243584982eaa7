import Mathlib.Data.List.Induction
import TwoLane.Proofs.Constants.Evaluate
import TwoLane.Proofs.Liveness.Order
import TwoLane.Proofs.Memory.IndexedStep

/-! # A machine with indexed memory

The machine does what evaluation says. Where evaluation gives no value it writes some fixed function of what the
instruction reads.
-/

namespace TwoLane.Indexed

/-- What the machine leaves open: how an index is written in a cell name, what an expression is worth, and
    what is written where evaluation gives no value. -/
structure Machine where
  index : Number → String
  expression : String → List Number → Number
  unknown : Operation → List Number → String → Number

/-- The references whose values an operation uses. -/
def usedNames (operation : Operation) : List String :=
  Liveness.namesOf .usage operation ++ if operation.readsTarget then writtenNames operation else []

def put (cells : Cells) (changed : String) (value : Number) : Cells :=
  fun other => if other = changed then value else cells other

namespace Machine

def value (machine : Machine) (cells : Cells) : Operand → Number
  | .address name => cells (cell name)
  | .literal value => value
  | .expression text names => machine.expression text (names.map (fun name => cells (cell name)))

/-- What is written where evaluation gives no value. -/
def guess (machine : Machine) (cells : Cells) (operation : Operation) (name : String) : Number :=
  machine.unknown operation ((usedNames operation).map (fun name => cells (cell name))) name

def loaded? (machine : Machine) (cells : Cells) : Operation → Option Number
  | .classical opcode (_ :: .address region :: picked :: _) =>
      if opcode = "LOAD" then
        some (cells (slot region (machine.index (machine.value cells picked))))
      else none
  | _ => none

/-- The value written to a reference by an instruction that is no store. -/
def outcome (machine : Machine) (cells : Cells) (opcode : String) (operands : List Operand)
    (name : String) : Number :=
  ((Evaluation.valueIn (Evaluation.writes opcode operands (read cells)) name).or
    (machine.loaded? cells (.classical opcode operands))).getD
      (machine.guess cells (.classical opcode operands) name)

/-- Write to all references that an instruction writes. -/
def writeAll (machine : Machine) (cells : Cells) (opcode : String) (operands : List Operand) : Cells :=
  (writtenNames (.classical opcode operands)).foldl
    (fun acc name => put acc (cell name) (machine.outcome cells opcode operands name)) cells

def picks? : Operation → Option (String × Operand × List Operand)
  | .classical opcode (.address region :: picked :: rest) =>
      if opcode = "STORE" then some (region, picked, rest) else none
  | _ => none

/-- Run an instruction. Only classical instructions change cells. -/
def exec (machine : Machine) (cells : Cells) : Operation → Cells
  | .classical opcode operands =>
      match picks? (.classical opcode operands) with
      | some (region, picked, rest) =>
          put cells (slot region (machine.index (machine.value cells picked)))
            ((rest.head?.map (machine.value cells)).getD
              (machine.guess cells (.classical opcode operands) region))
      | none => machine.writeAll cells opcode operands
  | _ => cells

theorem picks?_eq_some {operation : Operation} {region : String} {picked : Operand}
    {rest : List Operand} (h : picks? operation = some (region, picked, rest)) :
    operation = .classical "STORE" (.address region :: picked :: rest) := by
  unfold picks? at h
  split at h
  · next opcode _ _ _ =>
      by_cases store : opcode = "STORE"
      · rw [if_pos store] at h
        cases h
        rw [store]
      · rw [if_neg store] at h
        cases h
  · cases h

theorem writeAll_of_ne {machine : Machine} {cells : Cells} {opcode : String}
    {operands : List Operand} {other : String}
    (apart : ∀ name ∈ writtenNames (.classical opcode operands), other ≠ cell name) :
    machine.writeAll cells opcode operands other = cells other := by
  unfold writeAll
  generalize writtenNames (.classical opcode operands) = names at apart
  generalize machine.outcome cells opcode operands = outcome
  induction names generalizing cells with
  | nil => rfl
  | cons name rest ih =>
      rw [List.foldl_cons, ih (fun n member => apart n (List.mem_cons_of_mem _ member))]
      exact if_neg (apart name List.mem_cons_self)

theorem foldl_put {outcome : String → Number} {names : List String} {cells : Cells}
    {name : String} {value : Number} (member : name ∈ names)
    (same : ∀ n ∈ names, cell n = cell name → outcome n = value) :
    names.foldl (fun acc n => put acc (cell n) (outcome n)) cells (cell name) = value := by
  induction names using List.reverseRecOn with
  | nil => cases member
  | append_singleton rest last ih =>
      rw [List.foldl_append]
      simp only [List.foldl_cons, List.foldl_nil, put]
      split
      · next here => exact same last (by simp) here.symm
      · next differ =>
          refine ih ?_ (fun n there => same n (List.mem_append_left _ there))
          rcases List.mem_append.mp member with there | here
          · exact there
          · exact absurd (congrArg cell (List.mem_singleton.mp here)) differ

theorem valueIn_writes {cells : Cells} {opcode : String} {operands : List Operand} {name : String}
    {value : Number}
    (known : Evaluation.valueIn (Evaluation.writes opcode operands (read cells)) name = some value) :
    name ∈ writtenNames (.classical opcode operands) ∧
      ∀ n ∈ writtenNames (.classical opcode operands), cell n = cell name →
        Evaluation.valueIn (Evaluation.writes opcode operands (read cells)) n = some value := by
  rw [writtenNames_classical]
  unfold Evaluation.writes at known ⊢
  cases operands with
  | nil => cases known
  | cons first rest =>
      cases first with
      | literal _ => cases known
      | expression _ _ => cases known
      | address target =>
          by_cases exchange : opcode = "EXCHANGE"
          · subst exchange
            cases rest with
            | nil => cases known
            | cons second rest =>
                cases second with
                | literal _ => cases known
                | expression _ _ => cases known
                | address other =>
                    simp [Evaluation.valueIn, Operation.writtenCount, Operand.addresses,
                      Operand.address?, read, List.find?_cons] at known ⊢
                    grind
          · simp [exchange, Evaluation.valueIn, Operation.writtenCount, Operand.addresses,
              Operand.address?, List.find?_cons] at known ⊢
            grind

theorem value_of_read {machine : Machine} {cells : Cells} {operand : Operand} {value : Number}
    (known : read cells operand = some value) : machine.value cells operand = value := by
  cases operand with
  | address name => exact Option.some.inj known
  | literal _ => exact Option.some.inj known
  | expression _ _ => cases known

theorem step_writeAll (machine : Machine) (cells : Cells) {opcode : String} {operands : List Operand}
    (other : picks? (.classical opcode operands) = none) :
    Step machine.index (.classical opcode operands) cells
      (machine.writeAll cells opcode operands) where
  frame := by
    intro changed untouched
    refine writeAll_of_ne ?_
    rintro name member rfl
    refine untouched ⟨name, member, ?_⟩
    split
    · next store =>
        have unknown : indexOf? cells (.classical opcode operands) = none := by
          have store : opcode = "STORE" := by simpa [isStore] using store
          unfold indexOf?
          unfold picks? at other
          split
          · simp_all
          · rfl
        rw [unknown]
        exact inRow_cell name
    · rfl
  value := by
    intro opcode' operands' name value operation _ known
    cases operation
    obtain ⟨member, same⟩ := valueIn_writes known
    refine foldl_put member ?_
    intro n there sameCell
    simp [outcome, same n there sameCell]
  load := by
    intro target region picked rest i operation known
    cases operation
    refine foldl_put (by simp [writtenNames_classical, Operation.writtenCount, Operand.addresses]) ?_
    intro n _ _
    have silent : Evaluation.valueIn (Evaluation.writes "LOAD"
        (.address target :: .address region :: picked :: rest) (read cells)) n = none :=
      Evaluation.valueIn_writes_eq_none (fun _ => rfl) (by decide)
    simp [outcome, silent, loaded?, value_of_read known]
  store := by
    intro region picked stored rest i value operation
    cases operation
    cases other

/-- The machine executes classical instructions. -/
theorem step_exec (machine : Machine) (cells : Cells) (opcode : String) (operands : List Operand) :
    Step machine.index (.classical opcode operands) cells
      (machine.exec cells (.classical opcode operands)) := by
  cases found : picks? (.classical opcode operands) with
  | none =>
      simp only [exec, found]
      exact step_writeAll machine cells found
  | some parts =>
      obtain ⟨region, picked, rest⟩ := parts
      simp only [exec, found]
      cases picks?_eq_some found
      exact {
        frame := by
          intro other untouched
          refine if_neg ?_
          rintro rfl
          refine untouched ⟨region, ?_, ?_⟩
          · simp [writtenNames_classical, Operation.writtenCount, Operand.addresses]
          · rw [if_pos (by rfl)]
            split
            · next i known => rw [value_of_read known]
            · exact inRow_slot _ _
        value := by
          intro opcode' operands' name value operation notStore
          cases operation
          exact absurd rfl notStore
        load := by
          intro target region' picked' rest' i operation
          exact absurd (Operation.classical.inj operation).1 (by decide)
        store := by
          intro region' picked' stored rest' i value operation known stored
          cases operation
          simp [put, value_of_read known, value_of_read stored] }

/-- What touches no qubit and is no classical operation changes nothing. -/
theorem step_exec_of_isStep (machine : Machine) (cells : Cells) {operation : Operation} (step : IsStep operation) :
    Step machine.index operation cells (machine.exec cells operation) := by
  cases step with
  | classical opcode operands => exact machine.step_exec cells opcode operands
  | _ =>
      exact {
        frame := fun _ => rfl
        value := by intro opcode operands name value operation; cases operation
        load := by intro target region picked rest i operation; cases operation
        store := by intro region picked stored rest i value operation; cases operation }

/-! ## Runs -/

/-- Run instructions one after the other. -/
def run (machine : Machine) (cells : Cells) (operations : List Operation) : Cells :=
  operations.foldl machine.exec cells

theorem run_take_succ (machine : Machine) (cells : Cells) {operations : List Operation} {i : Nat}
    {operation : Operation} (found : operations[i]? = some operation) :
    machine.run cells (operations.take (i + 1)) =
      machine.exec (machine.run cells (operations.take i)) operation := by
  rw [List.take_add_one, found, run, List.foldl_append]
  rfl

theorem run_append (machine : Machine) (cells : Cells) (first further : List Operation) :
    machine.run cells (first ++ further) = machine.run (machine.run cells first) further :=
  List.foldl_append

/-- The reference that decides a conditional jump. -/
def condition? : Operation → Option String
  | .jumpWhen _ name => some name
  | .jumpUnless _ name => some name
  | _ => none

/-- The values that decide the conditional jumps passed in a run. -/
def conditions (machine : Machine) (cells : Cells) : List Operation → List Number
  | [] => []
  | operation :: rest =>
      ((condition? operation).map (fun name => cells (cell name))).toList ++
        conditions machine (machine.exec cells operation) rest

theorem conditions_append (machine : Machine) (cells : Cells) (first further : List Operation) :
    machine.conditions cells (first ++ further) =
      machine.conditions cells first ++ machine.conditions (machine.run cells first) further := by
  induction first generalizing cells with
  | nil => rfl
  | cons operation rest ih =>
      simp only [List.cons_append, conditions, ih, List.append_assoc]
      rfl

/-! ## What an instruction uses -/

variable {machine : Machine} {a b : Cells}

theorem value_congr {operand : Operand}
    (same : ∀ name ∈ operand.addresses, a (cell name) = b (cell name)) :
    machine.value a operand = machine.value b operand := by
  cases operand with
  | address name => exact same name (List.mem_singleton_self name)
  | literal _ => rfl
  | expression text names => exact congrArg (machine.expression text) (List.map_congr_left same)

theorem read_congr {operand : Operand}
    (same : ∀ name ∈ operand.addresses, a (cell name) = b (cell name)) :
    read a operand = read b operand := by
  cases operand with
  | address name => exact congrArg some (same name (List.mem_singleton_self name))
  | literal _ => rfl
  | expression _ _ => rfl

theorem usage_used {operation : Operation} {name : String}
    (member : name ∈ Liveness.namesOf .usage operation) : name ∈ usedNames operation :=
  List.mem_append_left _ member

theorem written_used {operation : Operation} (updates : operation.readsTarget = true) {name : String}
    (member : name ∈ writtenNames operation) : name ∈ usedNames operation := by
  rw [usedNames, if_pos updates]
  exact List.mem_append_right _ member

theorem guess_congr {operation : Operation}
    (same : ∀ name ∈ usedNames operation, a (cell name) = b (cell name)) (name : String) :
    machine.guess a operation name = machine.guess b operation name := by
  rw [guess, guess, List.map_congr_left same]

/-- The names used by an operation are those of the operands behind the written ones, and of all operands
    where it reads what it writes. -/
theorem addresses_used {opcode : String} {operands : List Operand} {operand : Operand}
    (member : operand ∈ operands.drop (Operation.writtenCount opcode)) {name : String}
    (named : name ∈ operand.addresses) : name ∈ usedNames (.classical opcode operands) := by
  refine usage_used ?_
  rw [usage_classical]
  exact List.mem_flatMap.mpr ⟨operand, member, named⟩

theorem addresses_used_of_updates {opcode : String} {operands : List Operand}
    (updates : Operation.updatingOpcodes.contains opcode = true) {operand : Operand}
    (member : operand ∈ operands) {name : String} (named : name ∈ operand.addresses) :
    name ∈ usedNames (.classical opcode operands) := by
  rw [← List.take_append_drop (Operation.writtenCount opcode) operands] at member
  rcases List.mem_append.mp member with written | behind
  · refine written_used (show (Operation.classical opcode operands).readsTarget = true from updates) ?_
    rw [writtenNames_classical]
    exact List.mem_flatMap.mpr ⟨operand, written, named⟩
  · exact addresses_used behind named

/-- The value written follows from the cells of the names used, and for a load from those that it can pick. -/
theorem outcome_congr {opcode : String} {operands : List Operand}
    (same : ∀ name ∈ usedNames (.classical opcode operands), a (cell name) = b (cell name))
    (rows : ∀ target region rest, opcode = "LOAD" → operands = target :: .address region :: rest →
      ∀ picked, InRow region picked → a picked = b picked) :
    machine.outcome a opcode operands = machine.outcome b opcode operands := by
  funext name
  have written : Evaluation.writes opcode operands (read a) =
      Evaluation.writes opcode operands (read b) := by
    refine Evaluation.writes_congr ?_ ?_
    · intro operand member
      exact read_congr (fun name named => same name (addresses_used member named))
    · intro updates operand member
      exact read_congr (fun name named => same name (addresses_used_of_updates updates member named))
  have loaded : machine.loaded? a (.classical opcode operands) =
      machine.loaded? b (.classical opcode operands) := by
    unfold loaded?
    split
    · next first region picked rest operation =>
        cases operation
        split
        · next load =>
            subst load
            have member : picked ∈ List.drop (Operation.writtenCount "LOAD")
                (first :: .address region :: picked :: rest) := by simp [Operation.writtenCount]
            have index : machine.value a picked = machine.value b picked :=
              value_congr (fun name named => same name (addresses_used member named))
            rw [index]
            exact congrArg some (rows first region _ rfl rfl _ (inRow_slot region _))
        · rfl
    · rfl
  rw [outcome, outcome, written, loaded, guess_congr same]

theorem foldl_put_congr {outcome : String → Number} {names : List String} {other : String}
    (kept : (∀ name ∈ names, other ≠ cell name) → a other = b other) :
    names.foldl (fun acc name => put acc (cell name) (outcome name)) a other =
      names.foldl (fun acc name => put acc (cell name) (outcome name)) b other := by
  induction names generalizing a b with
  | nil => exact kept (fun _ member => absurd member List.not_mem_nil)
  | cons name rest ih =>
      refine ih ?_
      intro further
      simp only [put]
      split
      · rfl
      · next differ => exact kept (List.forall_mem_cons.mpr ⟨differ, further⟩)

theorem writeAll_congr {opcode : String} {operands : List Operand} {other : String}
    (outcomes : machine.outcome a opcode operands = machine.outcome b opcode operands)
    (kept : (∀ name ∈ writtenNames (.classical opcode operands), other ≠ cell name) →
      a other = b other) :
    machine.writeAll a opcode operands other = machine.writeAll b opcode operands other := by
  rw [writeAll, writeAll, outcomes]
  exact foldl_put_congr kept

end Machine

theorem used_live {node : Instruction} (assigns : Liveness.Assigns node) {live : List String} {name : String}
    (member : name ∈ usedNames node.operation) : name ∈ Liveness.memoryBefore node live := by
  rw [Liveness.mem_memoryBefore]
  rcases List.mem_append.mp member with reads | written
  · exact .inr (.inl reads)
  · split at written
    · next updates =>
        obtain ⟨o, there, rfl, _⟩ := assigns name written
        refine .inr (.inr (List.mem_map_of_mem (List.mem_filter.mpr ⟨there, ?_⟩)))
        rw [updates, Bool.or_true]
    · cases written

/-- A machine that writes zero where evaluation gives no value. -/
def zeroMachine : Machine :=
  ⟨Number.text, fun _ _ => .ofReal 0, fun _ _ _ => .ofReal 0⟩

end TwoLane.Indexed
