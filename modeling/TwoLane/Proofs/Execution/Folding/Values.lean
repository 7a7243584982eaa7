import TwoLane.Optimize.Folding
import TwoLane.Proofs.Execution.Facts

/-! # Values that folding uses

A substituted operand has the value of the reference, and the move of a known result writes that result. So what
folding makes of a classical instruction does the same wherever what is looked up in front of it is there.
-/

namespace TwoLane.Execution

open Indexed (writtenNames usedNames)

variable {σ : Type} {device : Device σ} {list : InstructionList} {isEntry : Bool} {node : Instruction}
  {site : Site} {state : State σ}

/-! ## Substitution -/

theorem value_substitute (known : Known device list isEntry node state) (operand : Operand) :
    device.value state (Folding.substitute list node operand) = device.value state operand := by
  cases operand with
  | address name =>
      rw [Folding.substitute]
      cases looked : list.memoryBefore? node name with
      | none => rfl
      | some value => exact (known.memory looked).symm
  | literal _ => rfl
  | expression _ _ => rfl

theorem read_substitute (known : Known device list isEntry node state) (operand : Operand) :
    Device.read state (Folding.substitute list node operand) = Device.read state operand := by
  cases operand with
  | address name =>
      rw [Folding.substitute]
      cases looked : list.memoryBefore? node name with
      | none => rfl
      | some value => exact congrArg some (known.memory looked).symm
  | literal _ => rfl
  | expression _ _ => rfl

theorem addresses_substitute (list : InstructionList) (node : Instruction) (operand : Operand) :
    (Folding.substitute list node operand).addresses ⊆ operand.addresses := by
  cases operand with
  | address name =>
      rw [Folding.substitute]
      cases list.memoryBefore? node name with
      | none => exact List.Subset.refl _
      | some _ => exact List.nil_subset _
  | literal _ => exact List.Subset.refl _
  | expression _ _ => exact List.Subset.refl _

section Operands

variable {opcode : String} {operands : List Operand}

theorem getElem?_substituteOperands (i : Nat) :
    (Folding.substituteOperands list node opcode operands)[i]? = (operands[i]?).map (fun operand =>
      if i < Operation.writtenCount opcode || node.operation.fixedOperand i then operand
      else Folding.substitute list node operand) := by
  rw [Folding.substituteOperands, List.getElem?_map, List.getElem?_zipIdx, Nat.zero_add, Option.map_map]
  rfl

theorem take_substituteOperands (list : InstructionList) (node : Instruction) (opcode : String)
    (operands : List Operand) :
    (Folding.substituteOperands list node opcode operands).take (Operation.writtenCount opcode) =
      operands.take (Operation.writtenCount opcode) := by
  apply List.ext_getElem?
  intro i
  rw [List.getElem?_take, List.getElem?_take]
  split
  · next written =>
      rw [getElem?_substituteOperands]
      cases operands[i]? with
      | none => rfl
      | some operand => simp [written]
  · rfl

theorem map_substituteOperands {β : Type} {view : Operand → β}
    (same : ∀ operand, view (Folding.substitute list node operand) = view operand) :
    (Folding.substituteOperands list node opcode operands).map view = operands.map view := by
  apply List.ext_getElem?
  intro i
  rw [List.getElem?_map, List.getElem?_map, getElem?_substituteOperands, Option.map_map]
  congr 1
  funext operand
  simp only [Function.comp_apply]
  split
  · rfl
  · exact same operand

theorem addresses_substituteOperands :
    (Folding.substituteOperands list node opcode operands).flatMap Operand.addresses ⊆
      operands.flatMap Operand.addresses := by
  intro name member
  obtain ⟨operand, there, named⟩ := List.mem_flatMap.mp member
  obtain ⟨⟨original, i⟩, place, rfl⟩ := List.mem_map.mp there
  have own : original ∈ operands := (List.mem_zipIdx' place).2 ▸ List.getElem_mem _
  refine List.mem_flatMap.mpr ⟨original, own, ?_⟩
  split at named
  · exact named
  · exact addresses_substitute list node original named

theorem writtenNames_substituteOperands :
    writtenNames (.classical opcode (Folding.substituteOperands list node opcode operands)) =
      writtenNames (.classical opcode operands) := by
  rw [Indexed.writtenNames_classical, Indexed.writtenNames_classical, take_substituteOperands]

theorem getElem?_written {i : Nat} (written : i < Operation.writtenCount opcode) :
    (Folding.substituteOperands list node opcode operands)[i]? = operands[i]? := by
  have same := congrArg (fun all : List Operand => all[i]?)
    (take_substituteOperands list node opcode operands)
  simpa only [List.getElem?_take, if_pos written] using same

theorem writes_substituteOperands (known : Known device list isEntry node state) :
    Evaluation.writes opcode (Folding.substituteOperands list node opcode operands) (Device.read state) =
      Evaluation.writes opcode operands (Device.read state) := by
  have reads : ∀ i : Nat,
      ((Folding.substituteOperands list node opcode operands)[i]?).bind (Device.read state) =
        (operands[i]?).bind (Device.read state) := by
    intro i
    rw [getElem?_substituteOperands]
    cases operands[i]? with
    | none => rfl
    | some operand =>
        rw [Option.map_some, Option.bind_some, Option.bind_some]
        split
        · rfl
        · exact read_substitute known operand
  have first : (Folding.substituteOperands list node opcode operands)[0]? = operands[0]? := by
    refine getElem?_written ?_
    unfold Operation.writtenCount
    split
    · decide
    · decide
  unfold Evaluation.writes
  by_cases exchange : opcode = "EXCHANGE"
  · have second : (Folding.substituteOperands list node opcode operands)[1]? = operands[1]? := by
      refine getElem?_written ?_
      rw [exchange]
      decide
    simp only [reads, first, second]
  · simp only [reads, first, if_neg exchange]

theorem exec_substituteOperands (known : Known device list isEntry node state) :
    device.exec site (.classical opcode (Folding.substituteOperands list node opcode operands)) state =
      device.exec site (.classical opcode operands) state := by
  have values : (Folding.substituteOperands list node opcode operands).map (device.value state) =
      operands.map (device.value state) := map_substituteOperands (value_substitute known)
  have inputs : (Device.inputs opcode (Folding.substituteOperands list node opcode operands)).map
      (device.value state) = (Device.inputs opcode operands).map (device.value state) := by
    unfold Device.inputs
    split
    · exact values
    · rw [List.map_drop, List.map_drop, values]
  simp only [Device.exec, Device.result, writtenNames_substituteOperands, writes_substituteOperands known,
    inputs]

end Operands

/-! ## Known results -/

theorem getElem?_of_address {operands : List Operand} {i : Nat} {name : String}
    (plain : (operands[i]?).bind Operand.address? = some name) : operands[i]? = some (.address name) := by
  obtain ⟨operand, found, isAddress⟩ := Option.bind_eq_some_iff.mp plain
  cases operand with
  | address _ =>
      cases isAddress
      exact found
  | literal _ => cases isAddress
  | expression _ _ => cases isAddress

/-- What evaluation says about a single write it says about the reference. -/
theorem valueIn_of_mem_writes {opcode : String} {operands : List Operand} {valueOf : Operand → Option Number}
    {written : Written} (member : written ∈ Evaluation.writes opcode operands valueOf) :
    Evaluation.valueIn (Evaluation.writes opcode operands valueOf) written.name = written.value := by
  unfold Evaluation.writes at member ⊢
  dsimp only at member ⊢
  cases target : (operands[0]?).bind Operand.address? with
  | none =>
      rw [target] at member
      cases member
  | some first =>
      rw [target] at member
      dsimp only at member ⊢
      by_cases exchange : opcode = "EXCHANGE"
      · rw [if_pos exchange] at member ⊢
        cases other : (operands[1]?).bind Operand.address? with
        | none =>
            rw [other] at member
            cases member
        | some second =>
            rw [other] at member
            dsimp only at member ⊢
            rcases List.mem_cons.mp member with rfl | member
            · simp [Evaluation.valueIn]
            · cases List.mem_singleton.mp member
              by_cases same : first = second
              · subst same
                simp [Evaluation.valueIn, getElem?_of_address target, getElem?_of_address other]
              · simp [Evaluation.valueIn, same]
      · rw [if_neg exchange] at member ⊢
        cases List.mem_singleton.mp member
        simp [Evaluation.valueIn]

theorem target_of_mem_writes {opcode : String} {operands : List Operand} {valueOf : Operand → Option Number}
    (single : opcode ≠ "EXCHANGE") {written : Written}
    (member : written ∈ Evaluation.writes opcode operands valueOf) :
    operands[0]? = some (.address written.name) := by
  unfold Evaluation.writes at member
  dsimp only at member
  cases target : (operands[0]?).bind Operand.address? with
  | none =>
      rw [target] at member
      cases member
  | some first =>
      rw [target] at member
      dsimp only at member
      rw [if_neg single] at member
      cases List.mem_singleton.mp member
      exact getElem?_of_address target

theorem writtenNames_move (name : String) (value : Number) :
    writtenNames (.classical "MOVE" [.address name, .literal value]) = [name] := by
  rw [Indexed.writtenNames_classical]
  rfl

theorem result_move (name : String) (value : Number) :
    device.result state "MOVE" [.address name, .literal value] name = value := by
  simp [Device.result, Evaluation.writes, Evaluation.valueIn, Evaluation.result?, Operand.address?, Device.read]

theorem exec_move (name : String) (value : Number) :
    device.exec site (.classical "MOVE" [.address name, .literal value]) state =
      { state with memory := fun other => if other = name then value else state.memory other } := by
  simp only [Device.exec, writtenNames_move, List.mem_singleton]
  congr 1
  funext other
  split
  · next here => rw [here, result_move]
  · rfl

/-- A simplified instruction stays, or it moves the known result to the only reference that it writes. -/
theorem simplify_writes (opcode : String) (operands : List Operand) (valueOf : Operand → Option Number) :
    Folding.simplify opcode operands (Evaluation.writes opcode operands valueOf) = .classical opcode operands ∨
      ∃ name value, opcode ≠ "EXCHANGE" ∧
        (⟨name, some value⟩ : Written) ∈ Evaluation.writes opcode operands valueOf ∧
        Folding.simplify opcode operands (Evaluation.writes opcode operands valueOf) =
          .classical "MOVE" [.address name, .literal value] := by
  unfold Folding.simplify
  split
  · exact .inl rfl
  · next other =>
      obtain ⟨_, single⟩ := not_or.mp other
      split
      · next target name value first written =>
          have member : (⟨name, some value⟩ : Written) ∈ Evaluation.writes opcode operands valueOf := by
            rw [written]
            exact List.mem_singleton_self _
          cases first.symm.trans (target_of_mem_writes single member)
          exact .inr ⟨name, value, single, member, rfl⟩
      · exact .inl rfl

theorem writtenNames_single {opcode : String} {operands : List Operand} {name : String}
    (single : opcode ≠ "EXCHANGE") (first : operands[0]? = some (.address name)) :
    writtenNames (.classical opcode operands) = [name] := by
  rw [Indexed.writtenNames_classical, Operation.writtenCount, if_neg single]
  cases operands with
  | nil => cases first
  | cons _ rest =>
      cases first
      rfl

/-- The move of a known result does what the instruction does. -/
theorem exec_simplify {opcode : String} {operands : List Operand} {valueOf : Operand → Option Number}
    (refines : Evaluation.Refines valueOf (Device.read state)) :
    device.exec site (Folding.simplify opcode operands (Evaluation.writes opcode operands valueOf)) state =
      device.exec site (.classical opcode operands) state := by
  rcases simplify_writes opcode operands valueOf with same | ⟨name, value, single, member, same⟩
  · rw [same]
  · have known := Evaluation.valueIn_writes_mono refines (valueIn_of_mem_writes member)
    have result : device.result state opcode operands name = value := by
      rw [Device.result, known]
      rfl
    rw [same, exec_move]
    simp only [Device.exec, writtenNames_single single (target_of_mem_writes single member), List.mem_singleton]
    congr 1
    funext other
    split
    · next here => rw [here, result]
    · rfl

/-! ## Noted values -/

def note (written : List Written) (o : MemoryOccurrence) : MemoryOccurrence :=
  written.foldl
    (fun acc w =>
      match w.value with
      | some value => if acc.name == w.name then { acc with value := some value } else acc
      | none => acc)
    o

theorem noteWritten_eq (written : List Written) (node : Instruction) :
    Folding.noteWritten written node = { node with memory := node.memory.map (note written) } := by
  unfold Folding.noteWritten
  induction written generalizing node with
  | nil =>
      have same : note [] = id := rfl
      rw [List.foldl_nil, same, List.map_id]
  | cons w rest ih =>
      rw [List.foldl_cons, ih]
      cases known : w.value with
      | none => simp [note, known]
      | some value => simp [note, known, Instruction.modifyMemory, Function.comp_def]

/-- Noting changes the value alone, and only to one that is written to the reference. -/
theorem note_spec (written : List Written) (o : MemoryOccurrence) :
    (note written o).name = o.name ∧ (note written o).use = o.use ∧ (note written o).links = o.links ∧
      ((note written o).value = o.value ∨
        ∃ w ∈ written, w.name = o.name ∧ w.value = (note written o).value) := by
  unfold note
  induction written generalizing o with
  | nil => exact ⟨rfl, rfl, rfl, .inl rfl⟩
  | cons w rest ih =>
      rw [List.foldl_cons]
      cases known : w.value with
      | none =>
          obtain ⟨name, use, links, value⟩ := ih o
          refine ⟨name, use, links, value.imp_right ?_⟩
          rintro ⟨w', member, same⟩
          exact ⟨w', List.mem_cons_of_mem _ member, same⟩
      | some value =>
          by_cases here : o.name == w.name
          · obtain ⟨name, use, links, noted⟩ := ih { o with value := some value }
            simp only [here, if_true]
            refine ⟨name, use, links, .inr ?_⟩
            rcases noted with same | ⟨w', member, same⟩
            · exact ⟨w, List.mem_cons_self, (by simpa using here : o.name = w.name).symm, known.trans same.symm⟩
            · exact ⟨w', List.mem_cons_of_mem _ member, same⟩
          · obtain ⟨name, use, links, noted⟩ := ih o
            simp only [here]
            refine ⟨name, use, links, noted.imp_right ?_⟩
            rintro ⟨w', member, same⟩
            exact ⟨w', List.mem_cons_of_mem _ member, same⟩

end TwoLane.Execution
