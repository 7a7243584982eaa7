import Mathlib.Data.List.Basic
import TwoLane.Instruction.Operation
import TwoLane.Optimize.Evaluation

/-! # Evaluation with partial knowledge

What evaluation finds out from a part of the operand values stays true when more of them are known.
-/

namespace TwoLane.Evaluation

/-- The second valuation knows all that the first one knows. -/
def Refines {α : Type} (partly fully : α → Option Number) : Prop :=
  ∀ a value, partly a = some value → fully a = some value

theorem bind_mono {α β : Type} {first first' : Option α} {further further' : α → Option β}
    {result : β} (h : first.bind further = some result)
    (known : ∀ a, first = some a → first' = some a)
    (go : ∀ a, further a = some result → further' a = some result) :
    first'.bind further' = some result := by
  obtain ⟨a, found, rest⟩ := Option.bind_eq_some_iff.mp h
  rw [known a found]
  exact go a rest

theorem result?_mono {opcode : String} {partly fully : Nat → Option Number} {value : Number}
    (refines : Refines partly fully) (h : result? opcode partly = some value) :
    result? opcode fully = some value := by
  unfold result? at h ⊢
  split at h
  -- a single operand, and constants
  case h_1 => exact refines 1 value h
  case h_2 => exact refines 1 value h
  case h_3 => exact h
  case h_4 => exact h
  case h_5 => exact bind_mono h (refines 0) (fun _ same => same)
  case h_6 => exact bind_mono h (refines 0) (fun _ same => same)
  -- two operands: sums, differences, products and quotients
  case h_7 => exact bind_mono h (refines 0) (fun _ h => bind_mono h (refines 1) (fun _ same => same))
  case h_8 => exact bind_mono h (refines 0) (fun _ h => bind_mono h (refines 1) (fun _ same => same))
  case h_9 => exact bind_mono h (refines 0) (fun _ h => bind_mono h (refines 1) (fun _ same => same))
  case h_10 => exact bind_mono h (refines 0) (fun _ h => bind_mono h (refines 1) (fun _ same => same))
  -- two operands as words
  case h_11 =>
    exact bind_mono h (refines 0) (fun _ h => bind_mono h (fun _ same => same)
      (fun _ h => bind_mono h (refines 1) (fun _ same => same)))
  case h_12 =>
    exact bind_mono h (refines 0) (fun _ h => bind_mono h (fun _ same => same)
      (fun _ h => bind_mono h (refines 1) (fun _ same => same)))
  case h_13 =>
    exact bind_mono h (refines 0) (fun _ h => bind_mono h (fun _ same => same)
      (fun _ h => bind_mono h (refines 1) (fun _ same => same)))
  -- comparisons, which read the second and the third operand
  all_goals try exact bind_mono h (refines 1) (fun _ h => bind_mono h (refines 2) (fun _ same => same))
  cases h

/-- A write that is known from a part of the values is known from more of them. -/
theorem valueIn_writes_mono {opcode : String} {operands : List Operand} {name : String}
    {value : Number} {partly fully : Operand → Option Number} (refines : Refines partly fully)
    (h : valueIn (writes opcode operands partly) name = some value) :
    valueIn (writes opcode operands fully) name = some value := by
  have operand : Refines (fun i : Nat => (operands[i]?).bind partly)
      (fun i : Nat => (operands[i]?).bind fully) := by
    intro i value known
    exact bind_mono known (fun _ same => same) (fun o => refines o value)
  unfold writes at h ⊢
  split at h
  · cases h
  · next target found =>
      split at h
      · next exchange =>
          split at h
          · cases h
          · next other there =>
              simp only [exchange, if_true]
              simp only [valueIn, List.find?_cons, List.find?_nil] at h ⊢
              split at h
              · exact operand 1 value h
              · split at h
                · exact operand 0 value h
                · cases h
      · next single =>
          simp only [single, if_false]
          simp only [valueIn, List.find?_cons, List.find?_nil] at h ⊢
          split at h
          · exact result?_mono operand h
          · cases h

theorem valueIn_writes_eq_none {opcode : String} (silent : ∀ operand, result? opcode operand = none)
    (single : opcode ≠ "EXCHANGE") {operands : List Operand} {valueOf : Operand → Option Number}
    {name : String} : valueIn (writes opcode operands valueOf) name = none := by
  unfold writes
  dsimp only
  split
  · rfl
  · rw [if_neg single, valueIn, List.find?_cons]
    split
    · rw [Option.bind_some, silent]
    · rfl

/-- Evaluation speaks only of what an instruction names among its written operands. -/
theorem name_mem_of_writes {opcode : String} {operands : List Operand} {valueOf : Operand → Option Number}
    {written : Written} (member : written ∈ writes opcode operands valueOf) :
    written.name ∈ (operands.take (Operation.writtenCount opcode)).flatMap Operand.addresses := by
  have address : ∀ {i : Nat} {target : String}, (operands[i]?).bind Operand.address? = some target →
      ∃ operand, operands[i]? = some operand ∧ operand.addresses = [target] := by
    intro i target plain
    obtain ⟨operand, there, isAddress⟩ := Option.bind_eq_some_iff.mp plain
    cases operand with
    | address name =>
        cases isAddress
        exact ⟨_, there, rfl⟩
    | literal _ => cases isAddress
    | expression _ _ => cases isAddress
  have among : ∀ {i : Nat} {operand : Operand}, operands[i]? = some operand →
      i < Operation.writtenCount opcode → operand ∈ operands.take (Operation.writtenCount opcode) := by
    intro i operand there inside
    refine List.mem_of_getElem? (i := i) ?_
    rw [List.getElem?_take, if_pos inside, there]
  unfold writes at member
  dsimp only at member
  split at member
  · cases member
  · next target plain =>
      obtain ⟨first, there, addresses⟩ := address plain
      have own : target ∈ (operands.take (Operation.writtenCount opcode)).flatMap Operand.addresses := by
        refine List.mem_flatMap.mpr ⟨first, among there ?_, by simp [addresses]⟩
        unfold Operation.writtenCount
        split <;> decide
      split at member
      · next exchange =>
          split at member
          · cases member
          · next other plain' =>
              obtain ⟨second, there', addresses'⟩ := address plain'
              rcases List.mem_cons.mp member with rfl | further
              · exact own
              · cases List.mem_singleton.mp further
                refine List.mem_flatMap.mpr ⟨second, among there' ?_, by simp [addresses']⟩
                rw [exchange]
                decide
      · cases List.mem_singleton.mp member
        exact own

theorem mem_of_valueIn_writes {opcode : String} {operands : List Operand}
    {valueOf : Operand → Option Number} {name : String} {value : Number}
    (known : valueIn (writes opcode operands valueOf) name = some value) :
    name ∈ (operands.take (Operation.writtenCount opcode)).flatMap Operand.addresses := by
  obtain ⟨written, found, _⟩ := Option.bind_eq_some_iff.mp known
  have named : written.name = name := by simpa using List.find?_some found
  exact named ▸ name_mem_of_writes (List.mem_of_find?_eq_some found)

/-! ## What evaluation reads -/

theorem result?_congr {opcode : String} {f g : Nat → Option Number}
    (behind : ∀ i, 0 < i → f i = g i)
    (target : Operation.updatingOpcodes.contains opcode = true → f 0 = g 0) :
    result? opcode f = result? opcode g := by
  have first := behind 1 (by decide)
  have second := behind 2 (by decide)
  unfold result?
  split
  -- opcodes that do not read their target
  case h_1 => exact first
  case h_2 => exact first
  case h_3 => rfl
  case h_4 => rfl
  case h_14 => rw [first, second]
  case h_15 => rw [first, second]
  case h_16 => rw [first, second]
  case h_17 => rw [first, second]
  case h_18 => rw [first, second]
  case h_19 => rfl
  -- opcodes that do
  all_goals rw [target (by decide)]
  all_goals rw [first]

theorem writes_congr {opcode : String} {operands : List Operand} {f g : Operand → Option Number}
    (behind : ∀ operand ∈ operands.drop (Operation.writtenCount opcode), f operand = g operand)
    (target : Operation.updatingOpcodes.contains opcode = true →
      ∀ operand ∈ operands, f operand = g operand) :
    writes opcode operands f = writes opcode operands g := by
  have each : ∀ i : Nat, (∀ operand, operands[i]? = some operand → f operand = g operand) →
      (operands[i]?).bind f = (operands[i]?).bind g := by
    intro i same
    cases found : operands[i]? with
    | none => rfl
    | some operand => exact same operand found
  unfold writes
  dsimp only
  split
  · rfl
  · split
    · next exchange =>
        subst exchange
        have all := target (by decide)
        rw [each 0 (fun operand found => all operand (List.mem_of_getElem? found)),
          each 1 (fun operand found => all operand (List.mem_of_getElem? found))]
    · next single =>
        have same : result? opcode (fun i => (operands[i]?).bind f) =
            result? opcode (fun i => (operands[i]?).bind g) := by
          refine result?_congr ?_ ?_
          · intro i later
            refine each i (fun operand found => behind operand ?_)
            rw [Operation.writtenCount, if_neg single]
            refine List.mem_of_getElem? (i := i - 1) ?_
            rw [List.getElem?_drop, show 1 + (i - 1) = i by omega, found]
          · intro updates
            exact each 0 (fun operand found => target updates operand (List.mem_of_getElem? found))
        rw [same]

end TwoLane.Evaluation
