import Mathlib
import TwoLane.Proofs.Decimal.Reading
import TwoLane.Proofs.Text.Tidy
import TwoLane.Proofs.Tree.Drafts
import TwoLane.Tree.Draft

/-! # Tokens that read as literals

A token is tried as a number before it is tried as a memory reference. An identifier has no sign in it and begins with
neither a digit nor a point, so nothing but a word for infinity or for what is no number can make a number of it, alone
or with the mark of the imaginary unit behind. All other identifiers are memory references.

A number is written as its real part, as its imaginary part with the mark of the imaginary unit behind, or as both with
a sign between them. None of the longer forms is taken for a real number, and the last separator of a sum is the sign
that was put there, since amounts hold no exponent and no sign but in front.
-/

namespace TwoLane

open Decimal (amounts readFloat signBit)

variable {s front back body : List Char} {a : Number} {x y : Float} {c : Char} {text : String} {line : Nat}

namespace Number

theorem dropLast?_eq_some_iff : dropLast? c s = some body ↔ s = body ++ [c] := by
  unfold dropLast?
  constructor
  · intro dropped
    split at dropped
    · next last =>
        obtain ⟨front, rfl⟩ := List.getLast?_eq_some_iff.mp last
        rw [List.dropLast_concat] at dropped
        rw [Option.some.inj dropped]
    · cases dropped
  · rintro rfl
    simp

end Number

namespace Operand

/-! ## Identifiers -/

/-- Whether a text begins with a letter or an underscore and consists of letters, digits, underscores and square
    brackets, all of them ASCII. -/
def IsIdentifier (s : List Char) : Prop :=
  (∃ c, s.head? = some c ∧ (c.isAlpha = true ∨ c = '_')) ∧
    ∀ c ∈ s, c.isAlpha = true ∨ c.isDigit = true ∨ c = '_' ∨ c = '[' ∨ c = ']'

/-- Whether a text is a word for a number that is not finite, alone or with the mark of the imaginary unit behind. -/
def IsNumberWord (s : List Char) : Prop :=
  Decimal.IsWord s ∨ ∃ body, s = body ++ ['i'] ∧ Decimal.IsWord body

theorem isAddress_iff : isAddress s = true ↔ IsIdentifier s := by
  cases s with
  | nil => simp [isAddress, IsIdentifier]
  | cons c rest => simp [isAddress, IsIdentifier, startsAddress, inAddress, Char.isAlphanum, or_assoc]

/-! ## Characters -/

theorem letter_range (letter : c.isAlpha = true) :
    (65 ≤ c.toNat ∧ c.toNat ≤ 90) ∨ (97 ≤ c.toNat ∧ c.toNat ≤ 122) := by
  simp only [Char.isAlpha, Char.isUpper, Char.isLower, Bool.or_eq_true, Bool.and_eq_true, decide_eq_true_eq] at letter
  exact letter

theorem IsIdentifier.plain (identifier : IsIdentifier s) (member : c ∈ s) :
    Text.isBlank c = false ∧ c ≠ '+' ∧ c ≠ '-' := by
  have outside : ∀ {n : Nat}, 48 ≤ n ∧ n ≤ 122 → c.toNat = n → Text.isBlank c = false ∧ c ≠ '+' ∧ c ≠ '-' := by
    rintro n range rfl
    refine ⟨?_, ?_, ?_⟩
    · simp only [Text.isBlank, Bool.or_eq_false_iff, Bool.and_eq_false_iff, decide_eq_false_iff_not,
        beq_eq_false_iff_ne]
      omega
    · rintro rfl
      exact absurd range (by decide)
    · rintro rfl
      exact absurd range (by decide)
  rcases identifier.2 c member with letter | digit | rfl | rfl | rfl
  · have range := letter_range letter
    exact outside (by omega) rfl
  · have range := Decimal.isDigit_range (Decimal.isDigit_eq.trans digit)
    exact outside (by omega) rfl
  all_goals decide

/-- What an identifier begins with does not begin a number in digits. -/
theorem IsIdentifier.goesOnOtherwise (identifier : IsIdentifier s) (front : body <+: s) :
    Decimal.GoesOnOtherwise body := by
  obtain ⟨rest, rfl⟩ := front
  intro c first
  obtain ⟨start, begins, letter⟩ := identifier.1
  have same : start = c := by
    rw [List.head?_append, first, Option.some_or] at begins
    exact (Option.some.inj begins).symm
  subst same
  rcases letter with letter | rfl
  · have range := letter_range letter
    refine ⟨?_, ?_⟩
    · have above : ¬ start ≤ '9' := by
        intro below
        have below : start.toNat ≤ 57 := below
        omega
      simp [Decimal.isDigit, above]
    · rintro rfl
      exact absurd range (by decide)
  · decide

/-! ## Reading identifiers -/

theorem IsIdentifier.readFloat_eq (identifier : IsIdentifier s) (front : body <+: s) :
    Decimal.readFloat body = Decimal.readUnsigned body ∧
      (¬ Decimal.IsWord body → Decimal.readUnsigned body = none) := by
  refine ⟨Decimal.readFloat_of_head ?_, fun other => ?_⟩
  · intro c first
    have member : c ∈ s := front.subset (List.mem_of_mem_head? first)
    exact ⟨(identifier.plain member).2.2, (identifier.plain member).2.1⟩
  · rw [Decimal.readUnsigned_of_not_word other]
    exact Decimal.readMagnitude_of_head (identifier.goesOnOtherwise front)

/-- There is no place in an identifier where a sum could be split. -/
theorem IsIdentifier.separator?_eq_none (identifier : IsIdentifier s) (front : body <+: s) :
    Number.separator? body = none := by
  rw [Number.separator?, List.getLast?_eq_none_iff, List.filter_eq_nil_iff]
  intro i _
  unfold Number.isSeparator
  split
  · next c before found =>
      have plain := identifier.plain (front.subset (List.mem_of_getElem? found))
      simp [plain.2]
  · simp

instance : Decidable (IsNumberWord s) :=
  decidable_of_iff (Decimal.IsWord s ∨ ∃ body ∈ Number.dropLast? 'i' s, Decimal.IsWord body)
    (by simp only [IsNumberWord, Option.mem_def, Number.dropLast?_eq_some_iff])

theorem IsIdentifier.readTrimmed_of_word (identifier : IsIdentifier s) (word : IsNumberWord s) :
    ∃ value, Number.readTrimmed s = some value ∧ (value.re.isFinite = false ∨ value.im.isFinite = false) := by
  have whole := identifier.readFloat_eq (List.prefix_refl s)
  by_cases alone : Decimal.IsWord s
  · obtain ⟨x, reads, infinite⟩ := Decimal.readUnsigned_of_word alone
    exact ⟨⟨x, 0⟩, by simp only [Number.readTrimmed, whole.1, reads], .inl infinite⟩
  · obtain ⟨body, rfl, imaginary⟩ := word.resolve_left alone
    obtain ⟨x, reads, infinite⟩ := Decimal.readUnsigned_of_word imaginary
    have front := identifier.readFloat_eq (List.prefix_append body ['i'])
    refine ⟨⟨0, x⟩, ?_, .inr infinite⟩
    simp only [Number.readTrimmed, whole.1, whole.2 alone, Number.dropLast?_eq_some_iff.mpr rfl, Option.bind_eq_bind,
      Option.bind_some, front.1, reads]

theorem IsIdentifier.readTrimmed_eq_none (identifier : IsIdentifier s) (other : ¬ IsNumberWord s) :
    Number.readTrimmed s = none := by
  obtain ⟨alone, imaginary⟩ := not_or.mp other
  have whole := identifier.readFloat_eq (List.prefix_refl s)
  rw [Number.readTrimmed, whole.1, whole.2 alone]
  cases dropped : Number.dropLast? 'i' s with
  | none => rfl
  | some body =>
      have shape := Number.dropLast?_eq_some_iff.mp dropped
      have front : body <+: s := shape ▸ List.prefix_append body ['i']
      have part := identifier.readFloat_eq front
      have plain : ¬ Decimal.IsWord body := fun word => imaginary ⟨body, shape, word⟩
      simp [part.1, part.2 plain, identifier.separator?_eq_none front]

theorem IsIdentifier.read_eq (identifier : IsIdentifier text.toList) :
    Number.read text = Number.readTrimmed text.toList := by
  have tidy : Text.IsTidy text := by
    obtain ⟨c, first, -⟩ := identifier.1
    have filled : text.toList ≠ [] := List.ne_nil_of_mem (List.mem_of_mem_head? first)
    have ink := Text.isTidy_of_ink filled (fun c member => (identifier.plain member).1)
    rwa [String.ofList_toList] at ink
  rw [Number.read, tidy.2.2]

/-- An identifier is taken for a memory reference, in a token as in the leaf that a draft makes of it, exactly if it is
    no number word. A number word becomes a literal that is not finite. -/
theorem identifiers_are_references (text : String) (line : Nat) (identifier : IsIdentifier text.toList) :
    (read text = .address text ↔ ¬ IsNumberWord text.toList) ∧
    (Draft.operandLeaf line text = .leaf line .addr text ↔ ¬ IsNumberWord text.toList) ∧
    (IsNumberWord text.toList →
      ∃ value, read text = .literal value ∧ (value.re.isFinite = false ∨ value.im.isFinite = false)) := by
  by_cases word : IsNumberWord text.toList
  · obtain ⟨value, reads, infinite⟩ := identifier.readTrimmed_of_word word
    have literal : read text = .literal value := by rw [read, identifier.read_eq, reads]
    refine ⟨?_, ?_, fun _ => ⟨value, literal, infinite⟩⟩
    · simp [literal, word]
    · simp [Draft.operandLeaf, literal, word, Tree.leaf, Rule.text]
  · have address : read text = .address text := by
      rw [read, identifier.read_eq, identifier.readTrimmed_eq_none word]
      simp [isAddress_iff.mpr identifier]
    refine ⟨?_, ?_, fun number => absurd number word⟩
    · simp [address, word]
    · simp [Draft.operandLeaf, address, word]

/-- A name that goes on behind a word for infinity is a memory reference. -/
theorem longer_name_is_reference :
    IsIdentifier "infi[0]".toList ∧ Draft.operandLeaf 0 "infi[0]" = .leaf 0 .addr "infi[0]" := by
  have identifier : IsIdentifier "infi[0]".toList := isAddress_iff.mp (by decide)
  exact ⟨identifier, (identifiers_are_references "infi[0]" 0 identifier).2.1.mpr (by decide)⟩

/-- The names `inf` and `Nan` are taken for numbers. -/
theorem names_are_taken_for_numbers :
    ¬ (∀ text : String, IsIdentifier text.toList → read text = .address text) ∧
    ¬ (∀ (text : String) (line : Nat), IsIdentifier text.toList →
        Draft.operandLeaf line text = .leaf line .addr text) := by
  refine ⟨fun references => ?_, fun references => ?_⟩
  · have address := references "inf" (isAddress_iff.mp (by decide))
    have literal : (read "inf").address? = none := by rfl
    rw [address] at literal
    cases literal
  · have address := congrArg Tree.rule (references "Nan" 0 (isAddress_iff.mp (by decide)))
    have number : (Draft.operandLeaf 0 "Nan").rule = Rule.number.text := by rfl
    rw [number] at address
    exact absurd address (by decide)

end Operand

namespace Number

/-! ## Separators -/

theorem isSeparator_append (filled : front ≠ []) (sign : c = '+' ∨ c = '-')
    (unmarked : ∀ c ∈ front, c ≠ 'e' ∧ c ≠ 'E') : isSeparator (front ++ c :: back) front.length = true := by
  obtain ⟨others, last, rfl⟩ := List.eq_nil_or_concat front |>.resolve_left filled
  rw [List.concat_eq_append] at unmarked ⊢
  have here : (others ++ [last] ++ c :: back)[others.length + 1]? = some c := by simp
  have before : (others ++ [last] ++ c :: back)[others.length]? = some last := by simp
  have mark := unmarked last (by simp)
  rw [List.length_append, List.length_singleton]
  simp only [isSeparator, here, before]
  rcases sign with rfl | rfl <;> simp [mark]

theorem separator?_eq (filled : front ≠ []) (sign : c = '+' ∨ c = '-') (unmarked : ∀ c ∈ front, c ≠ 'e' ∧ c ≠ 'E')
    (plain : ∀ c ∈ back, c ≠ '+' ∧ c ≠ '-') : separator? (front ++ c :: back) = some front.length := by
  have length : (front ++ c :: back).length = front.length + 1 + back.length := by
    simp
    omega
  have behind :
      ((List.range back.length).map (front.length + 1 + ·)).filter (isSeparator (front ++ c :: back)) = [] := by
    rw [List.filter_eq_nil_iff]
    intro i member
    obtain ⟨j, inside, rfl⟩ := List.mem_map.mp member
    have here : (front ++ c :: back)[front.length + 1 + j]? = back[j]? := by
      rw [List.getElem?_append_right (by omega)]
      have shift : front.length + 1 + j - front.length = j + 1 := by omega
      rw [shift, List.getElem?_cons_succ]
    unfold isSeparator
    split
    · next d before found _ =>
        rw [here] at found
        have other := plain d (List.mem_of_getElem? found)
        simp [other]
    · simp
  rw [separator?, length, List.range_add, List.filter_append, behind, List.append_nil, List.range_succ,
    List.filter_append, List.filter_singleton, isSeparator_append filled sign unmarked, cond_true, List.getLast?_concat]

/-! ## Written forms -/

theorem readTrimmed_real (number : x.isNaN = false) : readTrimmed (amounts.write x) = some ⟨x, 0⟩ := by
  simp only [readTrimmed, Decimal.readFloat_write number]

theorem readTrimmed_imaginary (number : x.isNaN = false) :
    readTrimmed (amounts.write x ++ ['i']) = some ⟨0, x⟩ := by
  have dropped : dropLast? 'i' (amounts.write x ++ ['i']) = some (amounts.write x) :=
    dropLast?_eq_some_iff.mpr rfl
  simp only [readTrimmed, Decimal.readFloat_write_append number .unit, dropped, Option.bind_eq_bind, Option.bind_some,
    Decimal.readFloat_write number]

theorem readTrimmed_sum (number : x.isNaN = false) (sign : c = '+' ∨ c = '-') (magnitude : Decimal.IsMagnitude s)
    (reads : readFloat (c :: s) = some y) : readTrimmed (amounts.write x ++ (c :: s ++ ['i'])) = some ⟨x, y⟩ := by
  have spoils : ∀ rest, Decimal.Spoils (c :: rest) := by
    rcases sign with rfl | rfl
    · exact .plus
    · exact .minus
  have whole : readFloat (amounts.write x ++ (c :: s ++ ['i'])) = none :=
    Decimal.readFloat_write_append number (spoils _)
  have dropped : dropLast? 'i' (amounts.write x ++ (c :: s ++ ['i'])) = some (amounts.write x ++ c :: s) :=
    dropLast?_eq_some_iff.mpr (by simp)
  have place : separator? (amounts.write x ++ c :: s) = some (amounts.write x).length :=
    separator?_eq (Decimal.ink_amounts x).1 sign (fun _ => Decimal.unmarked_write number)
      (fun _ member => (magnitude.plain member).1)
  simp only [readTrimmed, whole, dropped, Decimal.readFloat_write_append number (spoils s), place, Option.bind_eq_bind,
    Option.bind_some, List.take_left, List.drop_left, Decimal.readFloat_write number, reads]

/-! ## Numbers -/

/-- Every written form reads as the number, where a part that is zero may change its sign. -/
theorem exists_readTrimmed_text (re : a.re.isNaN = false) (im : a.im.isNaN = false) :
    ∃ b, readTrimmed a.text.toList = some b ∧ b.re == a.re ∧ b.im == a.im := by
  unfold text
  split_ifs with real imaginary negative
  · exact ⟨⟨a.re, 0⟩, by rw [Decimal.toList_amountText, readTrimmed_real re], Decimal.beq_self re, BEq.symm real⟩
  · refine ⟨⟨0, a.im⟩, ?_, BEq.symm imaginary, Decimal.beq_self im⟩
    rw [String.toList_append, Decimal.toList_amountText]
    exact readTrimmed_imaginary im
  · have sign : signBit (-a.im) = false := by rw [Decimal.signBit_neg im, Decimal.signBit_of_neg negative]; rfl
    obtain ⟨magnitude, reads⟩ := Decimal.magnitude_write (Decimal.isNaN_neg im) sign
    have behind : readFloat ('-' :: amounts.write (-a.im)) = some a.im := by
      rw [Decimal.readFloat_minus, reads, Option.map_some, Decimal.neg_neg_float]
    refine ⟨⟨a.re, a.im⟩, ?_, Decimal.beq_self re, Decimal.beq_self im⟩
    simp only [String.toList_append, Decimal.toList_amountText, List.append_assoc]
    exact readTrimmed_sum re (.inr rfl) magnitude behind
  · have sign := Decimal.signBit_of_pos im real negative
    obtain ⟨magnitude, reads⟩ := Decimal.magnitude_write im sign
    have behind : readFloat ('+' :: amounts.write a.im) = some a.im := by
      rw [Decimal.readFloat_plus, reads]
    refine ⟨⟨a.re, a.im⟩, ?_, Decimal.beq_self re, Decimal.beq_self im⟩
    simp only [String.toList_append, Decimal.toList_amountText, List.append_assoc]
    exact readTrimmed_sum re (.inl rfl) magnitude behind

end Number

/-- The text of a number without undefined parts is read as a literal, and the literal is the number. -/
theorem Operand.read_number_text (a : Number) (re : a.re.isNaN = false) (im : a.im.isNaN = false) :
    ∃ b, read a.text = .literal b ∧ (b == a) = true := by
  obtain ⟨b, reads, same⟩ := Number.exists_readTrimmed_text re im
  refine ⟨b, ?_, ?_⟩
  · rw [read, Number.read, (Number.isTidy_text a).2.2, reads]
  · exact Bool.and_eq_true_iff.mpr same

/-- A number with both parts, the imaginary one negative and of a small magnitude. -/
theorem Operand.read_three_minus_small :
    ∃ b, read (⟨3, -1.5e-7⟩ : Number).text = .literal b ∧ (b == ⟨3, -1.5e-7⟩) = true :=
  read_number_text ⟨3, -1.5e-7⟩ (by decide) (by decide)

end TwoLane
