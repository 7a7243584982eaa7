import Mathlib
import TwoLane.Decimal.Reader
import TwoLane.Decimal.Style
import TwoLane.Proofs.Decimal.Scientific

/-! # What reads as a number

A text without a sign in front reads as a number if it is one of three words, in any letter case, or begins with digits
that hold at most one point. Behind the digits only an exponent may stand. So a text that begins with a letter reads as
a number exactly if it is one of the words, and digits with anything else behind them do not read as one.

The text of an amount is an optional minus sign with digits or a word behind it, and reads as the float that it was
written for. With a sign or the mark of the imaginary unit behind, it does not read as a number.
-/

namespace TwoLane.Decimal

variable {x : Float} {b : Binary} {s rest whole fraction : List Char} {c : Char} {v : ℚ}

/-! ## Words -/

/-- Whether a text is one of the words for infinity and for what is no number, in any letter case. -/
def IsWord (s : List Char) : Prop :=
  s.map Char.toLower ∈ ["inf".toList, "infinity".toList, "nan".toList]

instance : Decidable (IsWord s) :=
  inferInstanceAs (Decidable (_ ∈ _))

theorem ofList_eq_iff {text : String} : String.ofList s = text ↔ s = text.toList := by
  rw [← String.toList_inj, String.toList_ofList]

theorem readUnsigned_of_not_word (other : ¬ IsWord s) : readUnsigned s = readMagnitude s := by
  simp only [IsWord, List.mem_cons, List.not_mem_nil, or_false, not_or] at other
  simp only [readUnsigned, ofList_eq_iff, other, or_self, if_false]

theorem readUnsigned_of_word (word : IsWord s) : ∃ x, readUnsigned s = some x ∧ x.isFinite = false := by
  have infinite : (1.0 / 0.0 : Float).isFinite = false := by decide
  have undefined : (0.0 / 0.0 : Float).isFinite = false := by decide
  simp only [IsWord, List.mem_cons, List.not_mem_nil, or_false] at word
  rcases word with short | long | none
  · exact ⟨_, by simp only [readUnsigned, ofList_eq_iff, short, true_or, if_true], infinite⟩
  · exact ⟨_, by simp only [readUnsigned, ofList_eq_iff, long, or_true, if_true], infinite⟩
  · refine ⟨_, ?_, undefined⟩
    simp only [readUnsigned, ofList_eq_iff, none]
    rw [if_neg (by decide), if_pos trivial]

/-! ## Digits -/

theorem isDigit_eq : isDigit c = c.isDigit := by
  rfl

theorem isDigit_range (digit : isDigit c = true) : 48 ≤ c.toNat ∧ c.toNat ≤ 57 := by
  simp only [isDigit, Bool.and_eq_true, decide_eq_true_eq] at digit
  exact digit

/-- The text of a number in digits. A point stands only where a digit follows it. -/
def digitsWith (whole fraction : List Char) : List Char :=
  whole ++ if fraction.isEmpty then [] else '.' :: fraction

/-- Whether a text goes on with neither a digit nor a point. -/
def GoesOnOtherwise (rest : List Char) : Prop :=
  ∀ c, rest.head? = some c → isDigit c = false ∧ c ≠ '.'

theorem goesOnOtherwise_nil : GoesOnOtherwise [] := by
  intro c first
  cases first

theorem takeWhile_isDigit (digits : ∀ c ∈ whole, isDigit c = true)
    (stops : ∀ c, rest.head? = some c → isDigit c = false) : (whole ++ rest).takeWhile isDigit = whole := by
  rw [List.takeWhile_append_of_pos digits]
  cases rest with
  | nil => exact List.append_nil whole
  | cons c more => rw [List.takeWhile_cons_of_neg (by simp [stops c rfl]), List.append_nil]

theorem dropWhile_isDigit (digits : ∀ c ∈ whole, isDigit c = true)
    (stops : ∀ c, rest.head? = some c → isDigit c = false) : (whole ++ rest).dropWhile isDigit = rest := by
  rw [List.dropWhile_append_of_pos digits]
  cases rest with
  | nil => rfl
  | cons c more => rw [List.dropWhile_cons_of_neg (by simp [stops c rfl])]

theorem splitDigits_digitsWith (digits : ∀ c ∈ whole, isDigit c = true) (places : ∀ c ∈ fraction, isDigit c = true)
    (ends : GoesOnOtherwise rest) : splitDigits (digitsWith whole fraction ++ rest) = (whole, fraction, rest) := by
  have stops : ∀ c, rest.head? = some c → isDigit c = false := fun c first => (ends c first).1
  cases fraction with
  | nil =>
      have shape : digitsWith whole [] = whole := by simp [digitsWith]
      rw [shape, splitDigits, takeWhile_isDigit digits stops, dropWhile_isDigit digits stops]
      split
      · exact absurd rfl (ends '.' rfl).2
      · rfl
  | cons first others =>
      have shape : digitsWith whole (first :: others) ++ rest = whole ++ '.' :: (first :: others ++ rest) := by
        simp [digitsWith]
      have point : ∀ c, ('.' :: (first :: others ++ rest)).head? = some c → isDigit c = false := by
        rintro c ⟨⟩
        rfl
      rw [shape, splitDigits, takeWhile_isDigit digits point, dropWhile_isDigit digits point]
      simp only [takeWhile_isDigit places stops, dropWhile_isDigit places stops]

theorem readMagnitude_digitsWith (filled : whole ≠ []) (digits : ∀ c ∈ whole, isDigit c = true)
    (places : ∀ c ∈ fraction, isDigit c = true) (ends : GoesOnOtherwise rest) :
    readMagnitude (digitsWith whole fraction ++ rest) =
      (readExponent rest).map (fun e => nearest (valueOf (whole ++ fraction)) (e - fraction.length)) := by
  have begins : whole.isEmpty = false := List.isEmpty_eq_false_iff.mpr filled
  simp only [readMagnitude, splitDigits_digitsWith digits places ends, begins, Bool.false_and, Bool.false_eq_true,
    if_false]

/-- What begins with neither a digit nor a point is no number in digits. -/
theorem readMagnitude_of_head (ends : GoesOnOtherwise s) : readMagnitude s = none := by
  have parts : splitDigits s = ([], [], s) :=
    @splitDigits_digitsWith s [] [] (by simp) (by simp) ends
  simp [readMagnitude, parts]

theorem readExponent_of_head (other : c ≠ 'e' ∧ c ≠ 'E') : readExponent (c :: rest) = none := by
  simp [readExponent, other]

/-! ## Signs -/

theorem readFloat_plus : readFloat ('+' :: s) = readUnsigned s := by
  simp [readFloat, splitSign]

theorem readFloat_minus : readFloat ('-' :: s) = (readUnsigned s).map (fun x => -x) := by
  simp [readFloat, splitSign]

theorem readFloat_of_head (unsigned : ∀ c, s.head? = some c → c ≠ '-' ∧ c ≠ '+') : readFloat s = readUnsigned s := by
  unfold readFloat splitSign
  split
  · exact absurd rfl (unsigned _ rfl).1
  · exact absurd rfl (unsigned _ rfl).2
  · simp

/-! ## Spelled values -/

theorem valueOf_eq : valueOf s = Nat.ofDigitChars 10 s 0 := by
  rfl

theorem valueOf_digitsOf (n : Nat) : valueOf (digitsOf n) = n :=
  Nat.ofDigitChars_ten_toDigits

theorem isDigit_digitsOf {n : Nat} (member : c ∈ digitsOf n) : isDigit c = true :=
  isDigit_eq.trans (Nat.isDigit_of_mem_toDigits (by decide) (by decide) member)

theorem isDigit_zeros {n : Nat} (member : c ∈ List.replicate n '0') : isDigit c = true := by
  rw [List.eq_of_mem_replicate member]
  rfl

/-- Digits around a point spell a value. -/
structure Spells (whole fraction : List Char) (v : ℚ) : Prop where
  filled : whole ≠ []
  digits : ∀ c ∈ whole, isDigit c = true
  places : ∀ c ∈ fraction, isDigit c = true
  value : (valueOf (whole ++ fraction) : ℚ) * 10 ^ (-(fraction.length : Int)) = v

theorem digitsWith_point (some : fraction ≠ []) : digitsWith whole fraction = whole ++ '.' :: fraction := by
  rw [digitsWith, if_neg (by simpa using some)]

theorem spells_zeros (n k : Nat) : Spells (digitsOf n ++ List.replicate k '0') [] (n * 10 ^ (k : Int)) where
  filled := List.append_ne_nil_of_left_ne_nil Nat.toDigits_ne_nil _
  digits := fun _ member => (List.mem_append.mp member).elim isDigit_digitsOf isDigit_zeros
  places := by simp
  value := by
    have shifted : valueOf (digitsOf n ++ List.replicate k '0') = 10 ^ k * n := by
      rw [valueOf_eq, Nat.ofDigitChars_append, Nat.ofDigitChars_replicate_zero, ← valueOf_eq, valueOf_digitsOf]
    rw [List.append_nil, shifted]
    push_cast
    rw [List.length_nil, Nat.cast_zero, neg_zero, zpow_zero, zpow_natCast]
    ring

/-- A point among the digits of a number divides the number by a power of ten. -/
theorem spells_inside {n k : Nat} (inside : k < (digitsOf n).length) :
    Spells ((digitsOf n).take ((digitsOf n).length - k)) ((digitsOf n).drop ((digitsOf n).length - k))
      (n * 10 ^ (-k : Int)) where
  filled := by
    rw [ne_eq, List.take_eq_nil_iff]
    have : digitsOf n ≠ [] := Nat.toDigits_ne_nil
    simp only [this, or_false]
    omega
  digits := fun _ member => isDigit_digitsOf (List.mem_of_mem_take member)
  places := fun _ member => isDigit_digitsOf (List.mem_of_mem_drop member)
  value := by
    have length : (digitsOf n).length - ((digitsOf n).length - k) = k := by omega
    rw [List.take_append_drop, valueOf_digitsOf, List.length_drop, length]

/-- Zeros behind the point come before the digits of a number below one. -/
theorem spells_behind {n k : Nat} (behind : (digitsOf n).length ≤ k) :
    Spells ['0'] (List.replicate (k - (digitsOf n).length) '0' ++ digitsOf n) (n * 10 ^ (-k : Int)) where
  filled := List.cons_ne_nil _ _
  digits := fun _ member => isDigit_zeros (n := 1) member
  places := fun _ member => (List.mem_append.mp member).elim isDigit_zeros isDigit_digitsOf
  value := by
    have zeros (k : Nat) : Nat.ofDigitChars 10 (List.replicate k '0') 0 = 0 := by
      rw [Nat.ofDigitChars_replicate_zero, mul_zero]
    have front : Nat.ofDigitChars 10 ['0'] 0 = 0 := zeros 1
    have length : k - (digitsOf n).length + (digitsOf n).length = k := by omega
    have digits : valueOf (['0'] ++ (List.replicate (k - (digitsOf n).length) '0' ++ digitsOf n)) = n := by
      rw [valueOf_eq, Nat.ofDigitChars_append, Nat.ofDigitChars_append, front, zeros, ← valueOf_eq, valueOf_digitsOf]
    rw [digits, List.length_append, List.length_replicate, length]

theorem exists_spells (d : Scaled) :
    ∃ whole fraction, amounts.positionally d = digitsWith whole fraction ∧
      Spells whole fraction (d.digits * 10 ^ d.exponent) := by
  obtain ⟨n, exponent⟩ := d
  have some : 0 < (digitsOf n).length := Nat.length_toDigits_pos
  cases exponent with
  | ofNat k =>
      refine ⟨_, _, ?_, spells_zeros n k⟩
      simp [Style.positionally, amounts, digitsWith]
  | negSucc k =>
      by_cases inside : k + 1 < (digitsOf n).length
      · refine ⟨_, _, ?_, spells_inside inside⟩
        have places : (digitsOf n).drop ((digitsOf n).length - (k + 1)) ≠ [] := by
          rw [ne_eq, List.drop_eq_nil_iff]
          omega
        rw [digitsWith_point places]
        simp only [Style.positionally, if_pos inside]
      · refine ⟨_, _, ?_, spells_behind (not_lt.mp inside)⟩
        have places : List.replicate (k + 1 - (digitsOf n).length) '0' ++ digitsOf n ≠ [] :=
          List.append_ne_nil_of_right_ne_nil _ Nat.toDigits_ne_nil
        rw [digitsWith_point places]
        simp only [Style.positionally, if_neg inside, List.cons_append, List.nil_append]

/-! ## Magnitudes -/

/-- The texts of amounts without a sign are digits around a point and the word for infinity. -/
inductive IsMagnitude : List Char → Prop
  | digits {whole fraction : List Char} {v : ℚ} (spells : Spells whole fraction v) :
      IsMagnitude (digitsWith whole fraction)
  | infinite : IsMagnitude ['i', 'n', 'f']

/-- Whether what stands behind an amount keeps it from being read as a number. -/
inductive Spoils : List Char → Prop
  | plus (rest : List Char) : Spoils ('+' :: rest)
  | minus (rest : List Char) : Spoils ('-' :: rest)
  | unit : Spoils ['i']

theorem not_isWord_of_isDigit (digit : isDigit c = true) : ¬ IsWord (c :: s) := by
  have range := isDigit_range digit
  have same : c.toLower = c := by
    apply Char.toLower_eq_of_not_isUpper
    intro upper
    simp only [Char.isUpper, decide_eq_true_eq] at upper
    have above : 65 ≤ c.toNat := upper.1
    omega
  intro word
  simp only [IsWord, List.map_cons, same, List.mem_cons, List.not_mem_nil, or_false] at word
  rcases word with word | word | word <;>
  · obtain rfl := (List.cons.inj word).1
    exact absurd range (by decide)

theorem readUnsigned_digitsWith (spells : Spells whole fraction v) (ends : GoesOnOtherwise rest) :
    readUnsigned (digitsWith whole fraction ++ rest) =
      (readExponent rest).map (fun e => nearest (valueOf (whole ++ fraction)) (e - fraction.length)) := by
  rw [readUnsigned_of_not_word, readMagnitude_digitsWith spells.filled spells.digits spells.places ends]
  obtain ⟨c, more, rfl⟩ := List.exists_cons_of_ne_nil spells.filled
  exact not_isWord_of_isDigit (spells.digits c List.mem_cons_self)

theorem IsMagnitude.ne_nil (magnitude : IsMagnitude s) : s ≠ [] := by
  cases magnitude with
  | digits spells => exact List.append_ne_nil_of_left_ne_nil spells.filled _
  | infinite => exact List.cons_ne_nil _ _

/-- There are no signs and no exponent marks in the text of a magnitude. -/
theorem IsMagnitude.plain (magnitude : IsMagnitude s) (member : c ∈ s) :
    (c ≠ '+' ∧ c ≠ '-') ∧ c ≠ 'e' ∧ c ≠ 'E' := by
  have digit : ∀ {c : Char}, isDigit c = true → (c ≠ '+' ∧ c ≠ '-') ∧ c ≠ 'e' ∧ c ≠ 'E' := by
    intro c digit
    have range := isDigit_range digit
    refine ⟨⟨?_, ?_⟩, ?_, ?_⟩ <;> rintro rfl <;> exact absurd range (by decide)
  cases magnitude with
  | digits spells =>
      rcases List.mem_append.mp member with whole | behind
      · exact digit (spells.digits c whole)
      · split at behind
        · cases behind
        · rcases List.mem_cons.mp behind with rfl | places
          · decide
          · exact digit (spells.places c places)
  | infinite =>
      simp only [List.mem_cons, List.not_mem_nil, or_false] at member
      rcases member with rfl | rfl | rfl <;> decide

theorem Spoils.goesOnOtherwise (spoils : Spoils rest) : GoesOnOtherwise rest := by
  cases spoils <;> rintro c ⟨⟩ <;> decide

theorem IsMagnitude.readUnsigned_append (magnitude : IsMagnitude s) (spoils : Spoils rest) :
    readUnsigned (s ++ rest) = none := by
  cases magnitude with
  | digits spells =>
      rw [readUnsigned_digitsWith spells spoils.goesOnOtherwise]
      cases spoils <;> rw [readExponent_of_head (by decide)] <;> rfl
  | infinite =>
      have other : ¬ IsWord (['i', 'n', 'f'] ++ rest) := by
        cases spoils <;> simp [IsWord]
      rw [readUnsigned_of_not_word other]
      exact readMagnitude_of_head (by rintro c ⟨⟩; decide)

theorem Binary.Proper.magnitude_reads (proper : b.Proper) :
    IsMagnitude (amounts.magnitude b) ∧
      readUnsigned (amounts.magnitude b) = some (.ofModel (.pack b.unpacked.abs)) := by
  have reads {whole fraction : List Char} {v : ℚ} (spells : Spells whole fraction v) :
      readUnsigned (digitsWith whole fraction) =
        some (nearest (valueOf (whole ++ fraction)) (0 - fraction.length)) := by
    have whole := readUnsigned_digitsWith spells goesOnOtherwise_nil
    rwa [List.append_nil] at whole
  unfold Style.magnitude
  split
  · next empty =>
      have zero := spells_zeros 0 0
      have parts : b.unpacked.abs = .zero .positive := by
        rw [Binary.unpacked, dif_neg (by omega)]
        rfl
      have value : nearest 0 0 = .ofModel (.pack (.zero .positive)) := (ofModel_pack unpack_zero).symm
      refine ⟨.digits zero, (reads zero).trans ?_⟩
      rw [parts, ← value]
      rfl
  · next significant =>
      have pos : 0 < b.significand := Nat.pos_of_ne_zero significant
      have covers := proper.covers_shortest pos amounts.tie
      obtain ⟨whole, fraction, shape, spells⟩ := exists_spells (shortest amounts.tie b)
      rw [← spells.value] at covers
      have parts : b.unpacked.abs = .finite .positive b.significand b.exponent pos := by
        rw [Binary.unpacked, dif_pos pos]
        rfl
      change IsMagnitude (amounts.positionally (shortest amounts.tie b)) ∧
        readUnsigned (amounts.positionally (shortest amounts.tie b)) = _
      rw [shape, parts]
      refine ⟨.digits spells, (reads spells).trans ?_⟩
      rw [zero_sub, nearest_eq proper pos covers]

theorem exists_magnitude (number : x.isNaN = false) :
    ∃ u, amounts.write x = (if signBit x then ['-'] else []) ++ u ∧ IsMagnitude u ∧ readUnsigned u = some x.abs := by
  cases parts : Binary.ofFloat? x with
  | some b =>
      obtain ⟨proper, negative, unpacks⟩ := proper_of_ofFloat? parts
      obtain ⟨magnitude, reads⟩ := proper.magnitude_reads
      refine ⟨amounts.magnitude b, ?_, magnitude, ?_⟩
      · simp only [Style.write, parts, negative]
      · rw [reads, ← unpacks]
        rfl
  | none =>
      have infinite : x.abs = 1.0 / 0.0 := by
        have unpacks : x.abs = .ofModel (.pack x.toModel.unpack.abs) := rfl
        rw [unpacks, unpack_of_ofFloat?_eq_none parts number]
        change Float.ofModel (.pack (.infinity .positive)) = _
        decide
      refine ⟨_, ?_, .infinite, ?_⟩
      · simp only [Style.write, parts, number, Bool.false_eq_true, if_false]
        split <;> rfl
      · rw [infinite]
        rfl

/-! ## Amounts -/

theorem IsMagnitude.readFloat_signed (magnitude : IsMagnitude s) (negative : Bool) (rest : List Char) :
    readFloat ((if negative then ['-'] else []) ++ (s ++ rest)) =
      (readUnsigned (s ++ rest)).map (fun x => if negative then -x else x) := by
  cases negative with
  | true => exact readFloat_minus
  | false =>
      have unsigned : ∀ c, (s ++ rest).head? = some c → c ≠ '-' ∧ c ≠ '+' := by
        intro c first
        rw [List.head?_append_of_ne_nil _ magnitude.ne_nil] at first
        exact (magnitude.plain (List.mem_of_mem_head? first)).1.symm
      exact (readFloat_of_head unsigned).trans (by simp)

theorem toList_amountText : (amountText x).toList = amounts.write x :=
  String.toList_ofList

theorem readFloat_write (number : x.isNaN = false) : readFloat (amounts.write x) = some x := by
  obtain ⟨u, written, magnitude, reads⟩ := exists_magnitude number
  have signed := magnitude.readFloat_signed (signBit x) []
  rw [List.append_nil, ← written, reads] at signed
  rw [signed, Option.map_some]
  cases sign : signBit x with
  | true => exact congrArg some (neg_abs_of_signBit sign)
  | false => exact congrArg some (abs_eq_of_signBit sign)

theorem readFloat_write_append (number : x.isNaN = false) (spoils : Spoils rest) :
    readFloat (amounts.write x ++ rest) = none := by
  obtain ⟨u, written, magnitude, -⟩ := exists_magnitude number
  rw [written, List.append_assoc, magnitude.readFloat_signed, magnitude.readUnsigned_append spoils, Option.map_none]

theorem magnitude_write (number : x.isNaN = false) (positive : signBit x = false) :
    IsMagnitude (amounts.write x) ∧ readUnsigned (amounts.write x) = some x := by
  obtain ⟨u, written, magnitude, reads⟩ := exists_magnitude number
  rw [positive] at written
  rw [abs_eq_of_signBit positive] at reads
  exact written ▸ ⟨magnitude, reads⟩

theorem unmarked_write (number : x.isNaN = false) (member : c ∈ amounts.write x) : c ≠ 'e' ∧ c ≠ 'E' := by
  obtain ⟨u, written, magnitude, -⟩ := exists_magnitude number
  rw [written] at member
  rcases List.mem_append.mp member with sign | inside
  · split at sign
    · rw [List.mem_singleton.mp sign]
      decide
    · cases sign
  · exact (magnitude.plain inside).2

end TwoLane.Decimal
