import Mathlib
import TwoLane.Decimal.Style

/-! # Floats and their parts

A float that is not infinite and not undefined is its sign and its parts, and a significand and an exponent that the
format can hold belong to exactly one float of each sign. Negation changes the sign and nothing else, and the sign is
what a comparison with zero shows.
-/

namespace TwoLane.Decimal

open Float.Model (UnpackedFloat Format)
open Float.Model.UnpackedFloat

variable {x y : Float} {u : UnpackedFloat} {b : Binary} {m : Nat} {e : Int} {s : Sign}

/-- The sign that a sign bit stands for. -/
def signOf (negative : Bool) : Sign :=
  if negative then .negative else .positive

/-- A significand and an exponent as the format pairs them: the significand fills its places unless the exponent is the
    least one. -/
structure InFormat (m : Nat) (e : Int) : Prop where
  lt : m < 2 ^ 53
  low : -1074 ≤ e
  high : e ≤ 971
  full : 2 ^ 52 ≤ m ∨ e = -1074

def fractionOf (x : Float) : Nat :=
  x.toBits.toNat % 2 ^ 52

/-- The exponent as it is stored. -/
def biasedOf (x : Float) : Nat :=
  x.toBits.toNat / 2 ^ 52 % 2 ^ 11

/-! ## Fields -/

theorem toNat_unpackMantissa (v : BitVec 64) : (@unpackMantissa .binary64 v).toNat = v.toNat % 2 ^ 52 := by
  rw [unpackMantissa_def]
  exact BitVec.extractLsb'_toNat ..

theorem toNat_unpackExponent (v : BitVec 64) :
    (@unpackExponent .binary64 v).toNat = v.toNat / 2 ^ 52 % 2 ^ 11 := by
  rw [unpackExponent_def, ← Nat.shiftRight_eq_div_pow]
  exact BitVec.extractLsb'_toNat ..

theorem ofBitVec_unpackSign (v : BitVec 64) :
    Sign.ofBitVec (@unpackSign .binary64 v) = signOf (v.toNat.testBit 63) := by
  have bit : (@unpackSign .binary64 v).toNat = v.toNat / 2 ^ 63 % 2 := by
    rw [unpackSign_def, ← Nat.shiftRight_eq_div_pow]
    exact BitVec.extractLsb'_toNat ..
  have clear : @unpackSign .binary64 v = 0#1 ↔ ¬ v.toNat / 2 ^ 63 % 2 = 1 := by
    rw [← BitVec.toNat_inj, bit, BitVec.toNat_ofNat]
    omega
  rw [Nat.testBit_eq_decide_div_mod_eq, Sign.ofBitVec, signOf]
  simp only [clear, ite_not, decide_eq_true_eq]

theorem toNat_implicit (f : BitVec 52) : (1#1 ++ f).toNat = 2 ^ 52 + f.toNat := by
  rw [BitVec.toNat_append, ← Nat.shiftLeft_add_eq_or_of_lt f.isLt]
  rfl

/-- What bits with given fields stand for. -/
theorem unpack_packComponents (k : BitVec 11) (f : BitVec 52) :
    unpack .binary64 (packComponents .binary64 s k f) =
      if k.toNat = 2047 then (if f.toNat = 0 then .infinity s else .notANumber)
      else if k.toNat = 0 then
        if empty : f.toNat = 0 then .zero s else .finite s f.toNat (-1074) (Nat.pos_of_ne_zero empty)
      else .finite s (2 ^ 52 + f.toNat) (k.toNat - 1075) (by omega) := by
  have all : k = -1#11 ↔ k.toNat = 2047 := by rw [← BitVec.toNat_inj]; rfl
  have none : k = 0#11 ↔ k.toNat = 0 := by rw [← BitVec.toNat_inj]; rfl
  have empty : f = 0#52 ↔ f.toNat = 0 := by rw [← BitVec.toNat_inj]; rfl
  have bias : (Format.binary64.exponentBias : Int) = 1023 := rfl
  unfold unpack
  simp only [unpackExponent_packComponents, unpackMantissa_packComponents, unpackSign_packComponents,
    Sign.ofBitVec_toBitVec, all, none, empty, toNat_implicit, bias]
  split_ifs with _ _ least <;> simp only [UnpackedFloat.finite.injEq, true_and]
  · rw [least]
    rfl
  · rfl

theorem exists_fields (x : Float) :
    ∃ (k : BitVec 11) (f : BitVec 52), k.toNat = biasedOf x ∧ f.toNat = fractionOf x ∧
      x.toBits.toBitVec = packComponents .binary64 (signOf (signBit x)) k f := by
  refine ⟨@unpackExponent .binary64 x.toBits.toBitVec, @unpackMantissa .binary64 x.toBits.toBitVec,
    toNat_unpackExponent _, toNat_unpackMantissa _, ?_⟩
  have sign : Sign.ofBitVec (@unpackSign .binary64 x.toBits.toBitVec) = signOf (signBit x) :=
    ofBitVec_unpackSign _
  rw [← sign]
  exact (@packComponents_unpackSign_unpackExponent_unpackMantissa .binary64 x.toBits.toBitVec).symm

theorem unpack_eq (x : Float) :
    x.toModel.unpack =
      if biasedOf x = 2047 then (if fractionOf x = 0 then .infinity (signOf (signBit x)) else .notANumber)
      else if biasedOf x = 0 then
        if empty : fractionOf x = 0 then .zero (signOf (signBit x))
        else .finite (signOf (signBit x)) (fractionOf x) (-1074) (Nat.pos_of_ne_zero empty)
      else .finite (signOf (signBit x)) (2 ^ 52 + fractionOf x) (biasedOf x - 1075) (by omega) := by
  obtain ⟨k, f, biased, fraction, bits⟩ := exists_fields x
  have whole : x.toModel.unpack = unpack .binary64 x.toBits.toBitVec := rfl
  rw [whole, bits, unpack_packComponents]
  simp only [biased, fraction]

/-! ## What the format holds -/

/-- Whether the format holds a number as it stands. -/
def Held : UnpackedFloat → Prop
  | .finite _ m e _ => InFormat m e
  | .infinity _ | .notANumber | .zero _ => True

theorem held_unpack (x : Float) : Held x.toModel.unpack := by
  have fraction : fractionOf x < 2 ^ 52 := Nat.mod_lt _ (by decide)
  have biased : biasedOf x < 2 ^ 11 := Nat.mod_lt _ (by decide)
  rw [unpack_eq]
  split_ifs with all undefined least empty
  · trivial
  · trivial
  · trivial
  · exact ⟨by omega, by omega, by omega, .inr rfl⟩
  · exact ⟨by omega, by omega, by omega, .inl (by omega)⟩

/-- A number that the format holds is got back from its bits. -/
theorem unpack_pack (held : Held u) : (Float.Model.pack u).unpack = u := by
  change unpack .binary64 (pack .binary64 u) = u
  cases u with
  | infinity s =>
      have infinite : pack .binary64 (.infinity s) = packComponents .binary64 s (-1#11) 0#52 := rfl
      rw [infinite, unpack_packComponents, if_pos (by decide), if_pos (by decide)]
  | notANumber => exact unpack_packedNaN
  | zero s => exact unpack_packedZero
  | finite s m e pos =>
      obtain ⟨lt, low, high, full⟩ := held
      have bias : (Format.binary64.exponentBias : Int) = 1023 := rfl
      have finite : ¬ 2 ^ 11 ≤ (e + 1023 + (52 : Nat)).toNat + 1 := by omega
      simp only [pack, bias, finite, if_false]
      split_ifs with normal
      · have leading : 2 ^ 52 ≤ m := by
          rw [← Nat.le_log2 pos.ne']
          have places : Format.binary64.mantissaBits = 53 := rfl
          omega
        have exponent : (BitVec.ofNat 11 (e + 1023 + (52 : Nat)).toNat).toNat = (e + 1075).toNat := by
          rw [BitVec.toNat_ofNat]
          omega
        have fraction : (BitVec.ofNat 52 m).toNat = m - 2 ^ 52 := by
          rw [BitVec.toNat_ofNat]
          omega
        rw [unpack_packComponents]
        simp only [exponent, fraction]
        rw [if_neg (by omega), if_neg (by omega)]
        simp only [UnpackedFloat.finite.injEq, true_and]
        omega
      · have short : m < 2 ^ 52 := by
          by_contra long
          have top : m.log2 = 52 := (Nat.log2_eq_iff pos.ne').mpr ⟨by omega, by omega⟩
          exact normal (by rw [top]; rfl)
        have exponent : (0#11).toNat = 0 := rfl
        have fraction : (BitVec.ofNat 52 m).toNat = m := by
          rw [BitVec.toNat_ofNat]
          omega
        rw [unpack_packComponents]
        simp only [exponent, fraction]
        rw [if_neg (by omega), if_pos trivial, dif_neg (by omega)]
        simp only [UnpackedFloat.finite.injEq, true_and]
        omega

theorem ofModel_pack (unpacks : x.toModel.unpack = u) : Float.ofModel (Float.Model.pack u) = x := by
  rw [← unpacks, ← Float.toBits_inj, ← UInt64.toBitVec_inj]
  exact pack_unpack_of_valid x.toModel.valid

theorem eq_of_unpack_eq (same : x.toModel.unpack = y.toModel.unpack) : x = y := by
  rw [← ofModel_pack same, ofModel_pack rfl]

/-! ## Signs -/

/-- Whether a number has a given sign or is undefined. -/
def HasSign (s : Sign) : UnpackedFloat → Prop
  | .infinity t | .zero t | .finite t _ _ _ => t = s
  | .notANumber => True

theorem hasSign_unpack (x : Float) : HasSign (signOf (signBit x)) x.toModel.unpack := by
  rw [unpack_eq]
  split_ifs <;> trivial

theorem unpack_ne_of_isNaN (number : x.isNaN = false) : x.toModel.unpack ≠ .notANumber := by
  intro undefined
  have fails : x.isNaN = x.toModel.unpack.isNaN := rfl
  rw [fails, undefined] at number
  cases number

theorem signBit_eq_of_hasSign {negative : Bool} (number : x.isNaN = false)
    (sign : HasSign (signOf negative) x.toModel.unpack) : signBit x = negative := by
  have own := hasSign_unpack x
  have same : signOf (signBit x) = signOf negative := by
    cases parts : x.toModel.unpack with
    | notANumber => exact absurd parts (unpack_ne_of_isNaN number)
    | infinity s | zero s | finite s m e pos =>
        rw [parts] at own sign
        exact own.symm.trans sign
  generalize signBit x = bit at same ⊢
  cases bit <;> cases negative <;> first | rfl | cases same

theorem unpack_neg (x : Float) : (-x).toModel.unpack = x.toModel.unpack.neg := by
  refine unpack_pack ?_
  have held := held_unpack x
  cases parts : x.toModel.unpack <;> rw [parts] at held <;> exact held

theorem unpack_abs (x : Float) : x.abs.toModel.unpack = x.toModel.unpack.abs := by
  refine unpack_pack ?_
  have held := held_unpack x
  cases parts : x.toModel.unpack <;> rw [parts] at held <;> exact held

theorem neg_neg_sign (s : Sign) : - -s = s := by
  cases s <;> rfl

theorem neg_neg_float (x : Float) : - -x = x := by
  apply eq_of_unpack_eq
  rw [unpack_neg, unpack_neg]
  cases x.toModel.unpack <;> simp only [UnpackedFloat.neg, neg_neg_sign]

theorem isNaN_neg (number : x.isNaN = false) : (-x).isNaN = false := by
  have same : (-x).isNaN = (-x).toModel.unpack.isNaN := rfl
  have own : x.isNaN = x.toModel.unpack.isNaN := rfl
  rw [own] at number
  rw [same, unpack_neg]
  cases parts : x.toModel.unpack <;> rw [parts] at number <;> first | rfl | cases number

theorem signBit_neg (number : x.isNaN = false) : signBit (-x) = !signBit x := by
  apply signBit_eq_of_hasSign (isNaN_neg number)
  have own := hasSign_unpack x
  rw [unpack_neg]
  generalize signBit x = bit at own ⊢
  cases parts : x.toModel.unpack <;> rw [parts] at own <;> cases bit <;> first | trivial | (cases own; rfl)

theorem abs_eq_of_signBit (positive : signBit x = false) : x.abs = x := by
  apply eq_of_unpack_eq
  have own := hasSign_unpack x
  rw [unpack_abs]
  rw [positive] at own
  cases parts : x.toModel.unpack <;> rw [parts] at own <;> first | rfl | (cases own; rfl)

theorem neg_abs_of_signBit (negative : signBit x = true) : -x.abs = x := by
  apply eq_of_unpack_eq
  have own := hasSign_unpack x
  rw [unpack_neg, unpack_abs]
  rw [negative] at own
  cases parts : x.toModel.unpack <;> rw [parts] at own <;> first | rfl | (cases own; rfl)

/-! ## Comparison -/

theorem beq_self (number : x.isNaN = false) : (x == x) = true := by
  rw [Float.beq_self_iff]
  simpa using number

theorem unpack_zero : (0 : Float).toModel.unpack = .zero .positive := by
  rfl

theorem lt_zero_iff : x < 0 ↔ x.toModel.unpack.lt (.zero .positive) = true := by
  rw [← unpack_zero]
  exact decide_eq_true_iff

theorem beq_zero_iff : (x == 0) = true ↔ x.toModel.unpack.beq (.zero .positive) = true := by
  rw [← unpack_zero]
  rfl

theorem signBit_of_neg (negative : x < 0) : signBit x = true := by
  have own := hasSign_unpack x
  rw [lt_zero_iff] at negative
  generalize signBit x = bit at own ⊢
  cases bit with
  | true => rfl
  | false => cases parts : x.toModel.unpack <;> rw [parts] at own negative <;> cases own <;> cases negative

theorem signBit_of_pos (number : x.isNaN = false) (notZero : ¬ (x == 0) = true) (notNegative : ¬ x < 0) :
    signBit x = false := by
  have own := hasSign_unpack x
  have known := unpack_ne_of_isNaN number
  rw [beq_zero_iff] at notZero
  rw [lt_zero_iff] at notNegative
  generalize signBit x = bit at own ⊢
  cases bit with
  | false => rfl
  | true =>
      cases parts : x.toModel.unpack with
      | notANumber => exact absurd parts known
      | zero s =>
          rw [parts] at own notZero
          cases own
          exact absurd rfl notZero
      | infinity s | finite s m e pos =>
          rw [parts] at own notNegative
          cases own
          exact absurd rfl notNegative

/-! ## Parts -/

/-- Whether the parts are those of some float. -/
structure Binary.Proper (b : Binary) : Prop where
  inFormat : InFormat b.significand b.exponent
  closer : b.closerBelow = true ↔ b.significand = 2 ^ 52 ∧ -1074 < b.exponent

/-- The number that the parts stand for. -/
def Binary.unpacked (b : Binary) : UnpackedFloat :=
  if pos : 0 < b.significand then .finite (signOf b.negative) b.significand b.exponent pos
  else .zero (signOf b.negative)

theorem ofFloat?_eq (x : Float) :
    Binary.ofFloat? x =
      if biasedOf x = 2047 then none
      else if biasedOf x = 0 then some ⟨signBit x, fractionOf x, -1074, false⟩
      else some ⟨signBit x, 2 ^ 52 + fractionOf x, (biasedOf x : Int) - 1075, fractionOf x == 0 && 1 < biasedOf x⟩ := by
  rfl

theorem proper_of_ofFloat? (parts : Binary.ofFloat? x = some b) :
    b.Proper ∧ b.negative = signBit x ∧ x.toModel.unpack = b.unpacked := by
  have fraction : fractionOf x < 2 ^ 52 := Nat.mod_lt _ (by decide)
  have biased : biasedOf x < 2 ^ 11 := Nat.mod_lt _ (by decide)
  rw [ofFloat?_eq] at parts
  rw [unpack_eq]
  split_ifs at parts with all least
  · obtain rfl := Option.some.inj parts
    refine ⟨⟨⟨by simpa using by omega, by simp, by simp, .inr rfl⟩, by simp⟩, rfl, ?_⟩
    rw [if_neg all, if_pos least]
    simp only [Binary.unpacked, Nat.pos_iff_ne_zero, dite_not]
  · obtain rfl := Option.some.inj parts
    refine ⟨⟨⟨by simpa using by omega, by simpa using by omega, by simpa using by omega, .inl (by simp)⟩, ?_⟩, rfl, ?_⟩
    · simp
      omega
    · rw [if_neg all, if_neg least]
      simp [Binary.unpacked]

theorem unpack_of_ofFloat?_eq_none (parts : Binary.ofFloat? x = none) (number : x.isNaN = false) :
    x.toModel.unpack = .infinity (signOf (signBit x)) := by
  have known := unpack_ne_of_isNaN number
  rw [ofFloat?_eq] at parts
  rw [unpack_eq] at known ⊢
  split_ifs at parts with all
  simp only [all, if_true] at known ⊢
  split_ifs at known ⊢ with infinite
  · rfl
  · exact absurd rfl known

end TwoLane.Decimal
