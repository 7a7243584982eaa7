import Mathlib
import TwoLane.Decimal.Reader
import TwoLane.Decimal.Shortest
import TwoLane.Proofs.Decimal.Rounding

/-! # Decimals as floats

A decimal in the interval of a float is converted to that float. Few digits and a small power of ten are floats
themselves, so that one quotient or product of floats is all there is to round. Otherwise the quotient or the product
of the natural numbers is rounded.

The shortest decimal of a float lies in its interval. Whatever grid the search for it stops at, what it takes there
reads back. It does stop: the steps of the last grid are shorter than the upper half of the interval, so that the first
multiple above the value is still inside.
-/

namespace TwoLane.Decimal

open Float.Model (UnpackedFloat Format totalExponent)
open Float.Model.UnpackedFloat

variable {x y : Float} {b : Binary} {i : Interval} {tie : Tie} {n d m₁ m₂ digits : Nat} {e e₁ e₂ t p k : Int} {v w : ℚ}

/-! ## Quotients and products -/

/-- What a division leaves shows how the quotient stands to the middle of its last place. -/
theorem shows_accuracyOfFraction (pos : 0 < d) :
    Shows (.ofMantissaAndAccuracy (n / d) (accuracyOfFraction (n % d) d)) (n / d) := by
  have unit : (0 : ℚ) < d := by exact_mod_cast pos
  have rest : ((n % d : Nat) : ℚ) < d := by exact_mod_cast Nat.mod_lt n pos
  have parts : (n : ℚ) / d = (n / d : Nat) + (n % d : Nat) / d := by
    have sum : (n : ℚ) = d * (n / d : Nat) + (n % d : Nat) := by exact_mod_cast (Nat.div_add_mod n d).symm
    field_simp
    exact sum
  rw [parts, accuracyOfFraction]
  split_ifs with exact
  · simp [Shows, ExtendedMantissa.ofMantissaAndAccuracy, ExtendedMantissa.accuracy, exact]
  · have some : (0 : ℚ) < (n % d : Nat) := by exact_mod_cast Nat.pos_of_ne_zero exact
    rcases order : compare (2 * (n % d)) d with _ | _ | _
    · have less : 2 * ((n % d : Nat) : ℚ) < d := by exact_mod_cast Nat.compare_eq_lt.mp order
      have positive : 0 < ((n % d : Nat) : ℚ) / d := by positivity
      have half : ((n % d : Nat) : ℚ) / d < 1 / 2 := by rw [div_lt_iff₀ unit]; linarith
      change ((n / d : Nat) : ℚ) < _ ∧ _ < ((n / d : Nat) : ℚ) + 1 / 2
      exact ⟨by linarith, by linarith⟩
    · have same : 2 * ((n % d : Nat) : ℚ) = d := by exact_mod_cast Nat.compare_eq_eq.mp order
      have half : ((n % d : Nat) : ℚ) / d = 1 / 2 := by rw [div_eq_iff unit.ne']; linarith
      rw [half]
      rfl
    · have more : (d : ℚ) < 2 * ((n % d : Nat) : ℚ) := by exact_mod_cast Nat.compare_eq_gt.mp order
      have half : 1 / 2 < ((n % d : Nat) : ℚ) / d := by rw [lt_div_iff₀ unit]; linarith
      have less : ((n % d : Nat) : ℚ) / d < 1 := by rw [div_lt_one unit]; exact rest
      change ((n / d : Nat) : ℚ) + 1 / 2 < _ ∧ _ < ((n / d : Nat) : ℚ) + 1
      exact ⟨by linarith, by linarith⟩

theorem approximates_divCore (left : 0 < m₁) (right : 0 < m₂) :
    Approximates (divCore .binary64 m₁ e₁ m₂ e₂).1 (divCore .binary64 m₁ e₁ m₂ e₂).2.1
      (divCore .binary64 m₁ e₁ m₂ e₂).2.2 (m₁ * 2 ^ e₁ / (m₂ * 2 ^ e₂)) := by
  obtain ⟨t, target⟩ : ∃ t, t = min (e₁ - e₂)
      (Format.binary64.targetExponent (totalExponent m₁ e₁ - totalExponent m₂ e₂)) := ⟨_, rfl⟩
  obtain ⟨k, shift⟩ : ∃ k, k = (e₁ - e₂ - t).toNat := ⟨_, rfl⟩
  have parts : divCore .binary64 m₁ e₁ m₂ e₂ =
      (m₁ * 2 ^ k / m₂, t, accuracyOfFraction (m₁ * 2 ^ k % m₂) m₂) := by
    rw [divCore, ← target, ← shift, Nat.shiftLeft_eq]
  have places : (Format.binary64.mantissaBits : Int) = 53 := rfl
  have least : Format.binary64.minExponent = -1074 := rfl
  rw [Format.targetExponent, totalExponent, totalExponent, places, least] at target
  have scaled : (m₁ * 2 ^ e₁ / (m₂ * 2 ^ e₂) : ℚ) / 2 ^ t = (m₁ * 2 ^ k : Nat) / m₂ := by
    have sum : e₁ = k + e₂ + t := by omega
    rw [sum, zpow_add₀ two_ne_zero, zpow_add₀ two_ne_zero, zpow_natCast]
    push_cast
    field_simp
  rw [parts]
  refine ⟨?_, ?_⟩
  · rw [scaled]
    exact shows_accuracyOfFraction right
  · rw [or_iff_not_imp_right]
    intro above
    have above : ¬ t ≤ -1074 := above
    have enough : m₂.log2 + 53 ≤ m₁.log2 + k := by omega
    have quotient : 2 ^ 52 ≤ m₁ * 2 ^ k / m₂ := by
      rw [Nat.le_div_iff_mul_le right]
      calc 2 ^ 52 * m₂ ≤ 2 ^ 52 * 2 ^ (m₂.log2 + 1) := Nat.mul_le_mul_left _ Nat.lt_log2_self.le
        _ = 2 ^ (m₂.log2 + 53) := by rw [← pow_add]; congr 1; omega
        _ ≤ 2 ^ (m₁.log2 + k) := Nat.pow_le_pow_right (by decide) enough
        _ = 2 ^ m₁.log2 * 2 ^ k := pow_add ..
        _ ≤ m₁ * 2 ^ k := Nat.mul_le_mul_right _ (Nat.log2_self_le left.ne')
    exact (Nat.le_log2 (by omega)).mpr quotient

theorem approximates_mul (wide : 52 ≤ m₁.log2) (right : 0 < m₂) :
    Approximates (m₁ * m₂) (e₁ + e₂) .exact (m₁ * 2 ^ e₁ * (m₂ * 2 ^ e₂)) := by
  have left : m₁ ≠ 0 := by
    rintro rfl
    simp at wide
  refine ⟨?_, .inl (wide.trans ?_)⟩
  · change _ / _ = ((m₁ * m₂ : Nat) : ℚ)
    rw [zpow_add₀ two_ne_zero]
    push_cast
    field_simp
  · rw [Nat.le_log2 (Nat.mul_ne_zero left right.ne')]
    exact (Nat.log2_self_le left).trans (Nat.le_mul_of_pos_right _ right)

/-! ## Floats with all their places -/

/-- A float is positive and finite, has all its places and a given value. -/
def IsFull (x : Float) (v : ℚ) : Prop :=
  ∃ m e pos, x.toModel.unpack = .finite .positive m e pos ∧ 52 ≤ m.log2 ∧ m * 2 ^ e = v

/-- Shifted to the left until it fills its places, a natural number is not larger than a significand. -/
theorem shifted_bounds {k : Nat} (pos : 0 < n) (room : n.log2 + k = 52) : 2 ^ 52 ≤ n * 2 ^ k ∧ n * 2 ^ k < 2 ^ 53 := by
  constructor
  · rw [← room, pow_add]
    exact Nat.mul_le_mul_right _ (Nat.log2_self_le pos.ne')
  · have all : 2 ^ 53 = 2 ^ (n.log2 + 1) * 2 ^ k := by rw [← pow_add]; congr 1; omega
    rw [all]
    exact Nat.mul_lt_mul_of_pos_right Nat.lt_log2_self (by positivity)

/-- A natural number that is not larger than a significand is converted as it is. -/
theorem isFull_round (pos : 0 < n) (lt : n < 2 ^ 53) (low : 0 ≤ e) (high : e ≤ 971) :
    IsFull (.ofModel (.pack (round .binary64 .positive n e))) (n * 2 ^ e) := by
  have short : n.log2 < 53 := (Nat.log2_lt pos.ne').mpr lt
  obtain ⟨k, room⟩ : ∃ k, n.log2 + k = 52 := ⟨52 - n.log2, by omega⟩
  obtain ⟨leading, below⟩ := shifted_bounds pos room
  have filled : 0 < n * 2 ^ k := by positivity
  have top : (n * 2 ^ k).log2 = 52 := (Nat.log2_eq_iff filled.ne').mpr ⟨leading, below⟩
  have shift : (e - place n e).toNat = k := by
    unfold place
    omega
  have stays : place (n * 2 ^ k) (e - k) = e - k := by
    unfold place
    omega
  have near : IsNearest (n * 2 ^ k) ((n * 2 ^ k : Nat) * 2 ^ (e - k) / 2 ^ place (n * 2 ^ k) (e - k)) := by
    rw [stays, mul_div_cancel_right₀ _ (by positivity)]
    exact isNearest_self _
  have rounds : round .binary64 .positive n e = .finite .positive (n * 2 ^ k) (e - k) filled := by
    simp only [UnpackedFloat.round, decreaseExponent, targetExponent_eq, shift, Nat.shiftLeft_eq]
    rw [(approximates_exact top.ge).round_of_nearest filled below near]
    simp only [stays]
  refine ⟨n * 2 ^ k, e - k, filled, ?_, top.ge, ?_⟩
  · rw [rounds]
    exact unpack_pack ⟨below, by omega, by omega, .inl leading⟩
  · rw [zpow_sub₀ two_ne_zero, zpow_natCast]
    push_cast
    field_simp

theorem isFull_toFloat (pos : 0 < n) (lt : n < 2 ^ 53) : IsFull n.toUInt64.toFloat n := by
  have same : n.toUInt64.toNat = n := UInt64.toNat_ofNat_of_lt (lt.trans (by decide))
  have full := isFull_round pos lt (le_refl 0) (by decide)
  have rounds : n.toUInt64.toFloat = .ofModel (.pack (round .binary64 .positive n 0)) := by
    rw [UInt64.toFloat, Float.Model.ofUInt64, ofUInt64, UnpackedFloat.ofNat, ofInt, UnpackedFloat.normalize, same]
    rw [Int.compare_eq_gt.mpr (by omega)]
    rfl
  rwa [rounds, zpow_zero, mul_one] at *

theorem powersOfTen_eq (k : Fin 23) :
    Float.exactlyRepresentablePowersOfTen[k] = .ofModel (.pack (round .binary64 .positive (5 ^ k.1) k)) := by
  revert k
  decide

theorem isFull_powersOfTen (k : Fin 23) : IsFull Float.exactlyRepresentablePowersOfTen[k] (10 ^ k.1) := by
  have lt : 5 ^ k.1 < 2 ^ 53 := (Nat.pow_le_pow_right (by decide) (by omega : k.1 ≤ 22)).trans_lt (by decide)
  have full := isFull_round (by positivity) lt (by omega : (0 : Int) ≤ k.1) (by omega)
  rw [powersOfTen_eq]
  convert full using 1
  rw [zpow_natCast]
  push_cast
  rw [← mul_pow]
  norm_num

/-- The quotient of two floats is the float in whose interval the quotient of their values lies. -/
theorem IsFull.div_eq (left : IsFull x v) (right : IsFull y w) (proper : b.Proper) (pos : 0 < b.significand)
    (covers : b.interval.Covers (v / w)) :
    x / y = .ofModel (.pack (.finite .positive b.significand b.exponent pos)) := by
  obtain ⟨m₁, e₁, pos₁, unpacks₁, -, rfl⟩ := left
  obtain ⟨m₂, e₂, pos₂, unpacks₂, -, rfl⟩ := right
  change Float.ofModel (.pack (div .binary64 x.toModel.unpack y.toModel.unpack)) = _
  rw [unpacks₁, unpacks₂]
  exact congrArg (fun u => Float.ofModel (.pack u)) ((approximates_divCore pos₁ pos₂).round_eq proper pos covers)

theorem IsFull.mul_eq (left : IsFull x v) (right : IsFull y w) (proper : b.Proper) (pos : 0 < b.significand)
    (covers : b.interval.Covers (v * w)) :
    x * y = .ofModel (.pack (.finite .positive b.significand b.exponent pos)) := by
  obtain ⟨m₁, e₁, pos₁, unpacks₁, wide, rfl⟩ := left
  obtain ⟨m₂, e₂, pos₂, unpacks₂, -, rfl⟩ := right
  change Float.ofModel (.pack (mul .binary64 x.toModel.unpack y.toModel.unpack)) = _
  rw [unpacks₁, unpacks₂]
  exact congrArg (fun u => Float.ofModel (.pack u)) ((approximates_mul wide pos₂).round_eq proper pos covers)

/-! ## Powers of ten and of two -/

theorem pow_le_pow_of_blocks {x y : ℚ} (left : 0 ≤ x) (right : 0 ≤ y) {p q r s : Nat} (block : x ^ p ≤ y ^ q)
    (single : x ^ r ≤ y ^ s) (m n : Nat) : x ^ (p * m + r * n) ≤ y ^ (q * m + s * n) := by
  rw [pow_add, pow_add, pow_mul, pow_mul, pow_mul, pow_mul]
  gcongr

/-- A power of ten between zero and one, by comparing the twenty-eighth power of ten with the ninety-third of two. -/
theorem ten_zpow_le_of_nonpos (small : e ≤ 0) (le : 93 * e + 243 ≤ 28 * t) : (10 : ℚ) ^ e ≤ 2 ^ t := by
  obtain ⟨m, n, parts, short⟩ : ∃ m n : Nat, -e = (28 * m + 1 * n : Nat) ∧ n < 28 :=
    ⟨(-e).toNat / 28, (-e).toNat % 28, by omega, by omega⟩
  rw [← inv_le_inv₀ (by positivity) (by positivity), ← zpow_neg, ← zpow_neg, parts]
  calc (2 : ℚ) ^ (-t) ≤ 2 ^ ((93 * m + 3 * n : Nat) : Int) := zpow_le_zpow_right₀ one_le_two (by omega)
    _ ≤ 10 ^ ((28 * m + 1 * n : Nat) : Int) := by
        rw [zpow_natCast, zpow_natCast]
        exact pow_le_pow_of_blocks (by norm_num) (by norm_num) (by norm_num) (by norm_num) m n

/-- A power of ten from one on, by comparing the third power of ten with the tenth of two. -/
theorem ten_zpow_le_of_nonneg (large : 0 ≤ e) (le : 10 * e + 4 ≤ 3 * t) : (10 : ℚ) ^ e ≤ 2 ^ t := by
  obtain ⟨m, n, parts, short⟩ : ∃ m n : Nat, e = (3 * m + 1 * n : Nat) ∧ n < 3 :=
    ⟨e.toNat / 3, e.toNat % 3, by omega, by omega⟩
  rw [parts]
  calc (10 : ℚ) ^ ((3 * m + 1 * n : Nat) : Int) ≤ 2 ^ ((10 * m + 4 * n : Nat) : Int) := by
        rw [zpow_natCast, zpow_natCast]
        exact pow_le_pow_of_blocks (by norm_num) (by norm_num) (by norm_num) (by norm_num) m n
    _ ≤ 2 ^ t := zpow_le_zpow_right₀ one_le_two (by omega)

theorem two_zpow_le (large : 0 ≤ e) (le : 28 * t + 243 ≤ 93 * e) : (2 : ℚ) ^ t ≤ 10 ^ e := by
  have below := ten_zpow_le_of_nonpos (e := -e) (t := -t) (by omega) (by omega)
  rwa [zpow_neg, zpow_neg, inv_le_inv₀ (by positivity) (by positivity)] at below

/-! ## Decimals -/

/-- A decimal in the range of the format has an exponent for which powers are computed. -/
theorem exponent_bounds (filled : 0 < n) (low : 2 ^ (-1075 : Int) ≤ (n : ℚ) * 10 ^ e)
    (high : (n : ℚ) * 10 ^ e < 2 ^ (1024 : Int)) : e ≤ 2 ^ 11 ∧ -(2 ^ 11 + (n.log2 : Int)) ≤ e := by
  have power : (0 : ℚ) < 10 ^ e := by positivity
  have some : (1 : ℚ) ≤ n := by exact_mod_cast filled
  constructor
  · by_contra large
    refine absurd high (not_lt.mpr ?_)
    calc (2 : ℚ) ^ (1024 : Int) ≤ 10 ^ e := two_zpow_le (by omega) (by omega)
      _ ≤ n * 10 ^ e := le_mul_of_one_le_left power.le some
  · by_contra small
    have top : (n : ℚ) < 2 ^ ((n.log2 : Int) + 1) := by exact_mod_cast Nat.lt_log2_self
    refine absurd low (not_le.mpr ?_)
    calc (n : ℚ) * 10 ^ e < 2 ^ ((n.log2 : Int) + 1) * 10 ^ e := by gcongr
      _ ≤ 2 ^ ((n.log2 : Int) + 1) * 2 ^ e := by
          gcongr
          exact ten_zpow_le_of_nonpos (by omega) (by omega)
      _ = 2 ^ ((n.log2 : Int) + 1 + e) := (zpow_add₀ two_ne_zero ..).symm
      _ ≤ 2 ^ (-1075 : Int) := zpow_le_zpow_right₀ one_le_two (by omega)

theorem ofScientific_of_few (proper : b.Proper) (pos : 0 < b.significand) (filled : 0 < n)
    (few : n < 2 ^ 53 ∧ e.natAbs ≤ 22) (covers : b.interval.Covers (n * 10 ^ e)) :
    Float.ofScientific n (decide (e < 0)) e.natAbs =
      .ofModel (.pack (.finite .positive b.significand b.exponent pos)) := by
  have left := isFull_toFloat filled few.1
  have right := isFull_powersOfTen ⟨e.natAbs, by omega⟩
  rw [Float.ofScientific, dif_pos few]
  by_cases negative : e < 0
  · have quotient : (n : ℚ) * 10 ^ e = n / 10 ^ e.natAbs := by
      have negated : e = -(e.natAbs : Int) := by omega
      conv_lhs => rw [negated, zpow_neg, zpow_natCast]
      rw [div_eq_mul_inv]
    rw [quotient] at covers
    rw [if_pos (decide_eq_true negative)]
    exact left.div_eq right proper pos covers
  · have product : (n : ℚ) * 10 ^ e = n * 10 ^ e.natAbs := by
      have same : e = (e.natAbs : Int) := by omega
      conv_lhs => rw [same, zpow_natCast]
    rw [product] at covers
    rw [if_neg (by simpa using negative)]
    exact left.mul_eq right proper pos covers

/-- All other decimals are quotients or products of natural numbers. -/
theorem unpackedScientific_eq (proper : b.Proper) (pos : 0 < b.significand) (filled : 0 < n)
    (covers : b.interval.Covers (n * 10 ^ e)) :
    ofScientific .binary64 n e = .finite .positive b.significand b.exponent pos := by
  obtain ⟨low, high⟩ := proper.range pos covers
  obtain ⟨notLarge, notSmall⟩ := exponent_bounds filled low high
  have bound : (2 : Int) ^ Format.binary64.exponentBits = 2 ^ 11 := rfl
  rw [UnpackedFloat.ofScientific, dif_neg filled.ne', bound, if_neg (not_lt.mpr notLarge),
    if_neg (not_lt.mpr notSmall)]
  have shifted : n <<< 53 = n * 2 ^ 53 := Nat.shiftLeft_eq ..
  split_ifs with positive
  · have value : (n * 10 ^ e : ℚ) =
        (n <<< 53 : Nat) * 2 ^ (-53 : Int) * ((10 ^ e.toNat : Nat) * 2 ^ (0 : Int)) := by
      have same : e = (e.toNat : Int) := by omega
      conv_lhs => rw [same, zpow_natCast]
      rw [shifted]
      push_cast
      field_simp
      norm_num
    have wide : 52 ≤ (n <<< 53).log2 := by
      rw [shifted, Nat.le_log2 (by positivity)]
      omega
    rw [value] at covers
    exact (approximates_mul wide (by positivity)).round_eq proper pos covers
  · have value : (n * 10 ^ e : ℚ) = n * 2 ^ (0 : Int) / ((10 ^ (-e).toNat : Nat) * 2 ^ (0 : Int)) := by
      have negated : e = -((-e).toNat : Int) := by omega
      conv_lhs => rw [negated, zpow_neg, zpow_natCast]
      push_cast
      rw [mul_one, mul_one, div_eq_mul_inv]
    rw [value] at covers
    exact (approximates_divCore filled (by positivity)).round_eq proper pos covers

theorem ofScientific_eq (proper : b.Proper) (pos : 0 < b.significand) (filled : 0 < n)
    (covers : b.interval.Covers (n * 10 ^ e)) :
    Float.ofScientific n (decide (e < 0)) e.natAbs =
      .ofModel (.pack (.finite .positive b.significand b.exponent pos)) := by
  by_cases few : n < 2 ^ 53 ∧ e.natAbs ≤ 22
  · exact ofScientific_of_few proper pos filled few covers
  · have signed : (if decide (e < 0) = true then Int.negOfNat e.natAbs else Int.ofNat e.natAbs) = e := by
      simp only [decide_eq_true_eq, Int.negOfNat_eq, Int.ofNat_eq_natCast]
      omega
    rw [Float.ofScientific, dif_neg few, signed]
    exact congrArg (fun u => Float.ofModel (.pack u)) (unpackedScientific_eq proper pos filled covers)

/-- A natural number lies between the powers of ten that its digits count. -/
theorem toDigits_bounds (filled : 0 < n) :
    (10 : ℚ) ^ (((Nat.toDigits 10 n).length : Int) - 1) ≤ n ∧ (n : ℚ) ≤ 10 ^ ((Nat.toDigits 10 n).length : Int) := by
  have counts {k : Nat} (pos : 0 < k) := Nat.length_toDigits_le_iff (b := 10) (n := n) (by decide) pos
  obtain ⟨others, size⟩ : ∃ others, (Nat.toDigits 10 n).length = others + 1 :=
    Nat.exists_eq_add_one_of_ne_zero Nat.length_toDigits_pos.ne'
  rw [size, Nat.cast_succ, add_sub_cancel_right]
  constructor
  · have enough : 10 ^ others ≤ n := by
      by_contra less
      have less : n < 10 ^ others := not_le.mp less
      cases others with
      | zero => omega
      | succ others =>
          have := (counts others.succ_pos).mpr less
          omega
    exact_mod_cast enough
  · exact_mod_cast ((counts others.succ_pos).mp size.le).le

/-- What rounds to a float is read as that float. -/
theorem nearest_eq (proper : b.Proper) (pos : 0 < b.significand) (covers : b.interval.Covers (n * 10 ^ e)) :
    nearest n e = .ofModel (.pack (.finite .positive b.significand b.exponent pos)) := by
  obtain ⟨low, high⟩ := proper.range pos covers
  have filled : 0 < n := by
    by_contra empty
    rw [Nat.eq_zero_of_not_pos empty, Nat.cast_zero, zero_mul] at low
    exact absurd low (not_le.mpr (by positivity))
  obtain ⟨leading, below⟩ := toDigits_bounds filled
  unfold nearest
  generalize ((Nat.toDigits 10 n).length : Int) = size at leading below ⊢
  have power : (0 : ℚ) < 10 ^ e := by positivity
  have notLarge : ¬ e + size > 400 := by
    intro large
    refine absurd high (not_lt.mpr ?_)
    calc (2 : ℚ) ^ (1024 : Int) ≤ 10 ^ (size - 1 + e) := two_zpow_le (by omega) (by omega)
      _ = 10 ^ (size - 1) * 10 ^ e := zpow_add₀ (by norm_num) ..
      _ ≤ n * 10 ^ e := by gcongr
  have notSmall : ¬ e + size < -400 := by
    intro small
    refine absurd low (not_le.mpr ?_)
    calc (n : ℚ) * 10 ^ e ≤ 10 ^ size * 10 ^ e := by gcongr
      _ = 10 ^ (size + e) := (zpow_add₀ (by norm_num) ..).symm
      _ ≤ 2 ^ (-1076 : Int) := ten_zpow_le_of_nonpos (by omega) (by omega)
      _ < 2 ^ (-1075 : Int) := zpow_lt_zpow_right₀ one_lt_two (by decide)
  simp only [filled.ne', notLarge, notSmall, if_false]
  exact ofScientific_eq proper pos filled covers

/-! ## Grids -/

theorem gridRatio_pos : 0 < (gridRatio n p k).2 :=
  Nat.mul_pos (Nat.pow_pos (by decide)) (Nat.pow_pos (by decide))

theorem zpow_eq_div (a : ℚ) (p : Int) (filled : a ≠ 0) : a ^ p = a ^ p.toNat / a ^ (-p).toNat := by
  rw [← zpow_natCast, ← zpow_natCast, ← zpow_sub₀ filled]
  congr 1
  omega

theorem gridRatio_eq : ((gridRatio n p k).1 : ℚ) / (gridRatio n p k).2 = n * 2 ^ p / 10 ^ k := by
  rw [zpow_eq_div 2 p two_ne_zero, zpow_eq_div 10 k (by norm_num)]
  simp only [gridRatio, Nat.pow_eq]
  push_cast
  field_simp

theorem gridRatio_le_iff :
    (gridRatio n p k).1 ≤ digits * (gridRatio n p k).2 ↔ (n : ℚ) * 2 ^ p ≤ digits * 10 ^ k := by
  have unit : (0 : ℚ) < (gridRatio n p k).2 := by exact_mod_cast gridRatio_pos
  rw [← div_le_iff₀ (by positivity), ← gridRatio_eq, div_le_iff₀ unit]
  norm_cast

theorem le_gridRatio_iff :
    digits * (gridRatio n p k).2 ≤ (gridRatio n p k).1 ↔ (digits * 10 ^ k : ℚ) ≤ n * 2 ^ p := by
  have unit : (0 : ℚ) < (gridRatio n p k).2 := by exact_mod_cast gridRatio_pos
  rw [← le_div_iff₀ (by positivity), ← gridRatio_eq, le_div_iff₀ unit]
  norm_cast

theorem Interval.contains_iff : i.contains digits k = true ↔ i.Covers (digits * 10 ^ k) := by
  unfold Interval.contains Interval.Covers
  split_ifs
  · simp only [Bool.and_eq_true, decide_eq_true_eq, gridRatio_le_iff, le_gridRatio_iff]
  · simp only [Bool.and_eq_true, decide_eq_true_eq, ← not_le, gridRatio_le_iff, le_gridRatio_iff]

theorem Interval.covers_of_onGrid {d : Scaled} (found : i.onGrid tie k = some d) :
    i.Covers (d.digits * 10 ^ d.exponent) := by
  unfold Interval.onGrid at found
  dsimp only at found
  split at found
  · next below above =>
      obtain rfl := Option.some.inj found
      split_ifs
      · exact contains_iff.mp above
      · exact contains_iff.mp below
  · next below _ =>
      obtain rfl := Option.some.inj found
      exact contains_iff.mp below
  · next _ above =>
      obtain rfl := Option.some.inj found
      exact contains_iff.mp above
  · cases found

/-! ## The search -/

theorem Binary.covers_of_above (above : b.interval.value * 2 ^ b.interval.exponent < v)
    (near : v < b.interval.value * 2 ^ b.interval.exponent + 2 ^ (b.exponent - 1)) : b.interval.Covers v := by
  have exponent : b.interval.exponent = b.exponent - 2 := rfl
  have unit : (0 : ℚ) < 2 ^ (b.exponent - 2) := by positivity
  have half : (2 : ℚ) ^ (b.exponent - 1) = 2 * 2 ^ (b.exponent - 2) := by
    have sum : b.exponent - 1 = 1 + (b.exponent - 2) := by omega
    rw [sum, zpow_add₀ two_ne_zero, zpow_one]
  have lower : (b.interval.lower : ℚ) ≤ b.interval.value := by
    exact_mod_cast Nat.sub_le ..
  have upper : (b.interval.upper : ℚ) = b.interval.value + 2 := by
    simp only [Binary.interval]
    push_cast
    rfl
  rw [exponent] at above near
  have low : b.interval.lower * 2 ^ (b.exponent - 2) < v := (mul_le_mul_of_nonneg_right lower unit.le).trans_lt above
  have high : v < b.interval.upper * 2 ^ (b.exponent - 2) := by
    rw [upper]
    linarith
  rw [Interval.Covers, exponent]
  split_ifs
  · exact ⟨low.le, high.le⟩
  · exact ⟨low, high⟩

/-- A grid with steps shorter than the upper half of the interval has a multiple inside, the first one above the
    value. -/
theorem Binary.isSome_onGrid (fine : (10 : ℚ) ^ k < 2 ^ (b.exponent - 1)) :
    (b.interval.onGrid tie k).isSome = true := by
  obtain ⟨below, quotient⟩ : ∃ below, below = (gridRatio b.interval.value b.interval.exponent k).1 /
      (gridRatio b.interval.value b.interval.exponent k).2 := ⟨_, rfl⟩
  have notAbove : (below * 10 ^ k : ℚ) ≤ b.interval.value * 2 ^ b.interval.exponent :=
    le_gridRatio_iff.mp (quotient ▸ Nat.div_mul_le_self ..)
  have next : (b.interval.value * 2 ^ b.interval.exponent : ℚ) < (below + 1 : Nat) * 10 ^ k := by
    rw [← not_le, ← le_gridRatio_iff, quotient, not_le, Nat.add_one_mul]
    exact Nat.lt_div_mul_add gridRatio_pos
  have inside : b.interval.contains (below + 1) k = true := by
    rw [Interval.contains_iff]
    refine covers_of_above next ?_
    push_cast
    linarith
  unfold Interval.onGrid
  simp only [← quotient, inside]
  cases b.interval.contains below k <;> rfl

theorem Binary.Proper.lastGrid (proper : b.Proper) (pos : 0 < b.significand) :
    (10 : ℚ) ^ (b.interval.topPlace - (23 : Nat)) < 2 ^ (b.exponent - 1) := by
  obtain ⟨lt, low, high, -⟩ := proper.inFormat
  have places : b.interval.value.log2 < 55 := (Nat.log2_lt (by simp [Binary.interval]; omega)).mpr (by
    simp only [Binary.interval]
    omega)
  obtain ⟨size, counted⟩ : ∃ size : Int, size = (b.interval.value.log2 + 1 : Int) + (b.exponent - 2) := ⟨_, rfl⟩
  obtain ⟨j, top⟩ : ∃ j, j = size * 30103 / 100000 := ⟨_, rfl⟩
  have place : b.interval.topPlace - (23 : Nat) = j - 22 := by
    have exponent : b.interval.exponent = b.exponent - 2 := rfl
    rw [Interval.topPlace, exponent, ← counted, ← top]
    omega
  rw [place]
  calc (10 : ℚ) ^ (j - 22) ≤ 2 ^ (b.exponent - 2) := by
        rcases le_total (j - 22) 0 with small | large
        · exact ten_zpow_le_of_nonpos small (by omega)
        · exact ten_zpow_le_of_nonneg large (by omega)
    _ < 2 ^ (b.exponent - 1) := zpow_lt_zpow_right₀ one_lt_two (by omega)

/-- The shortest decimal of a positive float lies in the interval of the float. -/
theorem Binary.Proper.covers_shortest (proper : b.Proper) (pos : 0 < b.significand) (tie : Tie) :
    b.interval.Covers ((shortest tie b).digits * 10 ^ (shortest tie b).exponent) := by
  obtain ⟨d, found⟩ : ∃ d, (List.range 24).findSome? (fun step => b.interval.onGrid tie
      (b.interval.topPlace - (step : Nat))) = some d := by
    rw [← Option.isSome_iff_exists, List.isSome_findSome?, List.any_eq_true]
    exact ⟨23, by decide, isSome_onGrid (proper.lastGrid pos)⟩
  have taken : shortest tie b = d := by
    simp only [shortest, found, Option.getD_some]
  obtain ⟨step, -, offered⟩ := List.exists_of_findSome?_eq_some found
  rw [taken]
  exact Interval.covers_of_onGrid offered

end TwoLane.Decimal
