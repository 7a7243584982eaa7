import Mathlib
import TwoLane.Proofs.Decimal.Parts

/-! # Rounding to the nearest float

A value that lies in the interval of a float rounds to that float. A mantissa that is cut off shows how the value stands
to it and to the middle of its last place, and still does so when more places are cut off. From this the nearest
mantissa is taken. At the lower end of a binade the value may have one place more than the float, and the mantissa then
carries into the next binade.
-/

namespace TwoLane.Decimal

open Float.Model (UnpackedFloat Format totalExponent)
open Float.Model.UnpackedFloat

variable {b : Binary} {i : Interval} {em : ExtendedMantissa} {acc : Accuracy} {s : Sign} {m n r : Nat} {e t : Int}
  {v w : ℚ}

/-! ## Intervals -/

/-- Whether a value lies in the interval. -/
def Interval.Covers (i : Interval) (v : ℚ) : Prop :=
  if i.closed then i.lower * 2 ^ i.exponent ≤ v ∧ v ≤ i.upper * 2 ^ i.exponent
  else i.lower * 2 ^ i.exponent < v ∧ v < i.upper * 2 ^ i.exponent

/-- A natural number is nearest to a value. Of two equally near ones it is the even one. -/
structure IsNearest (n : Nat) (v : ℚ) : Prop where
  below : n - 1 / 2 ≤ v
  above : v ≤ n + 1 / 2
  even : v = n - 1 / 2 ∨ v = n + 1 / 2 → n % 2 = 0

theorem IsNearest.not_lt (near : IsNearest n v) (other : IsNearest m v) : ¬ n < m := by
  intro less
  have next : (n : ℚ) + 1 ≤ m := by exact_mod_cast less
  have middle : v = n + 1 / 2 := le_antisymm near.above (by linarith [other.below])
  have gap : v = m - 1 / 2 := le_antisymm (by linarith [near.above]) other.below
  have same : m = n + 1 := by
    have : (m : ℚ) = n + 1 := by linarith
    exact_mod_cast this
  have first := near.even (.inr middle)
  have second := other.even (.inl gap)
  omega

theorem IsNearest.unique (near : IsNearest n v) (other : IsNearest m v) : n = m := by
  have := near.not_lt other
  have := other.not_lt near
  omega

theorem isNearest_self (n : Nat) : IsNearest n n :=
  ⟨by linarith, by linarith, by rintro (gap | gap) <;> linarith⟩

/-- The significand of a float is nearest to every value in its interval, and a value below the least significand of a
    binade is nearer to it than to the middle of the last place. -/
theorem Binary.nearest_of_covers (pos : 0 < b.significand) (covers : b.interval.Covers v) :
    IsNearest b.significand (v / 2 ^ b.exponent) ∧
      (b.closerBelow = true → b.significand - 1 / 4 ≤ v / 2 ^ b.exponent) := by
  have unit : (0 : ℚ) < 2 ^ b.exponent := by positivity
  have quarter : (2 : ℚ) ^ (b.exponent - 2) = 2 ^ b.exponent / 4 := by
    rw [zpow_sub₀ two_ne_zero]
    norm_num
  obtain ⟨w, scaled⟩ : ∃ w, w = v / 2 ^ b.exponent := ⟨_, rfl⟩
  have value : v = w * 2 ^ b.exponent := by rw [scaled, div_mul_cancel₀ _ unit.ne']
  obtain ⟨reach, short, closer, lower⟩ : ∃ reach : ℚ, reach ≤ 1 / 2 ∧ (b.closerBelow = true → reach = 1 / 4) ∧
      (b.interval.lower : ℚ) * 2 ^ b.interval.exponent = (b.significand - reach) * 2 ^ b.exponent := by
    refine ⟨if b.closerBelow then 1 / 4 else 1 / 2, by split_ifs <;> norm_num, fun closer => if_pos closer, ?_⟩
    simp only [Binary.interval, quarter]
    split_ifs <;>
    · rw [Nat.cast_sub (by omega)]
      push_cast
      ring
  have upper : (b.interval.upper : ℚ) * 2 ^ b.interval.exponent = (b.significand + 1 / 2) * 2 ^ b.exponent := by
    simp only [Binary.interval, quarter]
    push_cast
    ring
  have closed : b.interval.closed = true ↔ b.significand % 2 = 0 := beq_iff_eq
  rw [Interval.Covers, lower, upper, value] at covers
  simp only [mul_le_mul_iff_left₀ unit, mul_lt_mul_iff_left₀ unit, closed] at covers
  rw [← scaled]
  split_ifs at covers with even
  · exact ⟨⟨by linarith, covers.2, fun _ => even⟩, fun near => by linarith [closer near]⟩
  · refine ⟨⟨by linarith, covers.2.le, ?_⟩, fun near => by linarith [closer near]⟩
    rintro (gap | gap) <;> linarith

theorem Binary.Proper.lt_of_covers (proper : b.Proper) (pos : 0 < b.significand) (covers : b.interval.Covers v) :
    v < 2 ^ (b.exponent + 53) := by
  have near := (Binary.nearest_of_covers pos covers).1
  have top : (b.significand : ℚ) + 1 ≤ 2 ^ (53 : Int) := by exact_mod_cast proper.inFormat.lt
  rw [add_comm, zpow_add₀ two_ne_zero, ← div_lt_iff₀ (by positivity)]
  linarith [near.above]

/-- What rounds to a positive float lies in the range of the format. -/
theorem Binary.Proper.range (proper : b.Proper) (pos : 0 < b.significand) (covers : b.interval.Covers v) :
    2 ^ (-1075 : Int) ≤ v ∧ v < 2 ^ (1024 : Int) := by
  have near := (Binary.nearest_of_covers pos covers).1
  have unit : (0 : ℚ) < 2 ^ b.exponent := by positivity
  have some : (1 : ℚ) ≤ b.significand := by exact_mod_cast pos
  obtain ⟨-, low, high, -⟩ := proper.inFormat
  constructor
  · calc (2 : ℚ) ^ (-1075 : Int) ≤ 2 ^ (b.exponent - 1) := zpow_le_zpow_right₀ one_le_two (by omega)
      _ = 1 / 2 * 2 ^ b.exponent := by
          rw [zpow_sub_one₀ two_ne_zero]
          ring
      _ ≤ v := by
          rw [← le_div_iff₀ unit]
          linarith [near.below]
  · exact (proper.lt_of_covers pos covers).trans_le (zpow_le_zpow_right₀ one_le_two (by omega))

/-! ## Mantissas -/

/-- Where a value lies, as a mantissa and what is kept of the places behind it show. -/
def Shows (em : ExtendedMantissa) (v : ℚ) : Prop :=
  match em.accuracy with
  | .exact => v = em.mantissa
  | .inexact .lt => em.mantissa < v ∧ v < em.mantissa + 1 / 2
  | .inexact .eq => v = em.mantissa + 1 / 2
  | .inexact .gt => em.mantissa + 1 / 2 < v ∧ v < em.mantissa + 1

theorem Shows.bounds (shows : Shows em v) : em.mantissa ≤ v ∧ v < em.mantissa + 1 := by
  unfold Shows at shows
  split at shows
  · exact ⟨by linarith, by linarith⟩
  · exact ⟨by linarith, by linarith⟩
  · exact ⟨by linarith, by linarith⟩
  · exact ⟨by linarith, by linarith⟩

theorem Shows.half (shows : Shows em v) : Shows em.shiftRightOne (v / 2) := by
  obtain ⟨m, round, sticky⟩ := em
  obtain ⟨half, rfl | rfl⟩ : ∃ k, m = 2 * k ∨ m = 2 * k + 1 := ⟨m / 2, by omega⟩
  · have whole : 2 * half / 2 = half := by omega
    have bit : (2 * half % 2 != 0) = false := by simp
    cases round <;> cases sticky <;>
      simp only [Shows, ExtendedMantissa.shiftRightOne, ExtendedMantissa.accuracy, whole, bit, Bool.or_self,
        Bool.or_true, Bool.or_false, Nat.cast_mul, Nat.cast_ofNat] at shows ⊢
    · linarith
    · exact ⟨by linarith, by linarith⟩
    · exact ⟨by linarith, by linarith⟩
    · exact ⟨by linarith, by linarith⟩
  · have whole : (2 * half + 1) / 2 = half := by omega
    have bit : ((2 * half + 1) % 2 != 0) = true := by simp
    cases round <;> cases sticky <;>
      simp only [Shows, ExtendedMantissa.shiftRightOne, ExtendedMantissa.accuracy, whole, bit, Bool.or_self,
        Bool.or_true, Bool.or_false, Nat.cast_mul, Nat.cast_add, Nat.cast_one, Nat.cast_ofNat] at shows ⊢
    · linarith
    · exact ⟨by linarith, by linarith⟩
    · exact ⟨by linarith, by linarith⟩
    · exact ⟨by linarith, by linarith⟩

theorem Shows.shift (shows : Shows em v) (n : Nat) : Shows (em >>> n) (v / 2 ^ n) := by
  change Shows (n.repeat ExtendedMantissa.shiftRightOne em) (v / 2 ^ n)
  induction n with
  | zero => simpa [Nat.repeat] using shows
  | succ n ih =>
      rw [Nat.repeat, pow_succ, ← div_div]
      exact ih.half

theorem Shows.nearest (shows : Shows em v) : IsNearest em.roundedMantissa v := by
  obtain ⟨m, round, sticky⟩ := em
  cases round <;> cases sticky <;>
    simp only [Shows, ExtendedMantissa.accuracy, ExtendedMantissa.roundedMantissa,
      Accuracy.roundToNearestEven] at shows ⊢
  · exact ⟨by linarith, by linarith, by rintro (gap | gap) <;> linarith⟩
  · exact ⟨by linarith, by linarith, by rintro (gap | gap) <;> linarith⟩
  · rcases Nat.mod_two_eq_zero_or_one m with even | odd
    · rw [even]
      exact ⟨by simp; linarith, by simp; linarith, fun _ => by omega⟩
    · rw [odd]
      exact ⟨by push_cast; linarith, by push_cast; linarith, fun _ => by omega⟩
  · refine ⟨by push_cast; linarith, by push_cast; linarith, ?_⟩
    push_cast
    rintro (gap | gap) <;> linarith

/-! ## Places -/

/-- The exponent to which a mantissa is shifted. -/
def place (m : Nat) (e : Int) : Int :=
  max (m.log2 + e - 52) (-1074)

theorem targetExponent_eq : Format.binary64.targetExponent (totalExponent m e) = place m e := by
  have places : (Format.binary64.mantissaBits : Int) = 53 := rfl
  have least : Format.binary64.minExponent = -1074 := rfl
  rw [Format.targetExponent, totalExponent, places, least, place]
  omega

/-- A mantissa with enough places shows where a value lies. -/
structure Approximates (m : Nat) (e : Int) (acc : Accuracy) (v : ℚ) : Prop where
  shows : Shows (.ofMantissaAndAccuracy m acc) (v / 2 ^ e)
  wide : 52 ≤ m.log2 ∨ e ≤ -1074

theorem approximates_exact (wide : 52 ≤ m.log2) : Approximates m e .exact (m * 2 ^ e) where
  shows := mul_div_cancel_right₀ _ (by positivity)
  wide := .inl wide

theorem Approximates.le_place (approx : Approximates m e acc v) : e ≤ place m e := by
  have := approx.wide
  unfold place
  omega

theorem mantissa_ofMantissaAndAccuracy : (ExtendedMantissa.ofMantissaAndAccuracy m acc).mantissa = m := by
  unfold ExtendedMantissa.ofMantissaAndAccuracy
  split <;> rfl

theorem Approximates.lt (approx : Approximates m e acc v) : v < 2 ^ (place m e + 53) := by
  have bounds := approx.shows.bounds
  rw [mantissa_ofMantissaAndAccuracy, div_lt_iff₀ (by positivity)] at bounds
  have next : ((m + 1 : Nat) : ℚ) ≤ 2 ^ (m.log2 + 1) := by exact_mod_cast Nat.lt_log2_self
  calc v < (m + 1) * 2 ^ e := bounds.2
    _ ≤ 2 ^ (m.log2 + 1) * 2 ^ e := by
        push_cast at next
        gcongr
    _ = 2 ^ ((m.log2 : Int) + 1 + e) := by
        rw [zpow_add₀ two_ne_zero]
        norm_cast
    _ ≤ 2 ^ (place m e + 53) := by
        refine zpow_le_zpow_right₀ one_le_two ?_
        unfold place
        omega

theorem Approximates.place_le (approx : Approximates m e acc v) :
    place m e = -1074 ∨ 2 ^ (place m e + 52) ≤ v := by
  rw [or_iff_not_imp_left]
  intro above
  have least : place m e = m.log2 + e - 52 := by
    unfold place at above ⊢
    omega
  have filled : m ≠ 0 := by
    rintro rfl
    have wide := approx.wide
    rw [least] at above
    unfold place at least
    rw [Nat.log2_zero] at *
    omega
  have bounds := approx.shows.bounds
  rw [mantissa_ofMantissaAndAccuracy, le_div_iff₀ (by positivity)] at bounds
  have leading : (2 : ℚ) ^ m.log2 ≤ m := by exact_mod_cast Nat.log2_self_le filled
  calc (2 : ℚ) ^ (place m e + 52) = 2 ^ ((m.log2 : Int) + e) := by rw [least]; congr 1; omega
    _ = 2 ^ m.log2 * 2 ^ e := by
        rw [zpow_add₀ two_ne_zero]
        norm_cast
    _ ≤ m * 2 ^ e := by gcongr
    _ ≤ v := bounds.1

/-! ## Rounding -/

theorem shiftToTargetExponent_of_lt (lt : r < 2 ^ 53) (low : -1074 ≤ t) :
    shiftToTargetExponent .binary64 r t .exact = (⟨r, false, false⟩, t) := by
  have top : r.log2 < 53 := by
    by_cases empty : r = 0
    · simp [empty]
    · exact (Nat.log2_lt empty).mpr lt
  have stays : (place r t - t).toNat = 0 := by
    unfold place
    omega
  simp only [shiftToTargetExponent, shiftToExponent, targetExponent_eq, stays, Nat.cast_zero, add_zero]
  rfl

theorem shiftToTargetExponent_carry (low : -1074 ≤ t) :
    shiftToTargetExponent .binary64 (2 ^ 53) t .exact = (⟨2 ^ 52, false, false⟩, t + 1) := by
  have once : (place (2 ^ 53) t - t).toNat = 1 := by
    rw [place, Nat.log2_two_pow]
    omega
  simp only [shiftToTargetExponent, shiftToExponent, targetExponent_eq, once, Nat.cast_one]
  rfl

theorem Approximates.first (approx : Approximates m e acc v) :
    IsNearest (shiftToTargetExponent .binary64 m e acc).1.roundedMantissa (v / 2 ^ place m e) ∧
      (shiftToTargetExponent .binary64 m e acc).2 = place m e := by
  have shift : e + ((place m e - e).toNat : Int) = place m e := by
    have := approx.le_place
    omega
  simp only [shiftToTargetExponent, shiftToExponent, targetExponent_eq, shift, and_true]
  have scaled : v / 2 ^ e / 2 ^ (place m e - e).toNat = v / 2 ^ place m e := by
    rw [div_div, ← zpow_natCast, ← zpow_add₀ two_ne_zero, shift]
  rw [← scaled]
  exact (approx.shows.shift _).nearest

theorem Approximates.round_of_nearest (approx : Approximates m e acc v) (pos : 0 < r) (lt : r < 2 ^ 53)
    (near : IsNearest r (v / 2 ^ place m e)) :
    roundWithAccuracy .binary64 s m e acc = .finite s r (place m e) pos := by
  obtain ⟨first, exponent⟩ := approx.first
  have rounded := first.unique near
  have second := shiftToTargetExponent_of_lt lt (t := place m e) (le_max_right _ _)
  simp only [roundWithAccuracy, rounded, exponent, second, pos.ne', dite_false]

theorem Approximates.round_of_carry (approx : Approximates m e acc v)
    (near : IsNearest (2 ^ 53) (v / 2 ^ place m e)) :
    roundWithAccuracy .binary64 s m e acc = .finite s (2 ^ 52) (place m e + 1) (by decide) := by
  obtain ⟨first, exponent⟩ := approx.first
  have rounded := first.unique near
  have second := shiftToTargetExponent_carry (t := place m e) (le_max_right _ _)
  have pos : (2 : Nat) ^ 52 ≠ 0 := by decide
  simp only [roundWithAccuracy, rounded, exponent, second, pos, dite_false]

theorem lt_of_zpow_lt {j k : Int} (less : (2 : ℚ) ^ j < 2 ^ k) : j < k :=
  (zpow_lt_zpow_iff_right₀ one_lt_two).mp less

theorem Approximates.place_le_exponent (approx : Approximates m e acc v) (proper : b.Proper) (pos : 0 < b.significand)
    (covers : b.interval.Covers v) : place m e ≤ b.exponent := by
  have low := proper.inFormat.low
  rcases approx.place_le with least | leading
  · omega
  · have := lt_of_zpow_lt (leading.trans_lt (proper.lt_of_covers pos covers))
    omega

/-- A value in the interval of a float has as many places as the float, or one more if it lies below the least
    significand of a binade. -/
theorem Approximates.place_cases (approx : Approximates m e acc v) (proper : b.Proper) (pos : 0 < b.significand)
    (covers : b.interval.Covers v) :
    place m e = b.exponent ∨ (place m e + 1 = b.exponent ∧ b.significand = 2 ^ 52 ∧ b.closerBelow = true) := by
  obtain ⟨near, closer⟩ := Binary.nearest_of_covers pos covers
  have unit : (0 : ℚ) < 2 ^ b.exponent := by positivity
  have leading {k : Int} (above : 2 ^ k < v / 2 ^ b.exponent) : k + b.exponent < place m e + 53 := by
    rw [lt_div_iff₀ unit, ← zpow_add₀ two_ne_zero] at above
    exact lt_of_zpow_lt (above.trans approx.lt)
  have low : -1074 ≤ place m e := le_max_right _ _
  have notAbove := approx.place_le_exponent proper pos covers
  rw [or_iff_not_imp_left]
  intro other
  have least : b.significand = 2 ^ 52 := by
    by_contra more
    have full := proper.inFormat.full
    have next : (2 : ℚ) ^ (52 : Int) + 1 ≤ b.significand := by
      have : 2 ^ 52 + 1 ≤ b.significand := by omega
      exact_mod_cast this
    have := leading (k := 52) (by linarith [near.below])
    omega
  have nearer : b.closerBelow = true := proper.closer.mpr ⟨least, by omega⟩
  have quarter := closer nearer
  rw [least] at quarter
  push_cast at quarter
  have := leading (k := 51) (by linarith)
  exact ⟨by omega, least, nearer⟩

theorem Approximates.round_eq (approx : Approximates m e acc v) (proper : b.Proper) (pos : 0 < b.significand)
    (covers : b.interval.Covers v) :
    roundWithAccuracy .binary64 s m e acc = .finite s b.significand b.exponent pos := by
  obtain ⟨near, closer⟩ := Binary.nearest_of_covers pos covers
  rcases approx.place_cases proper pos covers with same | ⟨next, least, nearer⟩
  · rw [← same] at near
    simp only [approx.round_of_nearest pos proper.inFormat.lt near, same]
  · -- the significand of the value is a little less than twice as large, and carries when it is rounded
    have quarter := closer nearer
    have doubled : v / 2 ^ place m e = 2 * (v / 2 ^ b.exponent) := by
      rw [← next, zpow_add_one₀ two_ne_zero]
      field_simp
    have under : v / 2 ^ place m e < 2 ^ (53 : Int) := by
      rw [div_lt_iff₀ (by positivity), ← zpow_add₀ two_ne_zero, add_comm]
      exact approx.lt
    rw [least] at quarter
    push_cast at quarter
    have carries : IsNearest (2 ^ 53) (v / 2 ^ place m e) :=
      ⟨by push_cast; linarith, by push_cast; linarith, fun _ => by decide⟩
    simp only [approx.round_of_carry carries, least, next]

end TwoLane.Decimal
