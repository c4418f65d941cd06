import Discharge.Number.Binary64
import Mathlib.Algebra.Order.Field.Basic
import Mathlib.Data.Rat.Cast.Order
import Mathlib.Tactic.Linarith
import Mathlib.Tactic.FieldSimp
import Mathlib.Tactic.Ring

/-!
# Rounding to the nearest double

`RoundsAt r q` says that the fraction `q` lies between the midpoints from the double of rank `r` to
its neighbours, the midpoints included exactly when `r` is even. `nearestRank_eq` says that rounding
gives back the rank in whose interval the fraction lies, whatever numerator and denominator it is
given by.
-/

namespace Discharge

namespace Binary64

variable {m n rank num den : Nat} {q : Rat}

/-- Whether the fraction rounds to the double of a positive rank. -/
def RoundsAt (rank : Nat) (q : Rat) : Prop :=
  if rank % 2 = 0 then
    (units (rank - 1) + units rank : Rat) ≤ 2 * q * unitsPerOne ∧
      2 * q * unitsPerOne ≤ units rank + units (rank + 1)
  else
    (units (rank - 1) + units rank : Rat) < 2 * q * unitsPerOne ∧
      2 * q * unitsPerOne < units rank + units (rank + 1)

/-- What rounds to a rank is not below the midpoint to the rank before. -/
theorem RoundsAt.low (h : RoundsAt rank q) :
    (units (rank - 1) + units rank : Rat) ≤ 2 * q * unitsPerOne := by
  unfold RoundsAt at h
  split at h
  · exact h.1
  · exact h.1.le

/-- What rounds to a rank is not above the midpoint to the next rank. -/
theorem RoundsAt.high (h : RoundsAt rank q) :
    2 * q * unitsPerOne ≤ (units rank + units (rank + 1) : Rat) := by
  unfold RoundsAt at h
  split at h
  · exact h.2
  · exact h.2.le

/-- The number of magnitudes with one exponent. -/
theorem pow52 : Nat.pow 2 52 = 4503599627370496 := by decide

/-- There is a unit in one. -/
theorem unitsPerOne_pos : 0 < unitsPerOne := by
  unfold unitsPerOne
  generalize 1074 = n
  exact Nat.two_pow_pos n

/-- Rank zero is no unit. -/
theorem units_zero : units 0 = 0 := if_pos (by decide)

/-- Magnitudes grow with their ranks. -/
theorem units_le_units (h : m ≤ n) : units m ≤ units n := by
  rcases Nat.lt_or_eq_of_le h with h | rfl
  · exact (units_lt_units h).le
  · exact le_rfl

/-- Only rank zero has no unit. -/
theorem units_pos (h : 0 < n) : 0 < units n := Nat.lt_of_le_of_lt (Nat.zero_le _) (units_lt_units h)

/-- The distance to the larger neighbour is positive. -/
theorem gap_pos (n : Nat) : 0 < gap n := Nat.two_pow_pos _

/-- Distances to the larger neighbour grow with the rank. -/
theorem gap_le_gap (h : m ≤ n) : gap m ≤ gap n :=
  Nat.pow_le_pow_right (by decide) (Nat.sub_le_sub_right (Nat.div_le_div_right h) 1)

/-- The magnitude of a significand at an exponent. -/
theorem units_of_significand {s sig : Nat} (hlt : sig < 2 * Nat.pow 2 52)
    (hs : s = 0 ∨ Nat.pow 2 52 ≤ sig) : units (s * Nat.pow 2 52 + sig) = sig * Nat.pow 2 s := by
  unfold units
  rw [pow52] at *
  split
  · next h =>
    obtain rfl : s = 0 := by omega
    simp
  · next h =>
    have hsig : 4503599627370496 ≤ sig := by omega
    have hmod : (s * 4503599627370496 + sig) % 4503599627370496 = sig - 4503599627370496 := by omega
    have hdiv : (s * 4503599627370496 + sig) / 4503599627370496 - 1 = s := by omega
    rw [hmod, hdiv, Nat.add_sub_cancel' hsig]

/-- The distance to the larger neighbour, by the exponent and the significand. -/
theorem gap_of_significand {s sig : Nat} (hlt : sig < 2 * Nat.pow 2 52)
    (hs : s = 0 ∨ Nat.pow 2 52 ≤ sig) : gap (s * Nat.pow 2 52 + sig) = Nat.pow 2 s := by
  unfold gap
  rw [pow52] at *
  have hdiv : (s * 4503599627370496 + sig) / 4503599627370496 - 1 = s := by omega
  rw [hdiv]

/-- A double is less than `2 ^ 53` times the distance to its larger neighbour. -/
theorem units_succ_le (n : Nat) : units (n + 1) ≤ 2 * Nat.pow 2 52 * gap n := by
  rw [units_succ_rank]
  unfold units gap
  split
  · next h =>
    have hdiv : n / Nat.pow 2 52 - 1 = 0 := by rw [Nat.div_eq_of_lt h]
    rw [hdiv]
    have hone : Nat.pow 2 0 = 1 := rfl
    rw [hone]
    omega
  · have hmod : n % Nat.pow 2 52 < Nat.pow 2 52 := Nat.mod_lt _ (Nat.two_pow_pos 52)
    rw [← Nat.succ_mul]
    exact Nat.mul_le_mul_right _ (by omega)

/-- A number shifted down to 53 binary digits has no more than these. -/
theorem shifted_lt (q : Nat) : q / Nat.pow 2 (q.log2 - 52) < 2 * Nat.pow 2 52 := by
  have hpow : 0 < Nat.pow 2 (q.log2 - 52) := Nat.two_pow_pos _
  rw [Nat.div_lt_iff_lt_mul hpow]
  have hlog := Nat.lt_log2_self (n := q)
  have hle : 2 ^ (q.log2 + 1) ≤ 2 ^ (53 + (q.log2 - 52)) :=
    Nat.pow_le_pow_right (by decide) (by omega)
  calc q < 2 ^ (53 + (q.log2 - 52)) := Nat.lt_of_lt_of_le hlog hle
    _ = 2 * Nat.pow 2 52 * Nat.pow 2 (q.log2 - 52) := by rw [Nat.pow_add]; rfl

/-- A number that is shifted down at all keeps 53 binary digits. -/
theorem le_shifted {q : Nat} (h : q.log2 - 52 ≠ 0) :
    Nat.pow 2 52 ≤ q / Nat.pow 2 (q.log2 - 52) := by
  have hpow : 0 < Nat.pow 2 (q.log2 - 52) := Nat.two_pow_pos _
  rw [Nat.le_div_iff_mul_le hpow]
  have hne : q ≠ 0 := by
    rintro rfl
    exact h (by decide)
  have hsum : q.log2 = 52 + (q.log2 - 52) := by omega
  calc Nat.pow 2 52 * Nat.pow 2 (q.log2 - 52) = 2 ^ (52 + (q.log2 - 52)) := by
        rw [Nat.pow_add]; rfl
    _ = 2 ^ q.log2 := by rw [← hsum]
    _ ≤ q := Nat.log2_self_le hne

/-- The parts that rounding cuts a fraction into: a magnitude with its rank, and the rest, which is
less than the distance to the next magnitude. -/
theorem nearestRank_cut (num : Nat) (hden : 0 < den) :
    ∃ lower cut, num * unitsPerOne = units lower * den + cut ∧ cut < gap lower * den ∧
      nearestRank num den =
        if 2 * cut > gap lower * den ∨ (2 * cut = gap lower * den ∧ lower % 2 = 1) then lower + 1
        else lower := by
  set scaled := num * unitsPerOne with hscaled
  set shift := (scaled / den).log2 - 52 with hshift
  set step := den * Nat.pow 2 shift with hstep
  have hpow : 0 < Nat.pow 2 shift := Nat.two_pow_pos shift
  have hquot : scaled / step = scaled / den / Nat.pow 2 shift := (Nat.div_div_eq_div_mul _ _ _).symm
  -- The significand has 53 binary digits, or fewer at the least exponent.
  have hlt : scaled / step < 2 * Nat.pow 2 52 := by
    rw [hquot]
    exact shifted_lt _
  have hs : shift = 0 ∨ Nat.pow 2 52 ≤ scaled / step := by
    by_cases h0 : shift = 0
    · exact .inl h0
    · rw [hquot]
      exact .inr (le_shifted h0)
  have hunits := units_of_significand hlt hs
  have hgap := gap_of_significand hlt hs
  refine ⟨shift * Nat.pow 2 52 + scaled / step, scaled % step, ?_, ?_, ?_⟩
  · have hdiv := Nat.div_add_mod scaled step
    rw [hunits]
    calc scaled = step * (scaled / step) + scaled % step := hdiv.symm
      _ = scaled / step * Nat.pow 2 shift * den + scaled % step := by rw [hstep]; ring
  · rw [hgap, Nat.mul_comm]
    exact Nat.mod_lt _ (Nat.mul_pos hden hpow)
  · rw [hgap, Nat.mul_comm _ den, ← hstep]
    unfold nearestRank
    simp only [← hscaled, ← hshift, ← hstep, Bool.or_eq_true, decide_eq_true_eq, Bool.and_eq_true,
      beq_iff_eq]

/-- Twice a fraction in units is a fraction of natural numbers. -/
theorem twice_fraction (num den : Nat) :
    2 * ((num : Rat) / den) * unitsPerOne = ((2 * (num * unitsPerOne) : Nat) : Rat) / den := by
  push_cast
  ring

/-- The interval of a rank in natural numbers. -/
theorem RoundsAt.of_fraction (hden : 0 < den) (h : RoundsAt rank (num / den)) :
    (units (rank - 1) + units rank) * den ≤ 2 * (num * unitsPerOne) ∧
      2 * (num * unitsPerOne) ≤ (units rank + units (rank + 1)) * den ∧
      (rank % 2 = 1 → (units (rank - 1) + units rank) * den < 2 * (num * unitsPerOne) ∧
        2 * (num * unitsPerOne) < (units rank + units (rank + 1)) * den) := by
  have hpos : (0 : Rat) < den := by exact_mod_cast hden
  unfold RoundsAt at h
  rw [twice_fraction] at h
  split at h
  · next heven =>
    rw [le_div_iff₀ hpos, div_le_iff₀ hpos] at h
    exact ⟨by exact_mod_cast h.1, by exact_mod_cast h.2, fun hodd => by omega⟩
  · rw [lt_div_iff₀ hpos, div_lt_iff₀ hpos] at h
    have hlow : (units (rank - 1) + units rank) * den < 2 * (num * unitsPerOne) := by
      exact_mod_cast h.1
    have hhigh : 2 * (num * unitsPerOne) < (units rank + units (rank + 1)) * den := by
      exact_mod_cast h.2
    exact ⟨hlow.le, hhigh.le, fun _ => ⟨hlow, hhigh⟩⟩

/-- A fraction rounds to the rank in whose interval it lies. -/
theorem nearestRank_eq (hden : 0 < den) (h : RoundsAt rank (num / den)) :
    nearestRank num den = rank := by
  obtain ⟨hlow, hhigh, hodd⟩ := h.of_fraction hden
  obtain ⟨lower, cut, hscaled, hcut, hrank⟩ := nearestRank_cut num hden
  rw [hrank]
  have hnext : units (lower + 1) * den = units lower * den + gap lower * den := by
    rw [units_succ_rank, Nat.add_mul]
  rw [Nat.add_mul, hscaled] at hlow hhigh hodd
  rw [Nat.add_mul] at hodd
  rcases Nat.lt_trichotomy rank lower with hlt | rfl | hgt
  · -- The interval ends below the cut magnitude.
    have h₁ := Nat.mul_le_mul_right den (units_le_units (Nat.le_of_lt hlt))
    have h₂ := Nat.mul_le_mul_right den (units_le_units (m := rank + 1) hlt)
    have h₃ := Nat.mul_lt_mul_of_pos_right (units_lt_units hlt) hden
    omega
  · rw [if_neg]
    intro htie
    rcases htie with htie | ⟨htie, hpar⟩
    · omega
    · have := (hodd hpar).2
      omega
  · rcases Nat.lt_or_eq_of_le (Nat.succ_le_of_lt hgt) with hgt' | rfl
    · -- The interval begins above the next magnitude.
      have h₁ := Nat.mul_le_mul_right den (units_le_units (m := lower + 1) hgt)
      have h₂ := Nat.mul_le_mul_right den
        (units_le_units (m := lower + 1) (Nat.le_sub_one_of_lt hgt'))
      have h₃ := Nat.mul_lt_mul_of_pos_right (units_lt_units hgt') hden
      rw [Nat.succ_eq_add_one] at h₃
      omega
    · rw [Nat.succ_eq_add_one, Nat.add_sub_cancel] at hlow hodd
      rw [Nat.succ_eq_add_one, if_pos]
      by_cases htie : 2 * cut = gap lower * den
      · refine .inr ⟨htie, ?_⟩
        by_contra hpar
        have := (hodd (by omega)).1
        omega
      · exact .inl (by omega)

end Binary64

end Discharge
