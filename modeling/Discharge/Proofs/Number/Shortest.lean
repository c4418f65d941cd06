import Discharge.Number.Decimal
import Discharge.Proofs.Number.Rounding
import Mathlib.Algebra.Order.Field.Power
import Mathlib.Tactic.NormNum
import Mathlib.Tactic.Positivity

/-!
# The shortest decimal rounds back

`shortest_rounds`: the decimal that `shortest` finds lies in the interval of its double. In
particular the search always succeeds, since a grid of seventeen digits is finer than the distance
between neighbouring doubles.

`le_shortest_iff` compares the decimal with a bound through the double: both lie on the same side of
any bound that is itself the shortest decimal of some double.
-/

namespace Discharge

namespace Decimal

/-- The value of a numeral as a product with a power of ten. -/
theorem toRat_eq (d : Decimal) : d.toRat = d.digits * (10 : Rat) ^ d.exponent := by
  unfold toRat
  split
  · next h =>
    obtain ⟨n, hn⟩ := Int.eq_ofNat_of_zero_le h
    rw [hn, Int.toNat_natCast, zpow_natCast]
    exact (Nat.cast_mul _ _).trans (by rw [Nat.pow_eq, Nat.cast_pow]; rfl)
  · next h =>
    obtain ⟨n, hn⟩ := Int.eq_ofNat_of_zero_le (show 0 ≤ -d.exponent by omega)
    have he : d.exponent = -(n : Int) := by omega
    rw [hn, Int.toNat_natCast, he, zpow_neg, zpow_natCast, Rat.mkRat_eq_div, Nat.pow_eq]
    push_cast
    rw [div_eq_mul_inv]

/-- Dropping trailing zeros does not change the value. -/
theorem toRat_strip (n : Nat) (d : Decimal) : (trimmed.strip n d).toRat = d.toRat := by
  induction n generalizing d with
  | zero => rfl
  | succ n ih =>
    rw [trimmed.strip]
    split
    · next h =>
      have hd : d.digits = 10 * (d.digits / 10) := by omega
      rw [ih, toRat_eq, toRat_eq, zpow_add₀ (by norm_num), zpow_one]
      conv_rhs => rw [hd]
      push_cast
      ring
    · rfl

/-- Dropping trailing zeros keeps the value. -/
theorem toRat_trimmed (d : Decimal) : d.trimmed.toRat = d.toRat := by
  unfold trimmed
  split
  · next h => rw [toRat_eq, toRat_eq, h]; simp
  · exact toRat_strip _ d

/-- A numeral is positive if its digits are. -/
theorem toRat_pos_iff (d : Decimal) : 0 < d.toRat ↔ 0 < d.digits := by
  have hpow : (0 : Rat) < (10 : Rat) ^ d.exponent := by positivity
  rw [toRat_eq, mul_pos_iff_of_pos_right hpow]
  exact Nat.cast_pos

/-- The exponent of the first digit. -/
def place (d : Decimal) : Int := d.exponent + (Nat.toDigits 10 d.digits).length - 1

/-- A positive number lies between the powers of ten that its count of digits gives. -/
theorem length_toDigits_le {n : Nat} (h : 0 < n) :
    10 ^ ((Nat.toDigits 10 n).length - 1) ≤ n ∧ n < 10 ^ (Nat.toDigits 10 n).length := by
  have hpos : 0 < (Nat.toDigits 10 n).length := Nat.length_toDigits_pos
  refine ⟨?_, (Nat.length_toDigits_le_iff (by decide) hpos).1 le_rfl⟩
  by_cases hone : (Nat.toDigits 10 n).length - 1 = 0
  · rw [hone]; exact h
  · by_contra hlt
    have := (Nat.length_toDigits_le_iff (by decide) (Nat.pos_of_ne_zero hone)).2 (not_le.1 hlt)
    omega

/-- A numeral is at least the power of ten of its first digit. -/
theorem pow_place_le {d : Decimal} (h : 0 < d.digits) : (10 : Rat) ^ d.place ≤ d.toRat := by
  have hpos : 0 < (Nat.toDigits 10 d.digits).length := Nat.length_toDigits_pos
  have hle := (length_toDigits_le h).1
  have hplace : d.place = ((Nat.toDigits 10 d.digits).length - 1 : Nat) + d.exponent := by
    unfold place; omega
  rw [toRat_eq, hplace, zpow_add₀ (by norm_num), zpow_natCast]
  have hcast : (10 : Rat) ^ ((Nat.toDigits 10 d.digits).length - 1) ≤ d.digits := by
    exact_mod_cast hle
  exact mul_le_mul_of_nonneg_right hcast (by positivity)

/-- A numeral is less than the next power of ten after its first digit. -/
theorem lt_pow_place {d : Decimal} (h : 0 < d.digits) : d.toRat < (10 : Rat) ^ (d.place + 1) := by
  have hlt := (length_toDigits_le h).2
  have hplace : d.place + 1 = ((Nat.toDigits 10 d.digits).length : Nat) + d.exponent := by
    unfold place; omega
  rw [toRat_eq, hplace, zpow_add₀ (by norm_num), zpow_natCast]
  have hcast : (d.digits : Rat) < (10 : Rat) ^ (Nat.toDigits 10 d.digits).length := by
    exact_mod_cast hlt
  exact mul_lt_mul_of_pos_right hcast (by positivity)

/-- The exponent of the first digit says where the value stands among the powers of ten. -/
theorem le_place_iff {d : Decimal} (h : 0 < d.digits) (n : Int) :
    n ≤ d.place ↔ (10 : Rat) ^ n ≤ d.toRat := by
  constructor
  · intro hn
    exact (zpow_le_zpow_right₀ (by norm_num) hn).trans (pow_place_le h)
  · intro hn
    by_contra hlt
    have hle : (10 : Rat) ^ (d.place + 1) ≤ 10 ^ n := zpow_le_zpow_right₀ (by norm_num) (by omega)
    exact absurd (hn.trans_lt (lt_pow_place h)) (not_lt.2 hle)

end Decimal

namespace Binary64

variable {r point : Nat} {e : Int}

/-- One step of a grid, in units. -/
def step (e : Int) : Rat := (10 : Rat) ^ e * unitsPerOne

/-- A step of a grid is positive. -/
theorem step_pos (e : Int) : 0 < step e := by
  have hunits : (0 : Rat) < unitsPerOne := by exact_mod_cast unitsPerOne_pos
  unfold step
  positivity

/-- The denominator of a grid does not depend on the magnitude. -/
theorem onGrid_snd (m n : Nat) (e : Int) : (onGrid m e).2 = (onGrid n e).2 := by
  unfold onGrid
  generalize unitsPerOne = u
  split <;> rfl

/-- The denominator of a place on a grid is positive. -/
theorem onGrid_snd_pos (m : Nat) (e : Int) : 0 < (onGrid m e).2 := by
  have hunits := unitsPerOne_pos
  unfold onGrid
  generalize unitsPerOne = u at *
  split
  · exact Nat.mul_pos hunits (Nat.pow_pos (by decide))
  · exact hunits

/-- A magnitude in units is its place on a grid times the step. -/
theorem onGrid_eq (m : Nat) (e : Int) :
    ((onGrid m e).1 : Rat) * step e = m * (onGrid m e).2 := by
  unfold onGrid step
  generalize unitsPerOne = u
  split
  · next h =>
    obtain ⟨n, rfl⟩ := Int.eq_ofNat_of_zero_le h
    rw [Int.toNat_natCast, zpow_natCast, Nat.pow_eq]
    push_cast
    ring
  · next h =>
    obtain ⟨n, hn⟩ := Int.eq_ofNat_of_zero_le (show 0 ≤ -e by omega)
    obtain rfl : e = -(n : Int) := by omega
    rw [Int.neg_neg, Int.toNat_natCast, zpow_neg, zpow_natCast, Nat.pow_eq]
    push_cast
    field_simp

/-- A place on a grid is at most `p` if the magnitude is at most `p` steps. -/
theorem onGrid_le_iff (m p : Nat) (e : Int) :
    (onGrid m e).1 ≤ p * (onGrid m e).2 ↔ (m : Rat) ≤ p * step e := by
  have hden : (0 : Rat) < (onGrid m e).2 := by exact_mod_cast onGrid_snd_pos m e
  have heq := onGrid_eq m e
  rw [← Nat.cast_le (α := Rat), ← mul_le_mul_iff_left₀ (step_pos e), heq, Nat.cast_mul,
    mul_right_comm, mul_le_mul_iff_left₀ hden]

/-- A place on a grid is at least `p` if the magnitude is at least `p` steps. -/
theorem le_onGrid_iff (m p : Nat) (e : Int) :
    p * (onGrid m e).2 ≤ (onGrid m e).1 ↔ (p * step e : Rat) ≤ m := by
  have hden : (0 : Rat) < (onGrid m e).2 := by exact_mod_cast onGrid_snd_pos m e
  have heq := onGrid_eq m e
  rw [← Nat.cast_le (α := Rat), ← mul_le_mul_iff_left₀ (step_pos e), heq, Nat.cast_mul,
    mul_right_comm, mul_le_mul_iff_left₀ hden]

/-- The test of a grid point is the interval of the double. -/
theorem roundsTo_iff : roundsTo r point e = true ↔ RoundsAt r (point * (10 : Rat) ^ e) := by
  have hmid : (2 * (point * (10 : Rat) ^ e) * unitsPerOne : Rat) = (2 * point : Nat) * step e := by
    unfold step
    push_cast
    ring
  have hden := onGrid_snd (units r + units (r + 1)) (units (r - 1) + units r) e
  have hlow := onGrid_le_iff (units (r - 1) + units r) (2 * point) e
  have hhigh := le_onGrid_iff (units r + units (r + 1)) (2 * point) e
  have hlow' := le_onGrid_iff (units (r - 1) + units r) (2 * point) e
  have hhigh' := onGrid_le_iff (units r + units (r + 1)) (2 * point) e
  rw [hden] at hhigh hhigh'
  push_cast at hlow hhigh hlow' hhigh'
  unfold roundsTo RoundsAt
  rw [hmid]
  push_cast
  split
  · rw [Bool.and_eq_true, decide_eq_true_eq, decide_eq_true_eq, hlow, hhigh]
  · rw [Bool.and_eq_true, decide_eq_true_eq, decide_eq_true_eq, ← not_le, ← not_le, hlow', hhigh',
      not_le, not_le]

/-- What lies strictly between the midpoints rounds to the double. -/
theorem RoundsAt.of_lt {q : Rat} (hlow : (units (r - 1) + units r : Rat) < 2 * q * unitsPerOne)
    (hhigh : 2 * q * unitsPerOne < (units r + units (r + 1) : Rat)) : RoundsAt r q := by
  unfold RoundsAt
  split
  · exact ⟨hlow.le, hhigh.le⟩
  · exact ⟨hlow, hhigh⟩

/-- A decimal that is found on a grid rounds to the number. -/
theorem onGrid?_sound {d : Decimal} (h : onGrid? r e = some d) : RoundsAt r d.toRat := by
  have hpoint (p : Nat) (hp : roundsTo r p e = true) : RoundsAt r (⟨p, e⟩ : Decimal).toRat := by
    rw [Decimal.toRat_eq]
    exact roundsTo_iff.1 hp
  unfold onGrid? at h
  simp only at h
  split at h
  · cases h
  · next hb _ => cases h; exact hpoint _ hb
  · next _ ha => cases h; exact hpoint _ ha
  · next hb ha =>
    split at h
    · cases h; exact hpoint _ hb
    · cases h; exact hpoint _ ha

/-- The two points of a grid that are next to a double. -/
theorem onGrid_neighbours (r : Nat) (e : Int) :
    ((onGrid (units r) e).1 / (onGrid (units r) e).2 : Nat) * step e ≤ units r ∧
      units r < ((onGrid (units r) e).1 / (onGrid (units r) e).2 + 1 : Nat) * step e := by
  have hden := onGrid_snd_pos (units r) e
  constructor
  · exact (le_onGrid_iff _ _ _).1 (Nat.div_mul_le_self _ _)
  · rw [← not_le, ← le_onGrid_iff, not_le, Nat.add_mul, one_mul, Nat.mul_comm]
    exact Nat.lt_mul_div_succ _ hden

/-- The search on a grid finds a point if one of these two rounds to the double. -/
theorem onGrid?_isSome_of_neighbour
    (h : roundsTo r ((onGrid (units r) e).1 / (onGrid (units r) e).2) e = true ∨
      roundsTo r ((onGrid (units r) e).1 / (onGrid (units r) e).2 + 1) e = true) :
    (onGrid? r e).isSome := by
  unfold onGrid?
  simp only
  generalize (onGrid (units r) e).1 / (onGrid (units r) e).2 = below at *
  split
  · next hb ha =>
    rw [hb, ha] at h
    exact absurd h (by decide)
  · rfl
  · rfl
  · split <;> rfl

/-- A grid that is finer than the distance between neighbours has a point that rounds to the
double. -/
theorem onGrid?_isSome (hr : 0 < r) (hstep : step e < gap (r - 1)) : (onGrid? r e).isSome := by
  obtain ⟨hlow, hhigh⟩ := onGrid_neighbours r e
  have hpred : (units r : Rat) = units (r - 1) + gap (r - 1) := by
    have := units_succ_rank (r - 1)
    rw [Nat.sub_add_cancel hr] at this
    exact_mod_cast this
  have hsucc : (units (r + 1) : Rat) = units r + gap r := by exact_mod_cast units_succ_rank r
  have hgap : (gap (r - 1) : Rat) ≤ gap r := by exact_mod_cast gap_le_gap (Nat.sub_le r 1)
  have hgpos : (0 : Rat) < gap r := by exact_mod_cast gap_pos r
  have hmid (p : Nat) : (2 * (p * (10 : Rat) ^ e) * unitsPerOne : Rat) = 2 * (p * step e) := by
    unfold step
    ring
  -- One of the two neighbours on the grid is nearer than half the distance.
  refine onGrid?_isSome_of_neighbour ?_
  generalize (onGrid (units r) e).1 / (onGrid (units r) e).2 = below at *
  by_cases hb : (units (r - 1) + units r : Rat) < 2 * (below * step e)
  · refine .inl (roundsTo_iff.2 (.of_lt ?_ ?_)) <;> rw [hmid]
    · exact hb
    · linarith
  · push_cast at hhigh
    refine .inr (roundsTo_iff.2 (.of_lt ?_ ?_)) <;> rw [hmid] <;> push_cast <;> linarith

/-- The step by which the grids begin is no longer than the magnitude, if some power of ten times
the magnitude has a whole part. -/
theorem step_of_whole {m n : Nat} (h : 0 < m * Nat.pow 10 n / unitsPerOne) :
    step ((Nat.toDigits 10 (m * Nat.pow 10 n / unitsPerOne)).length - n - 1) ≤ m := by
  have hdigits := (Decimal.length_toDigits_le h).1
  have hnat := (Nat.mul_le_mul_right unitsPerOne hdigits).trans (Nat.div_mul_le_self _ _)
  have hpos : 0 < (Nat.toDigits 10 (m * Nat.pow 10 n / unitsPerOne)).length :=
    Nat.length_toDigits_pos
  have hexp : ((Nat.toDigits 10 (m * Nat.pow 10 n / unitsPerOne)).length - n - 1 : Int) =
      ((Nat.toDigits 10 (m * Nat.pow 10 n / unitsPerOne)).length - 1 : Nat) + -(n : Int) := by
    omega
  rw [step, hexp, zpow_add₀ (by norm_num), zpow_natCast, zpow_neg, zpow_natCast, mul_right_comm,
    ← div_eq_mul_inv, div_le_iff₀ (by positivity)]
  rw [Nat.pow_eq] at hnat
  exact_mod_cast hnat

/-- The position of a magnitude is not too large. -/
theorem step_decimalPosition_le {m : Nat} (hm : 0 < m) : step (decimalPosition m - 1) ≤ m := by
  have hunits : unitsPerOne ≤ Nat.pow 10 400 := by decide +kernel
  have hwhole : 0 < m * Nat.pow 10 400 / unitsPerOne :=
    Nat.div_pos (hunits.trans (Nat.le_mul_of_pos_left _ hm)) unitsPerOne_pos
  have hstep := step_of_whole hwhole
  rwa [Nat.cast_ofNat] at hstep

/-- Seventeen digits are enough for every double. -/
theorem onGrid?_seventeen (hr : 0 < r) :
    (onGrid? r (decimalPosition (units r) - (16 + 1 : Nat))).isSome := by
  refine onGrid?_isSome hr ?_
  have hle := step_decimalPosition_le (units_pos hr)
  have hunits : (units r : Rat) ≤ 9007199254740992 * gap (r - 1) := by
    have := units_succ_le (r - 1)
    rw [Nat.sub_add_cancel hr, pow52] at this
    exact_mod_cast this
  have hgap : (0 : Rat) < gap (r - 1) := by exact_mod_cast gap_pos (r - 1)
  have hsplit : decimalPosition (units r) - (16 + 1 : Nat) =
      (decimalPosition (units r) - 1) + -(16 : Nat) := by omega
  have hstep : step (decimalPosition (units r) - (16 + 1 : Nat)) =
      step (decimalPosition (units r) - 1) / 10 ^ 16 := by
    rw [step, hsplit, zpow_add₀ (by norm_num), zpow_neg, zpow_natCast, step]
    ring
  rw [hstep, div_lt_iff₀ (by positivity)]
  linarith

/-- The shortest decimal of a double rounds to it. -/
theorem shortest_rounds (hr : 0 < r) : RoundsAt r (shortest r).toRat := by
  set hits := (List.range 17).findSome? fun n =>
    onGrid? r (decimalPosition (units r) - (n + 1 : Nat)) with hhits
  have hshort : shortest r = (hits.getD ⟨0, 0⟩).trimmed := by
    rw [shortest, if_neg (by omega)]
  have hsome : hits.isSome := by
    rw [hhits, List.findSome?_isSome_iff]
    exact ⟨16, by simp, onGrid?_seventeen hr⟩
  obtain ⟨d, hd⟩ := Option.isSome_iff_exists.1 hsome
  rw [hshort, hd, Option.getD_some, Decimal.toRat_trimmed]
  obtain ⟨n, -, hn⟩ := List.exists_of_findSome?_eq_some hd
  exact onGrid?_sound hn

/-- The shortest decimal of a positive double has positive digits. -/
theorem shortest_digits_pos (hr : 0 < r) : 0 < (shortest r).digits := by
  rw [← Decimal.toRat_pos_iff]
  have hlow := (shortest_rounds hr).low
  have hunits : (0 : Rat) < unitsPerOne := by exact_mod_cast unitsPerOne_pos
  have hr' : (0 : Rat) < units r := by exact_mod_cast units_pos hr
  have hpred : (0 : Rat) ≤ units (r - 1) := Nat.cast_nonneg _
  by_contra hq
  have := mul_nonneg (neg_nonneg.2 (not_lt.1 hq)) hunits.le
  linarith

/-! ## Bounds on the shortest decimal -/

/-- A bound that is the shortest decimal of a double, or less than it, has the double and its
shortest decimal on one side. -/
theorem le_shortest_iff {b : Rat} {n : Nat} (hr : 0 < r)
    (hlow : (units (n - 1) + units n : Rat) < 2 * (b * unitsPerOne))
    (hunits : b * unitsPerOne ≤ units n) (hshort : b ≤ (shortest n).toRat) :
    b ≤ (shortest r).toRat ↔ b * unitsPerOne ≤ units r := by
  have hpos : (0 : Rat) < unitsPerOne := by exact_mod_cast unitsPerOne_pos
  have hround := shortest_rounds hr
  have mono {i j : Nat} (h : i ≤ j) : (units i : Rat) ≤ units j := by
    exact_mod_cast units_le_units h
  rcases Nat.lt_trichotomy r n with hlt | rfl | hgt
  · have h₁ := mono (Nat.le_sub_one_of_lt hlt)
    have h₂ := mono (Nat.succ_le_of_lt hlt)
    have h₃ := mono (Nat.sub_le n 1)
    have hhigh := hround.high
    rw [Nat.succ_eq_add_one] at h₂
    refine iff_of_false (fun hb => ?_) (fun hb => by linarith)
    have := mul_le_mul_of_nonneg_right hb hpos.le
    linarith
  · exact iff_of_true hshort hunits
  · have h₁ := mono (Nat.le_sub_one_of_lt hgt)
    have h₂ := mono hgt.le
    have hlow' := hround.low
    refine iff_of_true ?_ (by linarith)
    rw [← mul_le_mul_iff_left₀ hpos]
    linarith

/-- The rank of the double nearest to `10 ^ (-4)`, which is a little larger. -/
def rankOfLowest : Nat := 4547007122018943789

/-- The rank of `10 ^ 16`, which is a double. -/
def rankOfLimit : Nat := 4846369599423283200

/-- The least double from `10 ^ (-4)` on: the midpoint below it is less than `10 ^ (-4)`, and it is
not. -/
theorem units_rankOfLowest :
    10000 * (units (rankOfLowest - 1) + units rankOfLowest) < 2 * unitsPerOne ∧
      unitsPerOne ≤ 10000 * units rankOfLowest := by decide +kernel

/-- The least double from `10 ^ 16` on: the midpoint below it is less than `10 ^ 16`, and it is not.
-/
theorem units_rankOfLimit :
    units (rankOfLimit - 1) + units rankOfLimit < 2 * (10 ^ 16 * unitsPerOne) ∧
      10 ^ 16 * unitsPerOne ≤ units rankOfLimit := by decide +kernel

/-- The least double from `10 ^ (-4)` on is written as that power of ten. -/
theorem shortest_rankOfLowest : shortest rankOfLowest = ⟨1, -4⟩ := by decide +kernel

/-- The least double from `10 ^ 16` on is written as that power of ten. -/
theorem shortest_rankOfLimit : shortest rankOfLimit = ⟨1, 16⟩ := by decide +kernel

/-- The shortest decimal is at least `10 ^ (-4)` if the double is. -/
theorem lowest_le_shortest_iff (hr : 0 < r) :
    (1 / 10000 : Rat) ≤ (shortest r).toRat ↔ (1 / 10000 * unitsPerOne : Rat) ≤ units r := by
  have hnum := units_rankOfLowest
  refine le_shortest_iff (n := rankOfLowest) hr ?_ ?_ ?_
  · have hcast : (10000 * (units (rankOfLowest - 1) + units rankOfLowest) : Rat) <
        2 * unitsPerOne := by exact_mod_cast hnum.1
    linarith
  · have hcast : (unitsPerOne : Rat) ≤ 10000 * units rankOfLowest := by exact_mod_cast hnum.2
    linarith
  · rw [shortest_rankOfLowest, Decimal.toRat_eq]
    norm_num

/-- The shortest decimal is at least `10 ^ 16` if the double is. -/
theorem limit_le_shortest_iff (hr : 0 < r) :
    (10 ^ 16 : Rat) ≤ (shortest r).toRat ↔ (10 ^ 16 * unitsPerOne : Rat) ≤ units r := by
  have hnum := units_rankOfLimit
  refine le_shortest_iff (n := rankOfLimit) hr ?_ ?_ ?_
  · exact_mod_cast hnum.1
  · exact_mod_cast hnum.2
  · rw [shortest_rankOfLimit, Decimal.toRat_eq]
    norm_num

/-- Whether a number is zero or lies where numbers are written without a power of ten. -/
def Positional (x : Binary64) : Prop :=
  ∃ q, x.toRat? = some q ∧ (q = 0 ∨ 1 / 10000 ≤ q ∧ q < 10 ^ 16)

/-- The value of a finite double that is not negative, from its units. -/
theorem toRat?_finite (r : Fin finiteRanks) :
    (finite false r).toRat? = some ((units r : Rat) / unitsPerOne) := by
  rw [toRat?, Rat.mkRat_eq_div]
  rfl

/-- A number is positional exactly if its shortest decimal is written so. -/
theorem positional_finite_iff (r : Fin finiteRanks) : (finite false r).Positional ↔
    (shortest r).digits = 0 ∨ -4 ≤ (shortest r).place ∧ (shortest r).place < 16 := by
  have hpos : (0 : Rat) < unitsPerOne := by exact_mod_cast unitsPerOne_pos
  simp only [Positional, toRat?_finite, Option.some.injEq, exists_eq_left']
  rcases Nat.eq_zero_or_pos r.val with h0 | hr
  · refine iff_of_true (.inl ?_) (.inl ?_)
    · rw [h0, units_zero, Nat.cast_zero, zero_div]
    · rw [h0]; rfl
  · have hdigits := shortest_digits_pos hr
    have hunits : (0 : Rat) < units r := by exact_mod_cast units_pos hr
    have hne : (units r : Rat) / unitsPerOne ≠ 0 := (div_pos hunits hpos).ne'
    have h₁ : -4 ≤ (shortest r).place ↔ (1 : Rat) / 10000 ≤ (units r : Rat) / unitsPerOne := by
      rw [Decimal.le_place_iff hdigits, le_div_iff₀ hpos, ← lowest_le_shortest_iff hr]
      norm_num
    have h₂ : (shortest r).place < 16 ↔ (units r : Rat) / unitsPerOne < 10 ^ 16 := by
      rw [← not_le, Decimal.le_place_iff hdigits, div_lt_iff₀ hpos, ← not_le, not_iff_not,
        ← limit_le_shortest_iff hr]
      norm_num
    rw [h₁, h₂]
    exact ⟨fun h => .inr (h.resolve_left hne), fun h => .inr (h.resolve_left hdigits.ne')⟩

end Binary64

end Discharge
