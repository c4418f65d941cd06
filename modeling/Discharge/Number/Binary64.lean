/-!
# Double-precision numbers

`Binary64` holds the values of 64-bit binary floating point: the finite numbers with their sign, the
two infinities, and one value that is not a number. A finite number is a sign and a *rank*, its
place in the list of nonnegative finite numbers. `units` gives the magnitude of a rank as a natural
multiple of the smallest positive number `2 ^ (-1074)`, so a value is an exact rational and no
machine arithmetic is involved.

`nearest` rounds a nonnegative fraction to the closest number, and of two equally close ones to the
one of even rank.

Main facts: `units_lt_units` says that ranks are in the order of the magnitudes, and
`units_succ_rank` gives the distance between neighbours.
-/

namespace Discharge

/-- The number of nonnegative finite doubles: 2047 exponents with `2 ^ 52` significands each. -/
def finiteRanks : Nat := 2047 * Nat.pow 2 52

/-- A double-precision number. -/
inductive Binary64 where
  | nan
  | infinity (negative : Bool)
  | finite (negative : Bool) (rank : Fin finiteRanks)
deriving DecidableEq

namespace Binary64

/-- The magnitude of a rank, in multiples of `2 ^ (-1074)`. -/
def units (rank : Nat) : Nat :=
  if rank < Nat.pow 2 52 then rank
  else (Nat.pow 2 52 + rank % Nat.pow 2 52) * Nat.pow 2 (rank / Nat.pow 2 52 - 1)

/-- The distance from a rank's magnitude to the next larger one. -/
def gap (rank : Nat) : Nat := Nat.pow 2 (rank / Nat.pow 2 52 - 1)

/-- How many units make the number one. -/
def unitsPerOne : Nat := Nat.pow 2 1074

/-- The exact value of a finite number. -/
def toRat? : Binary64 → Option Rat
  | .nan => none
  | .infinity _ => none
  | .finite negative rank =>
    let magnitude : Rat := mkRat (units rank) unitsPerOne
    some (if negative then -magnitude else magnitude)

/-- Whether the number is finite. -/
def isFinite : Binary64 → Bool
  | .finite _ _ => true
  | _ => false

/-- Equality of values: the two zeros are equal, and `nan` differs from itself. -/
def equal : Binary64 → Binary64 → Bool
  | .infinity s, .infinity t => s == t
  | .finite s m, .finite t n => m == n && (s == t || m.val == 0)
  | _, _ => false

/-- Strict order of values; `nan` is comparable with nothing. -/
def less : Binary64 → Binary64 → Bool
  | .nan, _ => false
  | _, .nan => false
  | .infinity s, .infinity t => s && !t
  | .infinity s, .finite _ _ => s
  | .finite _ _, .infinity t => !t
  | .finite false m, .finite false n => m < n
  | .finite true m, .finite true n => n < m
  | .finite true m, .finite false n => !(m.val == 0 && n.val == 0)
  | .finite false _, .finite true _ => false

/-- The number of a sign and a rank; ranks beyond the largest finite one give infinity. -/
def ofRank (negative : Bool) (rank : Nat) : Binary64 :=
  if h : rank < finiteRanks then .finite negative ⟨rank, h⟩ else .infinity negative

/-- The rank of the number closest to `num / den`, ties going to the even rank. `den` is positive.
The magnitude in units is cut to 53 significant bits, and what was cut decides whether to go up. -/
def nearestRank (num den : Nat) : Nat :=
  let scaled := num * unitsPerOne
  let shift := (scaled / den).log2 - 52
  let step := den * Nat.pow 2 shift
  let significand := scaled / step
  let cut := scaled % step
  let lower := shift * Nat.pow 2 52 + significand
  if 2 * cut > step || (2 * cut == step && lower % 2 == 1) then lower + 1 else lower

/-- The number closest to `num / den`, or infinity if that is beyond the largest finite number. -/
def nearest (negative : Bool) (num den : Nat) : Binary64 :=
  ofRank negative (nearestRank num den)

/-- Neighbouring ranks are one `gap` apart. -/
theorem units_succ_rank (rank : Nat) : units (rank + 1) = units rank + gap rank := by
  unfold units gap
  have hpow : Nat.pow 2 52 = 4503599627370496 := by decide
  rw [hpow]
  by_cases h1 : rank + 1 < 4503599627370496
  · have h2 : rank < 4503599627370496 := by omega
    have h3 : rank / 4503599627370496 = 0 := by omega
    simp [h1, h2, h3]
  · by_cases h2 : rank < 4503599627370496
    · have h3 : rank = 4503599627370495 := by omega
      subst h3; decide
    · simp only [h1, h2, if_false]
      by_cases h3 : rank % 4503599627370496 = 4503599627370495
      · have e1 : (rank + 1) % 4503599627370496 = 0 := by omega
        have e2 : (rank + 1) / 4503599627370496 - 1 = (rank / 4503599627370496 - 1) + 1 := by omega
        have e3 (n : Nat) : Nat.pow 2 (n + 1) = Nat.pow 2 n * 2 := rfl
        rw [e1, e2, h3, e3]
        generalize Nat.pow 2 (rank / 4503599627370496 - 1) = p
        omega
      · have e1 : (rank + 1) % 4503599627370496 = rank % 4503599627370496 + 1 := by omega
        have e2 : (rank + 1) / 4503599627370496 = rank / 4503599627370496 := by omega
        rw [e1, e2, ← Nat.add_assoc, Nat.add_mul _ 1, Nat.one_mul]

/-- Larger ranks have larger magnitudes. -/
theorem units_lt_units {m n : Nat} (h : m < n) : units m < units n := by
  induction h with
  | refl => rw [units_succ_rank]; have : 0 < gap m := Nat.two_pow_pos _; omega
  | step _ ih => rw [units_succ_rank]; omega

end Binary64

end Discharge
