import Discharge.Proofs.Number.Notation

/-!
# The nearest double

`IsNearest x q` says that no double lies closer to the rational `q` than `x`, and that `x` is the even
one if another lies equally close. Infinity takes part in this at the place that the next number after
the largest finite one would have.

`isNearest_nearest` and `isNearest_ofDecimal` say that this is what rounding a fraction and reading a
numeral give. Of two nearest doubles of one rational both are zero or they are the same
(`IsNearest.equal`).
-/

namespace Discharge

/-- A rational with a sign. -/
def signed (negative : Bool) (q : Rat) : Rat := if negative then -q else q

@[simp] theorem signed_false (q : Rat) : signed false q = q := rfl

@[simp] theorem signed_true (q : Rat) : signed true q = -q := rfl

/-- A sign does not change the absolute value. -/
theorem abs_signed (s : Bool) (q : Rat) : |signed s q| = |q| := by
  cases s
  · rfl
  · exact abs_neg q

/-- Zero is its own negative. -/
theorem signed_zero (s : Bool) : signed s 0 = 0 := by
  cases s
  · rfl
  · exact neg_zero

/-- The difference of two rationals of one sign has that sign. -/
theorem signed_sub (s : Bool) (p q : Rat) : signed s p - signed s q = signed s (p - q) := by
  cases s
  · rfl
  · exact (neg_sub' p q).symm

/-- The other sign makes the negative. -/
theorem signed_of_ne {s t : Bool} (h : t ≠ s) (q : Rat) : signed t q = -signed s q := by
  cases s <;> cases t
  · exact absurd rfl h
  · rfl
  · exact (neg_neg q).symm
  · exact absurd rfl h

/-- A sign does not make a rational zero. -/
theorem signed_eq_zero_iff {s : Bool} {q : Rat} : signed s q = 0 ↔ q = 0 := by
  rw [← abs_eq_zero, abs_signed, abs_eq_zero]

namespace Binary64

variable {r m n num den : Nat} {q : Rat} {x y : Binary64}

/-! ## Every fraction lies in the interval of its rank -/

/-- The number of units in one is positive. -/
theorem unitsPerOne_cast_pos : (0 : Rat) < unitsPerOne := by exact_mod_cast unitsPerOne_pos

/-- A fraction lies in the interval of the rank that it is rounded to. -/
theorem RoundsAt.of_nearestRank (hden : 0 < den) (h : nearestRank num den = r) :
    RoundsAt r (num / den) := by
  have hcuts := nearestRank_cut num hden
  rw [h] at hcuts
  obtain ⟨lower, cut, hscaled, hcut, rfl⟩ := hcuts
  have hpos : (0 : Rat) < den := by exact_mod_cast hden
  have htwice : 2 * ((num : Rat) / den) * unitsPerOne = 2 * units lower + 2 * cut / den := by
    rw [twice_fraction, hscaled]
    push_cast
    field_simp
  clear hscaled h
  have hnext : (units (lower + 1) : Rat) = units lower + gap lower := by
    exact_mod_cast units_succ_rank lower
  have hcut' : (2 * cut : Rat) / den < 2 * gap lower := by
    rw [div_lt_iff₀ hpos]
    exact_mod_cast (by rw [Nat.mul_assoc]; omega : 2 * cut < 2 * gap lower * den)
  have hcut0 : (0 : Rat) ≤ 2 * cut / den := by positivity
  have hle {i j : Nat} (h : i ≤ j) : (units i : Rat) ≤ units j := by
    exact_mod_cast units_le_units h
  have hlt {i j : Nat} (h : i < j) : (units i : Rat) < units j := by
    exact_mod_cast units_lt_units h
  split
  · next hup =>
    -- The upper neighbour of the cut magnitude is nearer, or even.
    have hhalf : (gap lower : Rat) ≤ 2 * cut / den := by
      rw [le_div_iff₀ hpos]
      exact_mod_cast (by rcases hup with h | h <;> omega : gap lower * den ≤ 2 * cut)
    have hsucc := hlt (Nat.lt_add_one (lower + 1))
    unfold RoundsAt
    rw [htwice, Nat.add_sub_cancel]
    split
    · exact ⟨by linarith, by linarith⟩
    · next hodd =>
      have hstrict : (gap lower : Rat) < 2 * cut / den := by
        rw [lt_div_iff₀ hpos]
        exact_mod_cast (by omega : gap lower * den < 2 * cut)
      exact ⟨by linarith, by linarith⟩
  · next hdown =>
    have hhalf : (2 * cut : Rat) / den ≤ gap lower := by
      rw [div_le_iff₀ hpos]
      exact_mod_cast (by omega : 2 * cut ≤ gap lower * den)
    have hpred := hle (Nat.sub_le lower 1)
    unfold RoundsAt
    rw [htwice]
    split
    · exact ⟨by linarith, by linarith⟩
    · next hodd =>
      have hstrict : (2 * cut : Rat) / den < gap lower := by
        rw [div_lt_iff₀ hpos]
        exact_mod_cast (by omega : 2 * cut < gap lower * den)
      have hpred' := hlt (show lower - 1 < lower by omega)
      exact ⟨by linarith, by linarith⟩

/-- The exact value of a rank. -/
def magnitude (rank : Nat) : Rat := units rank / unitsPerOne

/-- The value of a rank in units. -/
theorem magnitude_mul (r : Nat) : magnitude r * unitsPerOne = units r :=
  div_mul_cancel₀ _ unitsPerOne_cast_pos.ne'

/-- The value of rank zero is zero. -/
theorem magnitude_zero : magnitude 0 = 0 := by
  rw [magnitude, units_zero, Nat.cast_zero, zero_div]

/-- Ranks are in the order of their values. -/
theorem magnitude_strictMono : StrictMono magnitude := fun m n h =>
  (div_lt_div_iff_of_pos_right unitsPerOne_cast_pos).2 (by exact_mod_cast units_lt_units h)

/-- The value of a rank is not negative. -/
theorem magnitude_nonneg (r : Nat) : 0 ≤ magnitude r :=
  magnitude_zero ▸ magnitude_strictMono.monotone (Nat.zero_le r)

/-- Twice a fraction of an interval lies between the sums of the rank's value and those of its
neighbours. -/
theorem RoundsAt.bounds (h : RoundsAt r q) :
    magnitude (r - 1) + magnitude r ≤ 2 * q ∧ 2 * q ≤ magnitude r + magnitude (r + 1) := by
  have hpos := unitsPerOne_cast_pos
  have hlow := h.low
  have hhigh := h.high
  rw [← magnitude_mul, ← magnitude_mul, ← add_mul, mul_le_mul_iff_left₀ hpos] at hlow hhigh
  exact ⟨hlow, hhigh⟩

/-- The bounds of an odd rank are not reached. -/
theorem RoundsAt.bounds_of_odd (h : RoundsAt r q) (hr : ¬ r % 2 = 0) :
    magnitude (r - 1) + magnitude r < 2 * q ∧ 2 * q < magnitude r + magnitude (r + 1) := by
  have hpos := unitsPerOne_cast_pos
  unfold RoundsAt at h
  rw [if_neg hr, ← magnitude_mul, ← magnitude_mul, ← magnitude_mul, ← add_mul, ← add_mul,
    mul_lt_mul_iff_left₀ hpos, mul_lt_mul_iff_left₀ hpos] at h
  exact h

/-- What lies in an interval is not negative. -/
theorem RoundsAt.nonneg (h : RoundsAt r q) : 0 ≤ q := by
  have h₁ := magnitude_nonneg (r - 1)
  have h₂ := magnitude_nonneg r
  linarith [h.bounds.1]

/-- The interval of zero holds zero, and no other interval does. -/
theorem roundsAt_zero_iff : RoundsAt r 0 ↔ r = 0 := by
  constructor
  · intro h
    by_contra hr
    have hpos := magnitude_strictMono (Nat.pos_of_ne_zero hr)
    rw [magnitude_zero] at hpos
    linarith [h.bounds.1, magnitude_nonneg (r - 1)]
  · rintro rfl
    have hone : (0 : Rat) ≤ 0 + units (0 + 1) := by positivity
    rw [RoundsAt, if_pos rfl, Nat.zero_sub, units_zero, mul_zero, zero_mul, Nat.cast_zero]
    exact ⟨(zero_add 0).le, hone⟩

/-- No rank's value is nearer to a fraction than that of the rank in whose interval the fraction lies,
and another one is equally near only if this rank is even. -/
theorem RoundsAt.abs_sub_le (h : RoundsAt r q) (n : Nat) :
    |q - magnitude r| ≤ |q - magnitude n| ∧
      (|q - magnitude r| = |q - magnitude n| → n = r ∨ r % 2 = 0) := by
  obtain ⟨hlow, hhigh⟩ := h.bounds
  rcases Nat.lt_trichotomy n r with hlt | rfl | hgt
  · have hn := magnitude_strictMono.monotone (Nat.le_sub_one_of_lt hlt)
    have hr := magnitude_strictMono hlt
    rw [abs_of_nonneg (show 0 ≤ q - magnitude n by linarith)]
    refine ⟨abs_le.2 ⟨by linarith, by linarith⟩, fun heq => .inr ?_⟩
    by_contra hodd
    have hstrict := (h.bounds_of_odd hodd).1
    rcases abs_cases (q - magnitude r) with ⟨he, -⟩ | ⟨he, -⟩ <;> linarith
  · exact ⟨le_rfl, fun _ => .inl rfl⟩
  · have hn := magnitude_strictMono.monotone (Nat.succ_le_of_lt hgt)
    have hr := magnitude_strictMono hgt
    rw [Nat.succ_eq_add_one] at hn
    rw [abs_of_nonpos (show q - magnitude n ≤ 0 by linarith)]
    refine ⟨abs_le.2 ⟨by linarith, by linarith⟩, fun heq => .inr ?_⟩
    by_contra hodd
    have hstrict := (h.bounds_of_odd hodd).2
    rcases abs_cases (q - magnitude r) with ⟨he, -⟩ | ⟨he, -⟩ <;> linarith

/-- The intervals are in the order of the ranks and have no number in common. -/
theorem RoundsAt.lt {p : Rat} (hm : RoundsAt m p) (hn : RoundsAt n q) (hmn : m < n) : p < q := by
  have h₁ := magnitude_strictMono.monotone (Nat.le_sub_one_of_lt hmn)
  have h₂ := magnitude_strictMono.monotone (Nat.succ_le_of_lt hmn)
  have hhigh := hm.bounds.2
  have hlow := hn.bounds.1
  rw [Nat.succ_eq_add_one] at h₂
  rcases Nat.lt_or_eq_of_le (Nat.succ_le_of_lt hmn) with hgap | rfl
  · linarith [magnitude_strictMono hgap]
  · -- Of neighbouring ranks one is odd, and its interval is open.
    by_cases hodd : m % 2 = 0
    · linarith [(hn.bounds_of_odd (by omega)).1]
    · linarith [(hm.bounds_of_odd hodd).2]

/-! ## Nearest doubles -/

/-- The value of a double as a target of rounding. Infinity is where the first power of two beyond the
finite numbers is. -/
def target? : Binary64 → Option Rat
  | .nan => none
  | .infinity negative => some (signed negative (2 ^ 1024))
  | .finite negative rank => (finite negative rank).toRat?

/-- Whether the last binary digit of a double is zero. -/
def IsEven : Binary64 → Prop
  | .nan => False
  | .infinity _ => True
  | .finite _ rank => rank.val % 2 = 0

/-- No double lies closer to the rational, and the double is even if one that differs from it lies
equally close. -/
def IsNearest (x : Binary64) (q : Rat) : Prop :=
  ∃ v, x.target? = some v ∧ ∀ (y : Binary64) (w : Rat), y.target? = some w →
    |q - v| ≤ |q - w| ∧ (|q - v| = |q - w| → w = v ∨ x.IsEven)

/-- The first rank beyond the finite numbers would stand for `2 ^ 1024`. -/
theorem magnitude_finiteRanks : magnitude finiteRanks = 2 ^ 1024 := by
  have hunits : units finiteRanks = 2 ^ 1024 * unitsPerOne := by decide +kernel
  rw [magnitude, hunits, Nat.cast_mul, Nat.cast_pow, Nat.cast_ofNat,
    mul_div_cancel_right₀ _ unitsPerOne_cast_pos.ne']

/-- The value of a finite double is that of its rank, with its sign. -/
theorem toRat?_signed (s : Bool) (r : Fin finiteRanks) :
    (finite s r).toRat? = some (signed s (magnitude r)) := by
  rw [toRat?, Rat.mkRat_eq_div]
  rfl

/-- The double of a rank is a target at the value of the rank, infinity too. -/
theorem target?_ofRank (s : Bool) (hn : n ≤ finiteRanks) :
    (ofRank s n).target? = some (signed s (magnitude n)) := by
  rcases Nat.lt_or_eq_of_le hn with hlt | rfl
  · rw [ofRank, dif_pos hlt, target?, toRat?_signed]
  · rw [ofRank, dif_neg (Nat.lt_irrefl _), target?, magnitude_finiteRanks]

/-- The doubles that have a value are those of the ranks up to that of infinity. -/
theorem exists_rank {v : Rat} (h : x.target? = some v) :
    ∃ s n, n ≤ finiteRanks ∧ x = ofRank s n ∧ v = signed s (magnitude n) := by
  have hrank : ∃ s n, n ≤ finiteRanks ∧ x = ofRank s n := by
    cases x with
    | nan => cases h
    | infinity s =>
      refine ⟨s, finiteRanks, le_rfl, ?_⟩
      rw [ofRank, dif_neg (Nat.lt_irrefl _)]
    | finite s r =>
      refine ⟨s, r, r.isLt.le, ?_⟩
      rw [ofRank, dif_pos r.isLt]
  obtain ⟨s, n, hn, rfl⟩ := hrank
  rw [target?_ofRank s hn] at h
  exact ⟨s, n, hn, rfl, (Option.some.inj h).symm⟩

/-- The double of a rank is even if the rank is. -/
theorem isEven_ofRank (s : Bool) (hn : n ≤ finiteRanks) : (ofRank s n).IsEven ↔ n % 2 = 0 := by
  rcases Nat.lt_or_eq_of_le hn with hlt | rfl
  · rw [ofRank, dif_pos hlt]
    rfl
  · rw [ofRank, dif_neg (Nat.lt_irrefl _)]
    exact iff_of_true trivial (by decide)

/-! ## Rounding gives the nearest double -/

/-- Ranks beyond that of infinity give infinity too. -/
theorem ofRank_min (s : Bool) (r : Nat) : ofRank s (min r finiteRanks) = ofRank s r := by
  rcases Nat.lt_or_ge r finiteRanks with hlt | hge
  · rw [Nat.min_eq_left hlt.le]
  · rw [Nat.min_eq_right hge, ofRank, ofRank, dif_neg (Nat.lt_irrefl _), dif_neg (Nat.not_lt.2 hge)]

/-- `RoundsAt.abs_sub_le` for a rank that may lie beyond infinity's. -/
theorem RoundsAt.abs_sub_min_le (h : RoundsAt r q) (hn : n ≤ finiteRanks) :
    |q - magnitude (min r finiteRanks)| ≤ |q - magnitude n| ∧
      (|q - magnitude (min r finiteRanks)| = |q - magnitude n| →
        n = min r finiteRanks ∨ min r finiteRanks % 2 = 0) := by
  rcases Nat.lt_or_ge finiteRanks r with hgt | hle
  · rw [Nat.min_eq_right hgt.le]
    refine ⟨?_, fun _ => .inr (by decide)⟩
    have h₁ := magnitude_strictMono.monotone (Nat.le_sub_one_of_lt hgt)
    have h₂ := magnitude_strictMono hgt
    have h₃ := magnitude_strictMono.monotone hn
    have hlow := h.bounds.1
    rw [abs_of_nonneg (by linarith), abs_of_nonneg (by linarith)]
    linarith
  · rw [Nat.min_eq_left hle]
    exact h.abs_sub_le n

/-- A fraction is nearest to the double of the rank in whose interval it lies. -/
theorem RoundsAt.isNearest (h : RoundsAt r q) (s : Bool) :
    (ofRank s r).IsNearest (signed s q) := by
  rw [← ofRank_min]
  have hmin (n : Nat) := h.abs_sub_min_le (n := n)
  have hk0 : q = 0 → min r finiteRanks = 0 := fun hq => by
    rw [hq, roundsAt_zero_iff] at h
    rw [h, Nat.zero_min]
  have hkF : min r finiteRanks ≤ finiteRanks := Nat.min_le_right _ _
  generalize min r finiteRanks = k at *
  refine ⟨_, target?_ofRank s hkF, fun y w hw => ?_⟩
  obtain ⟨t, n, hn, rfl, rfl⟩ := exists_rank hw
  obtain ⟨hle, htie⟩ := hmin n hn
  have hnear : |signed s q - signed s (magnitude k)| = |q - magnitude k| := by
    rw [signed_sub, abs_signed]
  -- With the sign of the fraction the other double would be no farther away.
  have hfar : |q - magnitude n| ≤ |signed s q - signed t (magnitude n)| := by
    have habs := abs_abs_sub_abs_le (signed s q) (signed t (magnitude n))
    rwa [abs_signed, abs_signed, abs_of_nonneg h.nonneg, abs_of_nonneg (magnitude_nonneg n)] at habs
  rw [hnear]
  refine ⟨hle.trans hfar, fun heq => ?_⟩
  rw [isEven_ofRank s hkF]
  rcases htie (le_antisymm hle (heq ▸ hfar)) with rfl | heven
  · by_cases hst : t = s
    · exact .inl (by rw [hst])
    · -- Opposite doubles are equally near to zero alone.
      rw [← hnear, signed_of_ne hst, sub_neg_eq_add, ← sq_eq_sq_iff_abs_eq_abs] at heq
      have hprod : signed s q * signed s (magnitude n) = 0 := by linarith
      rcases mul_eq_zero.1 hprod with hq | hv
      · exact .inr (by rw [hk0 (signed_eq_zero_iff.1 hq)])
      · exact .inl (by rw [signed_of_ne hst, hv, neg_zero])
  · exact .inr heven

/-- Rounding a fraction gives the nearest double. -/
theorem isNearest_nearest (s : Bool) (num : Nat) (hden : 0 < den) :
    (nearest s num den).IsNearest (signed s (num / den)) := by
  rw [nearest]
  generalize hr : nearestRank num den = r
  exact (RoundsAt.of_nearestRank hden hr).isNearest s

/-! ## Equality of doubles -/

/-- Finite doubles compare as equal if they are the same or both are zeros. -/
theorem equal_finite_iff {s t : Bool} {m n : Fin finiteRanks} :
    (finite s m).equal (finite t n) = true ↔ m = n ∧ (s = t ∨ m.val = 0) := by
  rw [equal, Bool.and_eq_true, Bool.or_eq_true, beq_iff_eq, beq_iff_eq, beq_iff_eq]

/-- What is not a number compares as equal to nothing. -/
theorem equal_nan : nan.equal y = false := by cases y <;> rfl

/-- An infinity compares as equal to itself only. -/
theorem equal_infinity {s : Bool} : (infinity s).equal y = true ↔ infinity s = y := by
  cases y <;> simp [equal]

/-- What compares as equal to a finite double has its rank, and its sign if it is no zero. -/
theorem equal_finite {s : Bool} {m : Fin finiteRanks} :
    (finite s m).equal y = true ↔ ∃ t, finite t m = y ∧ (s = t ∨ m.val = 0) := by
  cases y with
  | finite t n =>
    rw [equal_finite_iff]
    constructor
    · rintro ⟨rfl, h⟩
      exact ⟨t, rfl, h⟩
    · rintro ⟨_, ⟨rfl⟩, h⟩
      exact ⟨rfl, h⟩
  | _ => simp [equal]

/-- Comparing doubles is symmetric. -/
theorem equal_symm (h : x.equal y = true) : y.equal x = true := by
  cases x with
  | nan => cases equal_nan.symm.trans h
  | infinity s =>
    obtain rfl := equal_infinity.1 h
    exact h
  | finite s m =>
    obtain ⟨t, rfl, hst⟩ := equal_finite.1 h
    exact equal_finite_iff.2 ⟨rfl, hst.imp_left Eq.symm⟩

/-- Comparing doubles is transitive. -/
theorem equal_trans {z : Binary64} (hxy : x.equal y = true) (hyz : y.equal z = true) :
    x.equal z = true := by
  cases x with
  | nan => cases equal_nan.symm.trans hxy
  | infinity s =>
    obtain rfl := equal_infinity.1 hxy
    exact hyz
  | finite s m =>
    obtain ⟨t, rfl, hst⟩ := equal_finite.1 hxy
    obtain ⟨u, rfl, htu⟩ := equal_finite.1 hyz
    refine equal_finite_iff.2 ⟨rfl, ?_⟩
    rcases hst with rfl | hzero
    · exact htu
    · exact .inr hzero

/-- Only what is not a number differs from itself. -/
theorem equal_self_iff : x.equal x = true ↔ x ≠ .nan := by
  cases x <;> simp [equal]

/-! ## Nearest doubles are equal -/

/-- The double of a rank compares as equal to itself. -/
theorem equal_ofRank (s : Bool) (n : Nat) : (ofRank s n).equal (ofRank s n) = true := by
  rw [equal_self_iff, ofRank]
  intro h
  split at h <;> cases h

/-- The two zeros compare as equal. -/
theorem equal_ofRank_zero (s t : Bool) : (ofRank s 0).equal (ofRank t 0) = true := by
  have hzero : 0 < finiteRanks := by decide
  rw [ofRank, ofRank, dif_pos hzero, dif_pos hzero]
  simp [equal]

/-- Doubles of one value are equal. -/
theorem equal_of_target? {v : Rat} (hx : x.target? = some v) (hy : y.target? = some v) :
    x.equal y = true := by
  obtain ⟨s, m, -, rfl, rfl⟩ := exists_rank hx
  obtain ⟨t, n, -, rfl, hv⟩ := exists_rank hy
  have habs := congrArg (|·|) hv
  simp only [abs_signed, abs_of_nonneg (magnitude_nonneg _)] at habs
  obtain rfl := magnitude_strictMono.injective habs
  by_cases hst : t = s
  · rw [hst]
    exact equal_ofRank s m
  · rw [signed_of_ne hst, eq_comm, neg_eq_self, signed_eq_zero_iff, ← magnitude_zero] at hv
    rw [magnitude_strictMono.injective hv]
    exact equal_ofRank_zero s t

/-- Between two even doubles lies an odd one, or zero. -/
theorem exists_target?_between {v w : Rat} (hx : x.target? = some v) (hy : y.target? = some w)
    (hxe : x.IsEven) (hye : y.IsEven) (hvw : v < w) :
    ∃ (z : Binary64) (u : Rat), z.target? = some u ∧ v < u ∧ u < w := by
  have hlt {i j : Nat} : magnitude i < magnitude j ↔ i < j := magnitude_strictMono.lt_iff_lt
  have hone : 0 < magnitude 1 := magnitude_zero ▸ hlt.2 Nat.zero_lt_one
  obtain ⟨s, m, hm, rfl, rfl⟩ := exists_rank hx
  obtain ⟨t, n, hn, rfl, rfl⟩ := exists_rank hy
  rw [isEven_ofRank s hm] at hxe
  rw [isEven_ofRank t hn] at hye
  cases s <;> cases t <;> simp only [signed_false, signed_true] at hvw ⊢
  · have hmn := hlt.1 hvw
    exact ⟨_, _, target?_ofRank false (n := m + 1) (by omega), hlt.2 (Nat.lt_add_one m),
      hlt.2 (by omega)⟩
  · linarith [magnitude_nonneg m, magnitude_nonneg n]
  · rcases Nat.eq_zero_or_pos n with rfl | hn0
    · have hm0 : m ≠ 0 := by
        rintro rfl
        simp [magnitude_zero] at hvw
      refine ⟨_, _, target?_ofRank true (n := 1) (by omega), ?_, ?_⟩
      · exact neg_lt_neg (hlt.2 (by omega))
      · exact (neg_neg_of_pos hone).trans_le (magnitude_nonneg 0)
    · refine ⟨_, _, target?_ofRank false (n := 1) (by omega), ?_, hlt.2 (by omega)⟩
      exact (neg_nonpos.2 (magnitude_nonneg m)).trans_lt hone
  · have hnm := hlt.1 (neg_lt_neg_iff.1 hvw)
    exact ⟨_, _, target?_ofRank true (n := n + 1) (by omega), neg_lt_neg (hlt.2 (by omega)),
      neg_lt_neg (hlt.2 (Nat.lt_add_one n))⟩

/-- What lies between two numbers is nearer to their middle. -/
theorem abs_sub_lt_of_between {u v w : Rat} (h : |q - v| = |q - w|) (hvu : v < u) (huw : u < w) :
    |q - u| < |q - v| ∧ |q - u| < |q - w| := by
  have hlt : |q - u| < |q - v| := by
    rcases abs_eq_abs.1 h with h' | h'
    · linarith
    · rw [abs_of_pos (show 0 < q - v by linarith)]
      exact abs_lt.2 ⟨by linarith, by linarith⟩
  exact ⟨hlt, h ▸ hlt⟩

/-- The nearest double is unique but for the sign of zero. -/
theorem IsNearest.equal (hx : x.IsNearest q) (hy : y.IsNearest q) : x.equal y = true := by
  obtain ⟨v, hv, hxv⟩ := hx
  obtain ⟨w, hw, hyw⟩ := hy
  have heq : |q - v| = |q - w| := le_antisymm (hxv y w hw).1 (hyw x v hv).1
  by_cases hvw : w = v
  · exact equal_of_target? hv (hvw ▸ hw)
  · exfalso
    have hxe := ((hxv y w hw).2 heq).resolve_left hvw
    have hye := ((hyw x v hv).2 heq.symm).resolve_left (Ne.symm hvw)
    rcases lt_or_gt_of_ne hvw with hlt | hlt
    · obtain ⟨z, u, hz, h₁, h₂⟩ := exists_target?_between hw hv hye hxe hlt
      exact absurd (hxv z u hz).1 (not_le.2 (abs_sub_lt_of_between heq.symm h₁ h₂).2)
    · obtain ⟨z, u, hz, h₁, h₂⟩ := exists_target?_between hv hw hxe hye hlt
      exact absurd (hxv z u hz).1 (not_le.2 (abs_sub_lt_of_between heq h₁ h₂).1)

/-- What is equal to a nearest double is one too. -/
theorem IsNearest.of_equal (hx : x.IsNearest q) (h : x.equal y = true) : y.IsNearest q := by
  have hsame : y.target? = x.target? ∧ (x.IsEven → y.IsEven) := by
    cases x with
    | nan => cases equal_nan.symm.trans h
    | infinity s =>
      obtain rfl := equal_infinity.1 h
      exact ⟨rfl, id⟩
    | finite s m =>
      obtain ⟨t, rfl, rfl | hzero⟩ := equal_finite.1 h
      · exact ⟨rfl, id⟩
      · refine ⟨?_, id⟩
        rw [target?, target?, toRat?_signed, toRat?_signed, hzero, magnitude_zero, signed_zero,
          signed_zero]
  obtain ⟨v, hv, hx⟩ := hx
  refine ⟨v, hsame.1.trans hv, fun z w hz => ⟨(hx z w hz).1, fun htie => ?_⟩⟩
  exact ((hx z w hz).2 htie).imp_right hsame.2

end Binary64

end Discharge
