import Discharge.Proofs.Number.Nearest

/-!
# Numerals of fifteen digits

Reading a numeral gives the double nearest to it (`isNearest_ofDecimal`). If the numeral has at most
fifteen digits that count and its magnitude is moderate, then the shortest decimal of that double has
the numeral's value (`decimalValue?_ofDecimal`).

The reason is that the doubles lie closer together than the numerals of fifteen digits. So no two of
these round to one double, and the numeral itself is on the grid where the search for the shortest
decimal ends at the latest.
-/

namespace Discharge

/-- The value of a numeral is not negative. -/
theorem Decimal.toRat_nonneg (d : Decimal) : 0 ≤ d.toRat := by
  rw [toRat_eq]
  positivity

namespace Binary64

variable {r m n : Nat} {p q : Rat} {e : Int} {d : Decimal}

/-! ## Reading gives the nearest double -/

/-- Every rational that is not negative rounds to some rank. -/
theorem exists_roundsAt (hq : 0 ≤ q) : ∃ r, RoundsAt r q := by
  have hnum : ((q.num.toNat : Nat) : Rat) / q.den = q := by
    have hcast : ((q.num.toNat : Nat) : Rat) = (q.num : Rat) := by
      exact_mod_cast congrArg (Int.cast (R := Rat)) (Int.toNat_of_nonneg (Rat.num_nonneg.2 hq))
    rw [hcast, Rat.num_div_den]
  generalize hr : nearestRank q.num.toNat q.den = r
  exact ⟨r, hnum ▸ RoundsAt.of_nearestRank q.den_pos hr⟩

/-- Numbers of at most half the smallest positive double lie in the interval of zero. -/
theorem roundsAt_zero_of_le (hq : 0 ≤ q) (h : 2 * q * unitsPerOne ≤ 1) : RoundsAt 0 q := by
  have hone : units 1 = 1 := by decide
  rw [RoundsAt, if_pos rfl, Nat.zero_sub, Nat.zero_add, units_zero, hone, Nat.cast_zero,
    Nat.cast_one, zero_add, zero_add]
  exact ⟨mul_nonneg (mul_nonneg zero_le_two hq) unitsPerOne_cast_pos.le, h⟩

/-- What lies beyond `2 ^ 1024` rounds to no finite rank. -/
theorem RoundsAt.finiteRanks_le (h : RoundsAt r q) (hq : 2 ^ 1024 < q) : finiteRanks ≤ r := by
  by_contra hlt
  have h₁ := magnitude_strictMono.monotone (Nat.le_of_lt (Nat.not_le.1 hlt))
  have h₂ := magnitude_strictMono.monotone (Nat.succ_le_of_lt (Nat.not_le.1 hlt))
  have hhigh := h.bounds.2
  rw [magnitude_finiteRanks] at h₁ h₂
  rw [Nat.succ_eq_add_one] at h₂
  generalize (2 : Rat) ^ 1024 = b at *
  linarith

/-- What lies below half of `2 ^ 1024` rounds to a finite rank. -/
theorem RoundsAt.lt_finiteRanks (h : RoundsAt r q) (hq : 2 * q < 2 ^ 1024) : r < finiteRanks := by
  by_contra hge
  have h₁ := magnitude_strictMono.monotone (Nat.not_lt.1 hge)
  have h₂ := magnitude_nonneg (r - 1)
  have hlow := h.bounds.1
  rw [magnitude_finiteRanks] at h₁
  generalize (2 : Rat) ^ 1024 = b at *
  linarith

/-- Numerals far below the smallest positive double lie in the interval of zero. -/
theorem roundsAt_zero_of_small (h : d.digits = 0 ∨ d.exponent + d.digits.log2 + 400 < 0) :
    RoundsAt 0 d.toRat := by
  refine roundsAt_zero_of_le d.toRat_nonneg ?_
  rcases Nat.eq_zero_or_pos d.digits with hzero | hdigits
  · rw [Decimal.toRat_eq, hzero, Nat.cast_zero, zero_mul, mul_zero, zero_mul]
    exact zero_le_one
  · have hplace := Decimal.place_le_log2 hdigits
    have hlt : d.toRat < (10 : Rat) ^ (-400 : Int) := by
      rw [← not_le, ← Decimal.le_place_iff hdigits]
      omega
    have hunits : (2 * unitsPerOne : Rat) ≤ 10 ^ 400 := by
      have h : 2 * unitsPerOne ≤ 10 ^ 400 := by decide +kernel
      generalize unitsPerOne = u at h ⊢
      generalize 400 = k at h ⊢
      exact_mod_cast h
    have hbound : (10 : Rat) ^ (-400 : Int) = (10 ^ 400)⁻¹ := zpow_neg 10 (400 : Nat)
    rw [hbound] at hlt
    have hpow : (0 : Rat) < 10 ^ 400 := by positivity
    calc 2 * d.toRat * unitsPerOne = d.toRat * (2 * unitsPerOne) := by ring
      _ ≤ (10 ^ 400)⁻¹ * 10 ^ 400 :=
        mul_le_mul hlt.le hunits (mul_pos two_pos unitsPerOne_cast_pos).le (inv_pos.2 hpow).le
      _ = 1 := inv_mul_cancel₀ hpow.ne'

/-- Numerals far above the greatest finite double are nearest to infinity. -/
theorem isNearest_infinity_of_large (s : Bool) (hdigits : 0 < d.digits) (h : 400 < d.exponent) :
    (infinity s).IsNearest (signed s d.toRat) := by
  obtain ⟨r, hr⟩ := exists_roundsAt d.toRat_nonneg
  have hten : (2 : Rat) ^ 1024 < 10 ^ (400 : Int) := by
    have h : 2 ^ 1024 < 10 ^ 400 := by decide +kernel
    rw [zpow_ofNat]
    generalize 1024 = j at h ⊢
    generalize 400 = k at h ⊢
    exact_mod_cast h
  have hplace : 400 ≤ d.place := by
    have := Nat.length_toDigits_pos (b := 10) (n := d.digits)
    unfold Decimal.place
    omega
  have hrank := hr.finiteRanks_le (hten.trans_le ((Decimal.le_place_iff hdigits _).1 hplace))
  have hnear := hr.isNearest s
  rwa [ofRank, dif_neg (Nat.not_lt.2 hrank)] at hnear

/-- Reading a numeral gives the nearest double. -/
theorem isNearest_ofDecimal (s : Bool) (d : Decimal) :
    (ofDecimal s d).IsNearest (signed s d.toRat) := by
  unfold ofDecimal
  split
  · next hsmall =>
    rw [Bool.or_eq_true, decide_eq_true_eq, decide_eq_true_eq] at hsmall
    exact (roundsAt_zero_of_small hsmall).isNearest s
  · next hsmall =>
    rw [Bool.or_eq_true, not_or, decide_eq_true_eq, decide_eq_true_eq] at hsmall
    split
    · next hlarge => exact isNearest_infinity_of_large s (Nat.pos_of_ne_zero hsmall.1) hlarge
    · rw [Decimal.toRat_eq]
      split
      · next h =>
        obtain ⟨n, hn⟩ := Int.eq_ofNat_of_zero_le h
        have hnear := isNearest_nearest s (d.digits * Nat.pow 10 n) Nat.one_pos
        rw [Nat.pow_eq, Nat.cast_mul, Nat.cast_pow, Nat.cast_ofNat, Nat.cast_one, div_one] at hnear
        rwa [hn, Int.toNat_natCast, zpow_natCast]
      · next h =>
        obtain ⟨n, hn⟩ := Int.eq_ofNat_of_zero_le (show 0 ≤ -d.exponent by omega)
        obtain he : d.exponent = -(n : Int) := by omega
        have hden : 0 < Nat.pow 10 n := Nat.pow_pos (by decide)
        have hnear := isNearest_nearest s d.digits hden
        rw [Nat.pow_eq, Nat.cast_pow, Nat.cast_ofNat, div_eq_mul_inv] at hnear
        rwa [hn, Int.toNat_natCast, he, zpow_neg, zpow_natCast]

/-! ## The values that encoding gives to doubles -/

/-- The shortest decimal of a rank rounds to it. -/
theorem roundsAt_shortest (r : Nat) : RoundsAt r (shortest r).toRat := by
  rcases Nat.eq_zero_or_pos r with rfl | hr
  · rw [shortest, if_pos rfl, Decimal.toRat_eq, Nat.cast_zero, zero_mul, roundsAt_zero_iff]
  · exact shortest_rounds hr

/-- The shortest decimals are in the order of the doubles. -/
theorem shortest_strictMono : StrictMono fun r => (shortest r).toRat :=
  fun m n h => (roundsAt_shortest m).lt (roundsAt_shortest n) h

/-- The shortest decimal of zero is zero. -/
theorem toRat_shortest_zero : (shortest 0).toRat = 0 := by
  rw [shortest, if_pos rfl, Decimal.toRat_eq, Nat.cast_zero, zero_mul]

/-- The decimal value of a finite double is its shortest decimal, with its sign. -/
theorem decimalValue?_finite (s : Bool) (r : Fin finiteRanks) :
    (finite s r).decimalValue? = some (signed s (shortest r).toRat) := rfl

/-- Equal doubles have the same value. -/
theorem decimalValue?_of_equal {x y : Binary64} (h : x.equal y = true) :
    x.decimalValue? = y.decimalValue? := by
  cases x with
  | nan => cases equal_nan.symm.trans h
  | infinity s => rw [equal_infinity.1 h]
  | finite s m =>
    obtain ⟨t, rfl, rfl | hzero⟩ := equal_finite.1 h
    · rfl
    · rw [decimalValue?_finite, decimalValue?_finite, hzero, toRat_shortest_zero, signed_zero,
        signed_zero]

/-! ## The distance of doubles and of numerals -/

/-- From `2 ^ 52` on the distance to the next double is at most the `2 ^ 52`th part of a double. -/
theorem two_pow_mul_gap_le (hr : 4503599627370496 ≤ r) : 4503599627370496 * gap r ≤ units r := by
  unfold units gap
  rw [pow52, if_neg (Nat.not_lt.2 hr)]
  exact Nat.mul_le_mul_right _ (Nat.le_add_right _ _)

/-- The next rank is a gap away. -/
theorem magnitude_succ (r : Nat) : magnitude (r + 1) = magnitude r + gap r / unitsPerOne := by
  rw [magnitude, magnitude, units_succ_rank, Nat.cast_add, add_div]

/-- What rounds to a double lies within its `2 ^ 53`th part. -/
theorem RoundsAt.abs_sub_le_magnitude (h : RoundsAt r q) (hr : 4503599627370496 ≤ r) :
    9007199254740992 * |q - magnitude r| ≤ magnitude r := by
  have hpos := unitsPerOne_cast_pos
  obtain ⟨hlow, hhigh⟩ := h.bounds
  have hpred := magnitude_succ (r - 1)
  rw [Nat.sub_add_cancel (by omega)] at hpred
  rw [magnitude_succ] at hhigh
  have hgap : (gap (r - 1) : Rat) / unitsPerOne ≤ gap r / unitsPerOne :=
    div_le_div_of_nonneg_right (by exact_mod_cast gap_le_gap (Nat.sub_le r 1)) hpos.le
  have hstep : 4503599627370496 * ((gap r : Rat) / unitsPerOne) ≤ magnitude r := by
    rw [magnitude, ← mul_div_assoc]
    exact div_le_div_of_nonneg_right (by exact_mod_cast two_pow_mul_gap_le hr) hpos.le
  rcases abs_cases (q - magnitude r) with ⟨he, -⟩ | ⟨he, -⟩ <;> linarith

/-- Numbers of moderate size round to doubles of full precision. -/
theorem RoundsAt.rank_large (h : RoundsAt r q) (hq : (10 : Rat) ^ (-300 : Int) ≤ q) :
    4503599627370496 ≤ r := by
  by_contra hlt
  have hhigh := h.high
  have hmono : (units r + units (r + 1) : Rat) ≤ 9007199254740992 := by
    have hunits {i : Nat} (hi : i ≤ 4503599627370496) : units i ≤ 4503599627370496 :=
      (units_le_units hi).trans (by decide +kernel)
    have h₁ := hunits (show r ≤ 4503599627370496 by omega)
    have h₂ := hunits (show r + 1 ≤ 4503599627370496 by omega)
    exact_mod_cast Nat.add_le_add h₁ h₂
  have hbig : (9007199254740992 * 10 ^ 300 : Rat) < 2 * unitsPerOne := by
    have h : 9007199254740992 * 10 ^ 300 < 2 * unitsPerOne := by decide +kernel
    generalize unitsPerOne = u at h ⊢
    generalize 300 = k at h ⊢
    exact_mod_cast h
  have hbound : (10 : Rat) ^ (-300 : Int) = (10 ^ 300)⁻¹ := zpow_neg 10 (300 : Nat)
  have hpow : (0 : Rat) < 10 ^ 300 := by positivity
  rw [hbound, inv_le_iff_one_le_mul₀ hpow] at hq
  have hpos := unitsPerOne_cast_pos
  generalize (unitsPerOne : Rat) = u at *
  generalize (10 : Rat) ^ 300 = k at *
  have hmul : 2 * u ≤ 2 * q * u * k := by
    have := mul_le_mul_of_nonneg_left hq (mul_pos two_pos hpos).le
    linarith
  have hfin := mul_le_mul_of_nonneg_right (hhigh.trans hmono) hpow.le
  linarith

/-! ## The search for the shortest decimal -/

/-- What lies between a double and a number that rounds to it rounds to it too. -/
theorem RoundsAt.of_between (hr : 0 < r) (h : RoundsAt r q)
    (hp : q ≤ p ∧ p ≤ magnitude r ∨ magnitude r ≤ p ∧ p ≤ q) : RoundsAt r p := by
  have hpos := unitsPerOne_cast_pos
  have hpred := magnitude_strictMono (Nat.sub_lt hr Nat.one_pos)
  have hsucc := magnitude_strictMono (Nat.lt_add_one r)
  obtain ⟨hlow, hhigh⟩ := h.bounds
  unfold RoundsAt
  rw [← magnitude_mul, ← magnitude_mul, ← magnitude_mul, ← add_mul, ← add_mul,
    mul_le_mul_iff_left₀ hpos, mul_le_mul_iff_left₀ hpos, mul_lt_mul_iff_left₀ hpos,
    mul_lt_mul_iff_left₀ hpos]
  split
  · rcases hp with hp | hp <;> exact ⟨by linarith, by linarith⟩
  · next hodd =>
    obtain ⟨hlow', hhigh'⟩ := h.bounds_of_odd hodd
    rcases hp with hp | hp <;> exact ⟨by linarith, by linarith⟩

/-- If any decimal of a grid rounds to a double, then the search on the grid finds one. -/
theorem onGrid?_isSome_of_roundsAt {point : Nat} (hr : 0 < r)
    (h : RoundsAt r (point * (10 : Rat) ^ e)) : (onGrid? r e).isSome := by
  have hpow : (0 : Rat) < (10 : Rat) ^ e := by positivity
  have hpos := unitsPerOne_cast_pos
  obtain ⟨hlow, hhigh⟩ := onGrid_neighbours r e
  have hgrid (j : Nat) : (j * step e : Rat) = j * (10 : Rat) ^ e * unitsPerOne := by
    unfold step
    ring
  rw [hgrid, ← magnitude_mul, mul_le_mul_iff_left₀ hpos] at hlow
  rw [hgrid, ← magnitude_mul, mul_lt_mul_iff_left₀ hpos] at hhigh
  -- The decimal lies on one side of the double, and its neighbour on that side lies between.
  refine onGrid?_isSome_of_neighbour ?_
  generalize (onGrid (units r) e).1 / (onGrid (units r) e).2 = below at *
  rcases Nat.lt_or_ge below point with hlt | hge
  · refine .inr (roundsTo_iff.2 (h.of_between hr (.inr ⟨hhigh.le, ?_⟩)))
    exact mul_le_mul_of_nonneg_right (by exact_mod_cast hlt) hpow.le
  · refine .inl (roundsTo_iff.2 (h.of_between hr (.inl ⟨?_, hlow⟩)))
    exact mul_le_mul_of_nonneg_right (by exact_mod_cast hge) hpow.le

/-- A decimal that is found on a grid has the exponent of the grid. -/
theorem exponent_of_onGrid? (h : onGrid? r e = some d) : d.exponent = e := by
  unfold onGrid? at h
  simp only at h
  split at h
  · cases h
  · cases h; rfl
  · cases h; rfl
  · split at h <;> cases h <;> rfl

/-- A double lies between the powers of ten of its decimal position. -/
theorem magnitude_decimalPosition (hr : 0 < r) :
    (10 : Rat) ^ (decimalPosition (units r) - 1) ≤ magnitude r ∧
      magnitude r < (10 : Rat) ^ decimalPosition (units r) := by
  have hpos := unitsPerOne_cast_pos
  constructor
  · rw [← mul_le_mul_iff_left₀ hpos, magnitude_mul]
    exact step_decimalPosition_le (units_pos hr)
  · have hwhole := Nat.lt_mul_div_succ (units r * Nat.pow 10 400) unitsPerOne_pos
    have hdigits := (Nat.length_toDigits_le_iff (b := 10) (by decide) Nat.length_toDigits_pos).1
      (le_refl (Nat.toDigits 10 (units r * Nat.pow 10 400 / unitsPerOne)).length)
    unfold decimalPosition
    simp only
    generalize units r * Nat.pow 10 400 / unitsPerOne = whole at *
    have hnat : units r * Nat.pow 10 400 < unitsPerOne * 10 ^ (Nat.toDigits 10 whole).length :=
      hwhole.trans_le (Nat.mul_le_mul_left _ hdigits)
    have hplaces : (400 : Int) = (400 : Nat) := rfl
    rw [hplaces, magnitude]
    generalize unitsPerOne = u at *
    generalize 400 = k at *
    rw [Nat.pow_eq] at hnat
    rw [zpow_sub₀ (by norm_num), zpow_natCast, zpow_natCast, lt_div_iff₀ (by positivity),
      div_mul_eq_mul_div, div_lt_iff₀ hpos, mul_comm _ (u : Rat)]
    exact_mod_cast hnat

/-- The first of the grids on which a decimal is found has at most fifteen digits, if one is found with
fifteen. -/
theorem exists_onGrid?_of_fifteen (hr : 0 < r)
    (h : (onGrid? r (decimalPosition (units r) - 15)).isSome) :
    ∃ (k : Nat) (d : Decimal), RoundsAt r d.toRat ∧ (shortest r).toRat = d.toRat ∧
      d.exponent = decimalPosition (units r) - 15 + k := by
  set grid := fun n : Nat => onGrid? r (decimalPosition (units r) - (n + 1 : Nat)) with hgrid
  have hfound : ((List.range 15).findSome? grid).isSome :=
    List.findSome?_isSome_iff.2 ⟨14, by simp, h⟩
  obtain ⟨d, hd⟩ := Option.isSome_iff_exists.1 hfound
  have hall : (List.range 17).findSome? grid = some d := by
    rw [show List.range 17 = List.range 15 ++ [15, 16] from rfl, List.findSome?_append, hd]
    rfl
  obtain ⟨n, hn, hdn⟩ := List.exists_of_findSome?_eq_some hd
  have hn15 := List.mem_range.1 hn
  refine ⟨14 - n, d, onGrid?_sound hdn, ?_, ?_⟩
  · rw [shortest, if_neg (by omega)]
    simp only
    rw [← hgrid, hall, Option.getD_some, Decimal.toRat_trimmed]
  · rw [exponent_of_onGrid? hdn]
    omega

/-- A numeral of at most fifteen digits is not finer than the grid of fifteen digits at the position of
the double that it rounds to. -/
theorem decimalPosition_le_of_fifteen (hr : 4503599627370496 ≤ r) (hm : m < 10 ^ 15)
    (h : RoundsAt r (m * (10 : Rat) ^ e)) : decimalPosition (units r) - 15 ≤ e := by
  by_contra hlt
  have hpow : (0 : Rat) < (10 : Rat) ^ e := by positivity
  have hnear := (abs_le.1 (le_div_iff₀' (by norm_num) |>.2 (h.abs_sub_le_magnitude hr))).1
  -- A finer numeral would be less than the double by more than rounding allows.
  have hbelow : 10 ^ 15 * (10 : Rat) ^ e ≤ magnitude r := by
    refine le_trans ?_ (magnitude_decimalPosition (r := r) (by omega)).1
    rw [mul_comm, ← zpow_natCast, ← zpow_add₀ (by norm_num)]
    exact zpow_le_zpow_right₀ (by norm_num) (by push_cast; omega)
  have hdigits : (m : Rat) ≤ 10 ^ 15 - 1 := by
    have hsucc : ((m + 1 : Nat) : Rat) ≤ ((10 ^ 15 : Nat) : Rat) := by exact_mod_cast hm
    push_cast at hsucc
    linarith
  have hq := mul_le_mul_of_nonneg_right hdigits hpow.le
  linarith

/-- The shortest decimal of a double is the numeral of at most fifteen digits that rounds to it. -/
theorem toRat_shortest_of_fifteen (hr : 4503599627370496 ≤ r) (hm : m < 10 ^ 15)
    (h : RoundsAt r (m * (10 : Rat) ^ e)) : (shortest r).toRat = m * (10 : Rat) ^ e := by
  have hr0 : 0 < r := by omega
  set g := decimalPosition (units r) - 15 with hg
  have hpow : (0 : Rat) < (10 : Rat) ^ g := by positivity
  -- Both decimals are on the grid of fifteen digits.
  obtain ⟨j, hj⟩ := Int.eq_ofNat_of_zero_le
    (sub_nonneg.2 (decimalPosition_le_of_fifteen hr hm h))
  have hnumeral : (m : Rat) * (10 : Rat) ^ e = (m * 10 ^ j : Nat) * (10 : Rat) ^ g := by
    rw [show e = j + g by omega, zpow_add₀ (by norm_num), zpow_natCast]
    push_cast
    ring
  rw [hnumeral] at h ⊢
  obtain ⟨k, d, hd, hshort, hexp⟩ := exists_onGrid?_of_fifteen hr0
    (onGrid?_isSome_of_roundsAt hr0 h)
  have hfound : d.toRat = (d.digits * 10 ^ k : Nat) * (10 : Rat) ^ g := by
    rw [Decimal.toRat_eq, hexp, ← hg, add_comm, zpow_add₀ (by norm_num), zpow_natCast]
    push_cast
    ring
  rw [hshort, hfound]
  rw [hfound] at hd
  generalize m * 10 ^ j = a at *
  generalize d.digits * 10 ^ k = b at *
  -- They lie closer together than its points do.
  have ha := h.abs_sub_le_magnitude hr
  have hb := hd.abs_sub_le_magnitude hr
  have hsize : magnitude r < 10 ^ 15 * (10 : Rat) ^ g := by
    refine (magnitude_decimalPosition hr0).2.trans_le (le_of_eq ?_)
    rw [mul_comm, ← zpow_natCast, ← zpow_add₀ (by norm_num)]
    congr 1
    push_cast
    omega
  have hclose : |(b : Rat) - a| * (10 : Rat) ^ g < 1 * (10 : Rat) ^ g := by
    have htriangle := abs_sub_le (b * (10 : Rat) ^ g) (magnitude r) (a * (10 : Rat) ^ g)
    rw [abs_sub_comm (magnitude r)] at htriangle
    rw [← abs_of_pos hpow, ← abs_mul, sub_mul, abs_of_pos hpow]
    linarith
  have hlt := lt_of_mul_lt_mul_right hclose hpow.le
  have hab : b = a := by
    have hint : |(b : Int) - a| < 1 := by exact_mod_cast hlt
    have := Int.abs_lt_one_iff.1 hint
    omega
  rw [hab]

/-- A numeral of at most fifteen digits and of moderate size is the value of the double that is read. -/
theorem decimalValue?_ofDecimal (hd : d.toRat = m * (10 : Rat) ^ e) (hm : m < 10 ^ 15)
    (hlow : (10 : Rat) ^ (-300 : Int) ≤ d.toRat) (hhigh : d.toRat ≤ 10 ^ 300) (s : Bool) :
    (ofDecimal s d).decimalValue? = some (signed s d.toRat) := by
  have hpow : (0 : Rat) < (10 : Rat) ^ (-300 : Int) := by positivity
  obtain ⟨r, hr⟩ := exists_roundsAt (hpow.le.trans hlow)
  have hfinite : r < finiteRanks := by
    refine hr.lt_finiteRanks (lt_of_le_of_lt (mul_le_mul_of_nonneg_left hhigh zero_le_two) ?_)
    have h : 2 * 10 ^ 300 < 2 ^ 1024 := by decide +kernel
    generalize 300 = j at h ⊢
    generalize 1024 = k at h ⊢
    exact_mod_cast h
  rw [decimalValue?_of_equal ((isNearest_ofDecimal s d).equal (hr.isNearest s)), ofRank,
    dif_pos hfinite, decimalValue?_finite]
  have hlarge := hr.rank_large hlow
  rw [hd] at hr ⊢
  rw [toRat_shortest_of_fifteen hlarge hm hr]

end Binary64

end Discharge
