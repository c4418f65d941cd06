import Mathlib.Algebra.Order.Floor.Semifield
import Mathlib.RingTheory.Polynomial.RationalRoot
import Discharge.Proofs.Decision.Algebraic
import Discharge.Proofs.Semantics.Writing

/-!
# Irrational algebraic numbers

The value of a polynomial at a root that its annihilator is found to annihilate is algebraic, and
where no rational root of the annihilator lies near, it is irrational (`Algebraic.irrational`): the
denominator of a rational root divides the leading coefficient. An enclosure whose ends have the same
sign and ten decimals has the text of every number in it (`Enclosure.text_eq`).
-/

noncomputable section

open Polynomial

namespace Discharge

/-! ## Polynomials as lists of coefficients -/

namespace Univariate

variable {x : ℝ}

@[simp] theorem evaluateAt_add :
    ∀ p q : List Rat, evaluateAt (add p q) x = evaluateAt p x + evaluateAt q x
  | [], q => by simp [add, evaluateAt]
  | _ :: _, [] => by simp [add, evaluateAt]
  | a :: p, b :: q => by
    simp only [add, evaluateAt, evaluateAt_add p q, Rat.cast_add]
    ring

@[simp] theorem evaluateAt_scale (c : Rat) :
    ∀ p : List Rat, evaluateAt (scale c p) x = c * evaluateAt p x
  | [] => by simp [scale, evaluateAt]
  | a :: p => by
    have ih := evaluateAt_scale c p
    simp only [scale] at ih
    simp only [scale, List.map_cons, evaluateAt, ih, Rat.cast_mul]
    ring

@[simp] theorem evaluateAt_mul :
    ∀ p q : List Rat, evaluateAt (mul p q) x = evaluateAt p x * evaluateAt q x
  | [], q => by simp [mul, evaluateAt]
  | a :: p, q => by
    simp only [mul, evaluateAt_add, evaluateAt_scale, evaluateAt, evaluateAt_mul p q, Rat.cast_zero]
    ring

/-- A polynomial at the value of another one. -/
@[simp] theorem evaluateAt_compose :
    ∀ p q : List Rat, evaluateAt (compose p q) x = evaluateAt p (evaluateAt q x)
  | [], q => rfl
  | c :: cs, q => by
    simp only [compose, evaluateAt_add, evaluateAt_mul, evaluateAt, evaluateAt_compose cs q]
    ring

/-- A polynomial with zero coefficients vanishes. -/
theorem evaluateAt_of_isZero : ∀ {p : List Rat}, isZero p = true → evaluateAt p x = 0
  | [], _ => rfl
  | c :: cs, h => by
    simp only [isZero, List.all_cons, Bool.and_eq_true, beq_iff_eq] at h
    simp [evaluateAt, h.1, evaluateAt_of_isZero (p := cs) h.2]

/-- The polynomial of a list of integer coefficients. -/
def toPolynomial : List Rat → ℤ[X]
  | [] => 0
  | c :: cs => C c.num + X * toPolynomial cs

/-- A polynomial with integer coefficients has the value of its coefficient list. -/
theorem aeval_toPolynomial :
    ∀ {p : List Rat}, (∀ c ∈ p, c.den = 1) → aeval x (toPolynomial p) = evaluateAt p x
  | [], _ => by simp [toPolynomial, evaluateAt]
  | c :: cs, h => by
    obtain ⟨hc, hcs⟩ := List.forall_mem_cons.1 h
    have hnum : (c : ℝ) = c.num := by rw [Rat.cast_def, hc, Nat.cast_one, div_one]
    simp [toPolynomial, evaluateAt, aeval_toPolynomial hcs, hnum]

/-- The last coefficient leads, unless it is zero. -/
theorem leadingCoeff_toPolynomial {lead : Rat} (hlead : lead.num ≠ 0) :
    ∀ {p : List Rat}, p.getLast? = some lead → (toPolynomial p).leadingCoeff = lead.num
  | [c], h => by
    obtain rfl : c = lead := Option.some.inj h
    rw [toPolynomial, toPolynomial, mul_zero, add_zero, leadingCoeff_C]
  | c :: c' :: cs, h => by
    have ih := leadingCoeff_toPolynomial hlead (p := c' :: cs) (by rwa [List.getLast?_cons_cons] at h)
    have hne : toPolynomial (c' :: cs) ≠ 0 := fun h0 => hlead (by rw [← ih, h0, leadingCoeff_zero])
    have hdegree : degree (C c.num) < degree (X * toPolynomial (c' :: cs)) := by
      rw [mul_comm, degree_mul_X, degree_eq_natDegree hne]
      exact degree_C_le.trans_lt (by exact_mod_cast Nat.succ_pos _)
    rw [toPolynomial, leadingCoeff_add_of_degree_lt hdegree, mul_comm, leadingCoeff_mul_X, ih]

end Univariate

/-! ## Irrational values -/

namespace Algebraic

open Univariate

/-- What is found to be annihilated is a root of its annihilator. -/
theorem evaluateAt_annihilator {r : Root} {a : Algebraic} {ρ : ℝ}
    (hρ : evaluateAt r.coefficients ρ = 0) (h : a.isAnnihilated r = true) :
    evaluateAt a.annihilator (evaluateAt a.coefficients ρ) = 0 := by
  have h0 : evaluateAt _ ρ = 0 := evaluateAt_of_isZero h
  simpa [hρ] using h0

/-- The leading coefficient times a rational root is an integer. -/
theorem exists_int_of_root {p : List Rat} {lead : Rat} (hp : ∀ c ∈ p, c.den = 1)
    (hlast : p.getLast? = some lead) (hlead : lead ≠ 0) {q : Rat}
    (hq : evaluateAt p (q : ℝ) = 0) : ∃ z : ℤ, (z : Rat) = lead.abs * q := by
  have hroot : aeval q (toPolynomial p) = 0 := by
    have hreal : aeval (algebraMap ℚ ℝ q) (toPolynomial p) = 0 := (aeval_toPolynomial hp).trans hq
    rw [aeval_algebraMap_apply] at hreal
    exact (map_eq_zero _).1 hreal
  have hnum : (lead.num : Rat) = lead :=
    (Rat.den_eq_one_iff lead).1 (hp lead (List.mem_of_getLast? hlast))
  obtain ⟨z, hz⟩ := IsIntegrallyClosed.isIntegral_iff.1 (isIntegral_leadingCoeff_smul _ _ hroot)
  have hz : (z : Rat) = lead * q := by
    rw [leadingCoeff_toPolynomial (Rat.num_ne_zero.2 hlead) hlast, zsmul_eq_mul, hnum] at hz
    exact hz
  rcases le_total 0 lead with h | h
  · exact ⟨z, by rw [Rat.abs_of_nonneg h, hz]⟩
  · exact ⟨-z, by rw [Rat.abs_of_nonpos h, Int.cast_neg, hz, neg_mul]⟩

/-- Where no rational root is found in an enclosure there is none. -/
theorem ne_zero_of_hasNoRationalRoot {p : List Rat} {e : Enclosure}
    (h : hasNoRationalRoot p e = true) :
    toPolynomial p ≠ 0 ∧ (∀ c ∈ p, c.den = 1) ∧
      ∀ q : Rat, e.Contains q → evaluateAt p (q : ℝ) ≠ 0 := by
  unfold hasNoRationalRoot at h
  split at h
  · cases h
  · next lead hlast =>
    simp only [Bool.and_eq_true, decide_eq_true_eq, List.all_eq_true, List.mem_range] at h
    obtain ⟨⟨⟨hlead, hp⟩, -⟩, hnone⟩ := h
    have hnum := Rat.num_ne_zero.2 hlead
    refine ⟨fun h0 => hnum ?_, hp, fun q hq hroot => ?_⟩
    · rw [← leadingCoeff_toPolynomial hnum hlast, h0, leadingCoeff_zero]
    · obtain ⟨z, hz⟩ := exists_int_of_root hp hlast hlead hroot
      have habs : 0 < lead.abs := Rat.abs_pos_iff.2 hlead
      have hlow : (e.low * lead.abs).ceil ≤ z := by
        rw [Rat.ceil_le_iff, hz, mul_comm lead.abs]
        exact mul_le_mul_of_nonneg_right (by exact_mod_cast hq.1) habs.le
      have hhigh : z ≤ (e.high * lead.abs).floor := by
        rw [Rat.le_floor_iff, hz, mul_comm lead.abs]
        exact mul_le_mul_of_nonneg_right (by exact_mod_cast hq.2) habs.le
      -- the integer is one of those that were tried
      refine hnone (z - (e.low * lead.abs).ceil).toNat (by omega) ?_
      have hplace : (e.low * lead.abs).ceil + ((z - (e.low * lead.abs).ceil).toNat : Int) = z := by
        omega
      rw [hplace, hz, mul_div_cancel_left₀ q habs.ne']
      rw [evaluateAt_cast] at hroot
      exact_mod_cast hroot

/-- What is shown to be irrational is an irrational algebraic number. -/
theorem irrational {r : Root} {a : Algebraic} {ρ : ℝ}
    (hρ : (⟨r.low, r.high⟩ : Enclosure).Contains ρ) (h0 : evaluateAt r.coefficients ρ = 0)
    (h : a.isIrrational r = true) :
    Irrational (evaluateAt a.coefficients ρ) ∧ IsAlgebraic ℚ (evaluateAt a.coefficients ρ) := by
  simp only [isIrrational, Bool.and_eq_true] at h
  obtain ⟨⟨hann, hno⟩, -⟩ := h
  obtain ⟨hne, hp, hno⟩ := ne_zero_of_hasNoRationalRoot hno
  have hroot := evaluateAt_annihilator h0 hann
  refine ⟨?_, ?_⟩
  · rintro ⟨q, hq⟩
    have hin : (a.enclosure r).Contains (q : ℝ) := hq ▸ Enclosure.evaluate_contains hρ _
    exact hno q hin (by rw [hq, hroot])
  · have halg : IsAlgebraic ℤ (evaluateAt a.coefficients ρ) :=
      ⟨_, hne, (aeval_toPolynomial hp).trans hroot⟩
    exact halg.extendScalars Int.cast_injective

end Algebraic

/-! ## Ten decimals -/

/-- A number with leading zeros, digit by digit. -/
theorem replicate_append_toDigits {k : Nat} (hk : 0 < k) :
    ∀ {n : Nat}, n < 10 ^ k →
      List.replicate (k - (Nat.toDigits 10 n).length) '0' ++ Nat.toDigits 10 n =
        (List.range k).map fun i => Nat.digitChar (n / 10 ^ (k - 1 - i) % 10) := by
  induction k, hk using Nat.le_induction with
  | base =>
    intro n hn
    have hn : n < 10 := hn
    simp [Nat.toDigits_of_lt_base hn, Nat.mod_eq_of_lt hn]
  | succ k hk ih =>
    intro n hn
    have hdiv : n / 10 < 10 ^ k := Nat.div_lt_of_lt_mul (by rwa [mul_comm, ← pow_succ])
    -- the digits before the last one are those of the tenth part
    have hfront : (List.range k).map (fun i => Nat.digitChar (n / 10 ^ (k + 1 - 1 - i) % 10)) =
        (List.range k).map fun i => Nat.digitChar (n / 10 / 10 ^ (k - 1 - i) % 10) := by
      refine List.map_congr_left fun i hi => ?_
      have hi := List.mem_range.1 hi
      rw [Nat.div_div_eq_div_mul, ← pow_succ', show k - 1 - i + 1 = k + 1 - 1 - i by omega]
    rw [List.range_succ, List.map_append, hfront, ← ih hdiv]
    simp only [List.map_cons, List.map_nil, Nat.add_sub_cancel, Nat.sub_self, pow_zero, Nat.div_one]
    rcases Nat.lt_or_ge n 10 with hlt | hge
    · have hzeros : List.replicate k '0' = List.replicate (k - 1) '0' ++ ['0'] := by
        rw [← List.replicate_succ', Nat.sub_add_cancel hk]
      simp [Nat.toDigits_of_lt_base hlt, Nat.div_eq_of_lt hlt, Nat.mod_eq_of_lt hlt, hzeros]
    · rw [Nat.toDigits_of_base_le (by decide) hge, List.length_append, List.length_singleton,
        Nat.add_sub_add_right, List.append_assoc]

/-- The first digits of a number with decimals. -/
theorem floor_div_pow (y : ℝ) {i k : Nat} (h : i ≤ k) :
    ⌊y * 10 ^ k⌋₊ / 10 ^ i = ⌊y * 10 ^ (k - i)⌋₊ := by
  rw [← Nat.floor_div_natCast]
  congr 1
  obtain ⟨j, rfl⟩ := Nat.exists_eq_add_of_le h
  rw [Nat.add_sub_cancel_left, Nat.cast_pow, Nat.cast_ofNat, pow_add]
  field_simp

/-- The decimals of a real are the last digits of what it is times a power of ten. -/
theorem decimals_eq (y : ℝ) {k : Nat} (hk : 0 < k) :
    List.replicate (k - (Nat.toDigits 10 (⌊y * 10 ^ k⌋₊ % 10 ^ k)).length) '0' ++
        Nat.toDigits 10 (⌊y * 10 ^ k⌋₊ % 10 ^ k) =
      (List.range k).map fun i => Nat.digitChar (⌊y * 10 ^ (i + 1)⌋₊ % 10) := by
  rw [replicate_append_toDigits hk (Nat.mod_lt _ (Nat.pow_pos (by decide)))]
  refine List.map_congr_left fun i hi => ?_
  have hi := List.mem_range.1 hi
  have hpow : 10 ^ k = 10 ^ (k - 1 - i) * 10 ^ (i + 1) := by
    rw [← pow_add]
    congr 1
    omega
  have hdvd : 10 ∣ 10 ^ (i + 1) := dvd_pow_self 10 (Nat.succ_ne_zero i)
  rw [show ⌊y * 10 ^ k⌋₊ % 10 ^ k = ⌊y * 10 ^ k⌋₊ % (10 ^ (k - 1 - i) * 10 ^ (i + 1)) by rw [← hpow],
    Nat.mod_mul_right_div_self, Nat.mod_mod_of_dvd _ hdvd, floor_div_pow y (by omega),
    show k - (k - 1 - i) = i + 1 by omega]

namespace Enclosure

/-- Ten decimals of a rational are those of its absolute value. -/
theorem natAbs_tenDecimals (q : Rat) : (tenDecimals q).natAbs = ⌊|(q : ℝ)| * 10 ^ 10⌋₊ := by
  have habs : |(q : ℝ)| = q.num.natAbs / q.den := by
    rw [Rat.cast_def, abs_div, Nat.abs_cast, Nat.cast_natAbs, Int.cast_abs]
  have hprod : |(q : ℝ)| * 10 ^ 10 = (q.num.natAbs * 10 ^ 10 : Nat) / (q.den : Nat) := by
    rw [habs]
    push_cast
    ring
  rw [hprod, Nat.floor_div_eq_div, tenDecimals, Int.natAbs_tdiv, Int.natAbs_mul]
  rfl

/-- The numbers of an enclosure whose ends have the same sign and ten decimals have them too. -/
theorem of_fixesDecimals {e : Enclosure} (h : e.fixesDecimals = true) {x : ℝ} (hx : e.Contains x) :
    (e.low < 0 ↔ x < 0) ∧ (tenDecimals e.low).natAbs = ⌊|x| * 10 ^ 10⌋₊ := by
  simp only [fixesDecimals, Bool.and_eq_true, decide_eq_true_eq] at h
  obtain ⟨hsign, hten⟩ := h
  obtain ⟨hl, hh⟩ := hx
  have hlow := natAbs_tenDecimals e.low
  have hhigh := natAbs_tenDecimals e.high
  rw [← hten] at hhigh
  have hmono : Monotone fun y : ℝ => ⌊y * 10 ^ 10⌋₊ := fun y z hyz =>
    Nat.floor_mono (mul_le_mul_of_nonneg_right hyz (by positivity))
  rcases mul_pos_iff.1 hsign with ⟨hl0, hh0⟩ | ⟨hl0, hh0⟩
  · have hl0' : (0 : ℝ) < e.low := by exact_mod_cast hl0
    have hx0 : 0 < x := hl0'.trans_le hl
    refine ⟨iff_of_false hl0.not_gt hx0.not_gt, le_antisymm ?_ ?_⟩
    · rw [hlow]
      exact hmono (by rw [abs_of_pos hl0', abs_of_pos hx0]; exact hl)
    · rw [hhigh]
      exact hmono (by rw [abs_of_pos hx0, abs_of_pos (hx0.trans_le hh)]; exact hh)
  · have hh0' : (e.high : ℝ) < 0 := by exact_mod_cast hh0
    have hx0 : x < 0 := hh.trans_lt hh0'
    refine ⟨iff_of_true hl0 hx0, le_antisymm ?_ ?_⟩
    · rw [hhigh]
      exact hmono (by rw [abs_of_neg hh0', abs_of_neg hx0]; exact neg_le_neg hh)
    · rw [hlow]
      exact hmono (by rw [abs_of_neg hx0, abs_of_neg (hl.trans_lt hx0)]; exact neg_le_neg hl)

/-- An enclosure whose ends have the same sign and ten decimals has the text of each number in it. -/
theorem text_eq {e : Enclosure} (h : e.fixesDecimals = true) {x : ℝ} (hx : e.Contains x) :
    e.text = decimalText x := by
  obtain ⟨hsign, hten⟩ := of_fixesDecimals h hx
  have hint : ⌊|x| * 10 ^ 10⌋₊ / Nat.pow 10 10 = ⌊|x|⌋₊ := by
    have := floor_div_pow |x| (le_refl 10)
    rwa [Nat.sub_self, pow_zero, mul_one] at this
  simp only [text, decimalText, hten, hint, hsign]
  rw [show Nat.pow 10 10 = 10 ^ 10 from rfl, decimals_eq |x| (by decide)]
  rfl

end Enclosure

end Discharge

end
