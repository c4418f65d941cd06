import Mathlib.Topology.Order.IntermediateValue
import Mathlib.Topology.Algebra.Ring.Real
import Mathlib.Data.Rat.Cast.Order
import Discharge.Decision.Algebraic

/-!
# Algebraic numbers exist

A polynomial that changes its sign between two ends has a root between them (`Root.exists_isRoot`),
and enclosures contain what they enclose (`Enclosure.evaluate_contains`), so that numbers with
enclosures apart are different.
-/

namespace Discharge

noncomputable section

namespace Univariate

/-- The value of a polynomial at a real. -/
def evaluateAt : List Rat → ℝ → ℝ
  | [], _ => 0
  | c :: cs, x => c + x * evaluateAt cs x

/-- The value of a polynomial at a rational is the rational that is computed. -/
theorem evaluateAt_cast : ∀ (p : List Rat) (q : Rat), evaluateAt p q = (evaluate p q : Rat)
  | [], _ => by simp [evaluateAt, evaluate]
  | c :: cs, q => by simp [evaluateAt, evaluate, evaluateAt_cast cs q]

/-- Polynomials are continuous. -/
theorem continuous_evaluateAt : ∀ p : List Rat, Continuous (evaluateAt p)
  | [] => continuous_const
  | _ :: cs => continuous_const.add (continuous_id.mul (continuous_evaluateAt cs))

end Univariate

/-- The real is the number that a root describes. -/
def Root.IsRoot (r : Root) (x : ℝ) : Prop :=
  (r.low : ℝ) < x ∧ x < r.high ∧ Univariate.evaluateAt r.coefficients x = 0

/-- A polynomial that changes its sign between two ends has a root between them. -/
theorem Root.exists_isRoot {r : Root} (h : r.isIsolated = true) : ∃ x, r.IsRoot x := by
  simp only [isIsolated, Bool.and_eq_true, decide_eq_true_eq] at h
  obtain ⟨hlt, hsign⟩ := h
  have hle : (r.low : ℝ) ≤ r.high := by exact_mod_cast hlt.le
  have hc := (Univariate.continuous_evaluateAt r.coefficients).continuousOn
    (s := Set.Icc (r.low : ℝ) r.high)
  have hl := Univariate.evaluateAt_cast r.coefficients r.low
  have hh := Univariate.evaluateAt_cast r.coefficients r.high
  rcases mul_neg_iff.1 hsign with ⟨hpos, hneg⟩ | ⟨hneg, hpos⟩
  · obtain ⟨x, hx, h0⟩ := intermediate_value_Ioo' hle hc (show (0 : ℝ) ∈ Set.Ioo _ _ from
      ⟨by rw [hh]; exact_mod_cast hneg, by rw [hl]; exact_mod_cast hpos⟩)
    exact ⟨x, hx.1, hx.2, h0⟩
  · obtain ⟨x, hx, h0⟩ := intermediate_value_Ioo hle hc (show (0 : ℝ) ∈ Set.Ioo _ _ from
      ⟨by rw [hl]; exact_mod_cast hneg, by rw [hh]; exact_mod_cast hpos⟩)
    exact ⟨x, hx.1, hx.2, h0⟩

namespace Enclosure

/-- The real is one of the numbers between the ends. -/
def Contains (e : Enclosure) (x : ℝ) : Prop := (e.low : ℝ) ≤ x ∧ x ≤ e.high

variable {a b : Enclosure} {x y : ℝ}

/-- A point encloses its rational. -/
theorem point_contains (q : Rat) : (point q).Contains q := ⟨le_rfl, le_rfl⟩

/-- The sum of two enclosures encloses the sums. -/
theorem add_contains (hx : a.Contains x) (hy : b.Contains y) : (a.add b).Contains (x + y) :=
  ⟨by rw [add, Rat.cast_add]; exact add_le_add hx.1 hy.1,
    by rw [add, Rat.cast_add]; exact add_le_add hx.2 hy.2⟩

/-- The smaller of two rationals is below a real if one of the two is. -/
theorem smaller_le_iff {p q : Rat} : (smaller p q : ℝ) ≤ x ↔ (p : ℝ) ≤ x ∨ (q : ℝ) ≤ x := by
  have h : smaller p q = min p q := (min_def p q).symm
  rw [h, Rat.cast_min, min_le_iff]

/-- The larger of two rationals is above a real if one of the two is. -/
theorem le_larger_iff {p q : Rat} : x ≤ (larger p q : ℝ) ↔ x ≤ (p : ℝ) ∨ x ≤ (q : ℝ) := by
  have h : larger p q = max p q := (max_def p q).symm
  rw [h, Rat.cast_max, le_max_iff]

/-- Multiplying by a number, one of the two ends gives the least product and one the greatest. -/
theorem mul_between (hx : a.Contains x) (y : ℝ) :
    (a.low * y ≤ x * y ∨ a.high * y ≤ x * y) ∧ (x * y ≤ a.low * y ∨ x * y ≤ a.high * y) := by
  rcases le_total 0 y with h | h
  · exact ⟨.inl (mul_le_mul_of_nonneg_right hx.1 h), .inr (mul_le_mul_of_nonneg_right hx.2 h)⟩
  · exact ⟨.inr (mul_le_mul_of_nonpos_right hx.2 h), .inl (mul_le_mul_of_nonpos_right hx.1 h)⟩

/-- A multiple of an enclosed real lies between the multiples of the two ends. -/
theorem mul_between' (hy : b.Contains y) (u : ℝ) :
    (u * b.low ≤ u * y ∨ u * b.high ≤ u * y) ∧ (u * y ≤ u * b.low ∨ u * y ≤ u * b.high) := by
  simpa only [mul_comm u] using mul_between hy u

/-- The product of two enclosures encloses the products. -/
theorem mul_contains (hx : a.Contains x) (hy : b.Contains y) : (a.mul b).Contains (x * y) := by
  obtain ⟨hl, hh⟩ := mul_between hx y
  constructor
  · simp only [mul, List.foldl_cons, List.foldl_nil, smaller_le_iff, Rat.cast_mul]
    rcases hl with hl | hl
    · rcases (mul_between' hy a.low).1 with h | h <;> have := h.trans hl <;> tauto
    · rcases (mul_between' hy a.high).1 with h | h <;> have := h.trans hl <;> tauto
  · simp only [mul, List.foldl_cons, List.foldl_nil, le_larger_iff, Rat.cast_mul]
    rcases hh with hh | hh
    · rcases (mul_between' hy a.low).2 with h | h <;> have := hh.trans h <;> tauto
    · rcases (mul_between' hy a.high).2 with h | h <;> have := hh.trans h <;> tauto

/-- The value of a polynomial at a number of an enclosure. -/
theorem evaluate_contains (hx : a.Contains x) :
    ∀ p : List Rat, (a.evaluate p).Contains (Univariate.evaluateAt p x)
  | [] => by simpa [evaluate, Univariate.evaluateAt] using point_contains 0
  | c :: cs => add_contains (point_contains c) (mul_contains hx (evaluate_contains hx cs))

/-- Numbers of two enclosures that have none in common are different. -/
theorem ne_of_isApart (h : a.isApart b = true) (hx : a.Contains x) (hy : b.Contains y) :
    x ≠ y := by
  rintro rfl
  simp only [isApart, Bool.or_eq_true, decide_eq_true_eq] at h
  rcases h with h | h
  · have h : (a.high : ℝ) < b.low := by exact_mod_cast h
    exact absurd (hy.1.trans hx.2) (not_le.2 h)
  · have h : (b.high : ℝ) < a.low := by exact_mod_cast h
    exact absurd (hx.1.trans hy.2) (not_le.2 h)

end Enclosure

end

end Discharge
