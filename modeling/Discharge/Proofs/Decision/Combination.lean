import Discharge.Decision.Refutation
import Discharge.Proofs.Decision.Literal

/-!
# Combinations of constraints

The value of a polynomial in numbered unknowns, and that the operations compute with values. Where
assumptions hold, a summand has the sign that is computed for it (`Summand.signed?_holds`), so
summands cannot contradict each other (`Summand.not_hold_of_contradict`).
-/

namespace Discharge

open Term (Sorted)

noncomputable section

/-! ## Values -/

/-- The value of a monomial, given those of the unknowns. -/
def Exponents.value : (Nat → ℝ) → Exponents → ℝ
  | _, [] => 1
  | x, d :: m => x 0 ^ d * value (fun i => x (i + 1)) m

namespace Exponents

/-- The value of a product of monomials is the product of the values. -/
theorem value_mul : ∀ (x : Nat → ℝ) (m n : Exponents), value x (mul m n) = value x m * value x n
  | x, [], n => by simp [mul, value]
  | x, d :: m, [] => by simp [mul, value]
  | x, d :: m, e :: n => by simp only [mul, value, pow_add, value_mul _ m n]; ring

/-- The value of an unknown as a monomial is that unknown. -/
theorem value_single : ∀ (x : Nat → ℝ) (i : Nat), value x (single i) = x i
  | x, 0 => by simp [single, value]
  | x, i + 1 => by simp [single, value, value_single]

/-- Monomials that are not told apart have one value; they differ in zeros at the end. -/
theorem value_eq_of_compareLex :
    ∀ (x : Nat → ℝ) (m n : Exponents), compareLex m n = .eq → value x m = value x n
  | x, [], [], _ => rfl
  | x, [], e :: n, h => by
    simp only [compareLex] at h
    split at h
    · next he => simp [he, value, ← value_eq_of_compareLex (fun i => x (i + 1)) [] n h]
    · cases h
  | x, d :: m, [], h => by
    simp only [compareLex] at h
    split at h
    · next hd => simp [hd, value, value_eq_of_compareLex (fun i => x (i + 1)) m [] h]
    · cases h
  | x, d :: m, e :: n, h => by
    simp only [compareLex] at h
    split at h
    · next hd => simp [hd, value, value_eq_of_compareLex (fun i => x (i + 1)) m n h]
    · split at h <;> cases h

/-- Monomials that compare as equal have the same value. -/
theorem value_eq_of_compare {x : Nat → ℝ} {m n : Exponents} (h : compare m n = .eq) :
    value x m = value x n := by
  simp only [compare] at h
  split at h
  · exact value_eq_of_compareLex x m n h
  · split at h <;> cases h

end Exponents

namespace MultiPolynomial

/-- The value of a polynomial, given those of the unknowns. -/
def value (x : Nat → ℝ) : MultiPolynomial → ℝ
  | [] => 0
  | (m, c) :: p => c * Exponents.value x m + value x p

variable {x : Nat → ℝ}

@[simp] theorem value_const (c : Rat) : (const c).value x = c := by
  unfold const
  split
  · next h => simp [value, h]
  · simp [value, Exponents.value]

@[simp] theorem value_add (p q : MultiPolynomial) :
    (add p q).value x = p.value x + q.value x := by
  fun_induction add p q with
  | case1 q => simp [value]
  | case2 p => simp [value]
  | case3 m c p n d q h ih => simp only [value, ih]; ring
  | case4 m c p n d q h ih => simp only [value, ih]; ring
  | case5 m c p n d q h hz ih =>
    have hz' : (c : ℝ) + d = 0 := by exact_mod_cast hz
    have hd : (d : ℝ) = -c := by linarith
    rw [ih, value, value, Exponents.value_eq_of_compare h, hd]; ring
  | case6 m c p n d q h hz ih =>
    rw [value, value, value, ih, Exponents.value_eq_of_compare h, Rat.cast_add]; ring

@[simp] theorem value_scale (c : Rat) (p : MultiPolynomial) :
    (scale c p).value x = c * p.value x := by
  unfold scale
  split
  · next h => simp [value, h]
  · induction p with
    | nil => simp [value]
    | cons md p ih => simp only [List.map_cons, value, ih, Rat.cast_mul]; ring

/-- The value of a polynomial times a multiple of a monomial. -/
theorem value_mulMonomial (m : Exponents) (c : Rat) (p : MultiPolynomial) :
    (mulMonomial m c p).value x = c * Exponents.value x m * p.value x := by
  unfold mulMonomial
  split
  · next h => simp [value, h]
  · induction p with
    | nil => simp [value]
    | cons md p ih =>
      simp only [List.map_cons, value, ih, Rat.cast_mul, Exponents.value_mul]; ring

@[simp] theorem value_mul : ∀ p q : MultiPolynomial, (mul p q).value x = p.value x * q.value x
  | [], q => by simp [mul, value]
  | (m, c) :: p, q => by
    simp only [mul, value_add, value_mulMonomial, value_mul p q, value]; ring

/-- The value of a polynomial without unknowns. -/
theorem value_of_constant? {p : MultiPolynomial} {c : Rat} (h : p.constant? = some c) :
    p.value x = c := by
  unfold constant? at h
  split at h
  · cases h; simp [value]
  · cases h; simp [value, Exponents.value]
  · cases h

end MultiPolynomial

/-- The numbers that numbered atoms are. -/
def atomValues (I : Interpretation) (atoms : List Term) (i : Nat) : ℝ :=
  (atoms.getD i default).number I

namespace Polynomial

variable {I : Interpretation} {atoms : List Term}

/-- A monomial over numbered atoms has the value of the monomial over the atoms. -/
theorem value_exponents? : ∀ {m : Monomial} {n : Exponents}, exponents? atoms m = some n →
    Exponents.value (atomValues I atoms) n = Monomial.value (Term.number I) m
  | [], _, h => by cases h; simp [Exponents.value, Monomial.value]
  | t :: m, _, h => by
    simp only [exponents?] at h
    split at h
    · next hi =>
      obtain ⟨n, hn, rfl⟩ := Option.map_eq_some_iff.1 h
      rw [Exponents.value_mul, Exponents.value_single, value_exponents? hn, atomValues,
        List.getD_eq_getElem?_getD, List.getElem?_eq_getElem hi, Option.getD_some,
        List.getElem_idxOf]
      rfl
    · cases h

/-- Numbering the atoms keeps the value. -/
theorem value_numbered? : ∀ {p : Polynomial} {q : MultiPolynomial}, numbered? atoms p = some q →
    q.value (atomValues I atoms) = p.value (Term.number I)
  | [], _, h => by cases h; rfl
  | (m, c) :: p, _, h => by
    simp only [numbered?] at h
    split at h
    · next hn hq =>
      cases h
      rw [MultiPolynomial.value_add, value_numbered? hq, MultiPolynomial.value,
        value_exponents? hn, value]
      simp [MultiPolynomial.value]
    · cases h

end Polynomial

/-! ## Signs -/

/-- What is known of the sign of a polynomial. -/
def Signed.Holds (x : Nat → ℝ) (a : Signed) : Prop := a.relation.Holds (a.poly.value x)

section
variable {x : Nat → ℝ} {a b : Signed}

/-- A positive number is not negative, and neither is zero. -/
theorem Relation.Holds.nonneg {r : Relation} {v : ℝ} (h : r.Holds v) : 0 ≤ v := by
  cases r with
  | positive => exact le_of_lt h
  | nonneg => exact h
  | zero => exact le_of_eq h.symm

/-- A product has the sign that its factors give it. -/
theorem Signed.mul_holds (ha : a.Holds x) (hb : b.Holds x) : (a.mul b).Holds x := by
  unfold Signed.Holds Signed.mul at *
  simp only [MultiPolynomial.value_mul]
  have hna := ha.nonneg
  have hnb := hb.nonneg
  split
  · next h => rw [h] at ha; simp [Relation.Holds, show a.poly.value x = 0 from ha]
  · next h _ => rw [h] at hb; simp [Relation.Holds, show b.poly.value x = 0 from hb]
  · next h h' => rw [h] at ha; rw [h'] at hb; exact mul_pos ha hb
  · exact mul_nonneg hna hnb

/-- A square has the sign that is kept with it. -/
theorem Signed.square_holds (p : MultiPolynomial) : (Signed.square p).Holds x := by
  simp only [Signed.Holds, Signed.square, Relation.Holds, MultiPolynomial.value_mul]
  exact mul_self_nonneg _

/-- A multiple has the sign that is kept with it. -/
theorem Signed.multiply?_holds {p : MultiPolynomial} (ha : a.Holds x)
    (h : a.multiply? p = some b) : b.Holds x := by
  obtain ⟨q, r⟩ := a
  cases r with
  | zero =>
    cases h
    have : q.value x = 0 := ha
    simp [Signed.Holds, Relation.Holds, this]
  | positive | nonneg =>
    simp only [Signed.multiply?] at h
    split at h
    · next c _ =>
      split at h
      · next hc =>
        cases h
        have hc' : (0 : ℝ) < c := by exact_mod_cast hc
        simp only [Signed.Holds, Relation.Holds, MultiPolynomial.value_scale] at ha ⊢
        first | exact mul_pos hc' ha | exact mul_nonneg hc'.le ha
      · cases h
    · cases h

end

section
variable {I : Interpretation} {atoms : List Term} {t : Term} {a : Signed}

/-- A literal that holds has the sign that is read off it. -/
theorem Signed.ofLiteral?_holds (h : Sorted 0 t .bool) (ht : t.Holds I)
    (ha : Signed.ofLiteral? atoms t = some a) : a.Holds (atomValues I atoms) := by
  unfold Signed.ofLiteral? at ha
  split at ha
  · next c hc =>
    obtain ⟨p, hp, rfl⟩ := Option.map_eq_some_iff.1 ha
    rw [Signed.Holds, Polynomial.value_numbered? hp]
    exact Term.constraint?_holds h hc ht
  · split at ha
    · next u v _ =>
      split at ha
      · next har =>
        -- the difference of two different numbers has a positive square
        obtain ⟨p, hp, rfl⟩ := Option.map_eq_some_iff.1 ha
        obtain ⟨hu, hv⟩ := h.of_not.of_eq
        have hne : u.number I ≠ v.number I := by
          rw [Term.holds_not, h.of_not.holds_relation har] at ht
          exact ht
        simp only [Signed.Holds, Relation.Holds, MultiPolynomial.value_mul,
          Polynomial.value_numbered? hp, Polynomial.value_sub, hu.polynomial_eq har,
          hv.polynomial_eq har]
        exact mul_self_pos.2 (sub_ne_zero.2 hne)
      · cases ha
    · cases ha

end

/-! ## Summands -/

namespace Summand

variable {I : Interpretation} {atoms : List Term} {assumed : Assumptions}

/-- A product of assumed constraints has the sign that is kept with it. -/
theorem product?_holds (hs : assumed.WellSorted) (hI : assumed.Hold I) :
    ∀ {ts : List Term} {a : Signed}, product? atoms assumed ts = some a →
      a.Holds (atomValues I atoms)
  | [], _, h => by
    cases h
    simp [Signed.Holds, Relation.Holds]
  | t :: ts, _, h => by
    simp only [product?] at h
    split at h
    · next hc =>
      have hm := Assumptions.mem_of_contains hc
      split at h
      · next ha hb =>
        cases h
        exact Signed.mul_holds (Signed.ofLiteral?_holds (hs _ hm) (hI _ hm) ha)
          (product?_holds hs hI hb)
      · cases h
    · cases h

/-- Multiplying with squares keeps the sign known. -/
theorem foldl_square_holds {x : Nat → ℝ} :
    ∀ (squares : List MultiPolynomial) {a : Signed}, a.Holds x →
      (squares.foldl (fun b p => b.mul (.square p)) a).Holds x
  | [], _, h => h
  | p :: squares, _, h =>
    foldl_square_holds squares (Signed.mul_holds h (Signed.square_holds p))

/-- Where the assumptions hold, a summand has the sign that is computed for it. -/
theorem signed?_holds (hs : assumed.WellSorted) (hI : assumed.Hold I) {s : Summand} {a : Signed}
    (h : s.signed? atoms assumed = some a) : a.Holds (atomValues I atoms) := by
  unfold signed? at h
  split at h
  · next hb => exact Signed.multiply?_holds (foldl_square_holds _ (product?_holds hs hI hb)) h
  · cases h

/-- The sum of summands is not negative, and positive if one of them is. -/
theorem sum?_nonneg (hs : assumed.WellSorted) (hI : assumed.Hold I) :
    ∀ {l : List Summand} {p : MultiPolynomial} {strict : Bool},
      sum? atoms assumed l = some (p, strict) →
      0 ≤ p.value (atomValues I atoms) ∧ (strict = true → 0 < p.value (atomValues I atoms))
  | [], _, _, h => by
    cases h
    simp [MultiPolynomial.value]
  | s :: rest, _, _, h => by
    simp only [sum?] at h
    split at h
    · next a p strict ha hp =>
      cases h
      have hsigned := signed?_holds hs hI ha
      obtain ⟨hn, hpos⟩ := sum?_nonneg hs hI hp
      rw [MultiPolynomial.value_add]
      refine ⟨add_nonneg (Relation.Holds.nonneg hsigned) hn, fun h => ?_⟩
      rcases Bool.or_eq_true _ _ |>.mp h with h | h
      · exact add_pos_of_nonneg_of_pos (Relation.Holds.nonneg hsigned) (hpos h)
      · rw [Signed.Holds, of_decide_eq_true h] at hsigned
        exact add_pos_of_pos_of_nonneg hsigned hn
    · cases h

/-- Where the assumptions hold, summands do not contradict each other. -/
theorem not_hold_of_contradict (hs : assumed.WellSorted) {l : List Summand}
    (h : contradict atoms assumed l = true) : ¬ assumed.Hold I := by
  intro hI
  unfold contradict at h
  split at h
  · next p strict hp =>
    obtain ⟨hn, hpos⟩ := sum?_nonneg hs hI hp
    split at h
    · next c hc =>
      rw [MultiPolynomial.value_of_constant? hc] at hn hpos
      simp only [Bool.or_eq_true, decide_eq_true_eq, Bool.and_eq_true] at h
      rcases h with h | ⟨rfl, h⟩
      · exact absurd hn (not_le.2 (by exact_mod_cast h))
      · simpa using hpos h
    · cases h
  · cases h

end Summand

end

end Discharge
