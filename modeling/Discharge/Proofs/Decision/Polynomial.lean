import Mathlib.Tactic.Ring
import Mathlib.Tactic.FieldSimp
import Discharge.Decision.Polynomial
import Discharge.Proofs.Semantics.Interpretation

/-!
# The value of a polynomial over terms

`Polynomial.value` gives the value of a polynomial from those of its atoms, and the operations on
polynomials compute sums, products and so on of values. The polynomial of an arithmetic term has the
value of the term (`Term.Sorted.value_polynomial`).
-/

namespace Discharge

noncomputable section

/-- The value of a monomial, given those of its atoms. -/
def Monomial.value (x : Term → ℝ) (m : Monomial) : ℝ := (m.map x).prod

namespace Polynomial

/-- The value of a polynomial, given those of its atoms. -/
def value (x : Term → ℝ) : Polynomial → ℝ
  | [] => 0
  | (m, c) :: p => c * Monomial.value x m + value x p

variable {x : Term → ℝ}

@[simp] theorem value_const (q : Rat) : (const q).value x = q := by
  unfold const
  split
  · next h => simp [value, h]
  · simp [value, Monomial.value]

@[simp] theorem value_atom (t : Term) : (atom t).value x = x t := by
  simp [atom, value, Monomial.value]

/-- Monomials that differ in the order of their atoms have one value. -/
theorem value_eq_of_isPerm {m n : Monomial} (h : m.isPerm n = true) :
    Monomial.value x m = Monomial.value x n :=
  ((List.isPerm_iff.1 h).map x).prod_eq

/-- Adding a multiple of a monomial adds its value. -/
theorem value_addMonomial (m : Monomial) (c : Rat) :
    ∀ p : Polynomial, (addMonomial m c p).value x = c * Monomial.value x m + p.value x
  | [] => by
    unfold addMonomial
    split
    · next h => simp [value, h]
    · rfl
  | (n, d) :: p => by
    unfold addMonomial
    split
    · next h =>
      rw [value_eq_of_isPerm h]
      split
      · next hz =>
        have hz' : (c : ℝ) + d = 0 := by exact_mod_cast hz
        rw [value, ← add_assoc, ← add_mul, hz', zero_mul, zero_add]
      · simp only [value, Rat.cast_add]; ring
    · simp only [value, value_addMonomial m c p]; ring

@[simp] theorem value_add : ∀ p q : Polynomial, (add p q).value x = p.value x + q.value x
  | [], q => by simp [add, value]
  | (m, c) :: p, q => by simp only [add, value_addMonomial, value_add p q, value]; ring

/-- A polynomial with all coefficients multiplied has the multiple of its value. -/
theorem value_map (c : Rat) :
    ∀ p : Polynomial, value x (p.map fun (m, d) => (m, c * d)) = c * p.value x
  | [] => by simp [value]
  | (m, d) :: p => by simp only [List.map_cons, value, value_map c p, Rat.cast_mul]; ring

@[simp] theorem value_scale (c : Rat) (p : Polynomial) : (scale c p).value x = c * p.value x := by
  unfold scale
  split
  · next h => simp [value, h]
  · exact value_map c p

@[simp] theorem value_neg (p : Polynomial) : (neg p).value x = -p.value x := by
  simp [neg]

@[simp] theorem value_sub (p q : Polynomial) : (sub p q).value x = p.value x - q.value x := by
  simp [sub, sub_eq_add_neg]

/-- The value of a polynomial times a multiple of a monomial. -/
theorem value_mulMonomial (m : Monomial) (c : Rat) :
    ∀ p : Polynomial, (mulMonomial m c p).value x = c * Monomial.value x m * p.value x
  | [] => by simp [mulMonomial, value]
  | (n, d) :: p => by
    simp only [mulMonomial, value_addMonomial, value_mulMonomial m c p, value, Monomial.value,
      List.map_append, List.prod_append, Rat.cast_mul]
    ring

@[simp] theorem value_mul : ∀ p q : Polynomial, (mul p q).value x = p.value x * q.value x
  | [], q => by simp [mul, value]
  | (m, c) :: p, q => by
    simp only [mul, value_add, value_mulMonomial, value_mul p q, value]; ring

/-- A polynomial without atoms has its one coefficient as value. -/
theorem value_of_constant? {p : Polynomial} {c : Rat} (h : p.constant? = some c) :
    p.value x = c := by
  unfold constant? at h
  split at h
  · cases h; simp [value]
  · cases h; simp [value, Monomial.value]
  · cases h

end Polynomial

namespace Term

/-- Division of two numbers that are integers. -/
theorem divideNumbers?_eq_some {op : TermOp} {c d q : Rat} (h : divideNumbers? op c d = some q) :
    ∃ m n : Int, c = m ∧ d = n ∧ n ≠ 0 ∧
      (op = .idiv ∧ q = (m / n : Int) ∨ op = .mod ∧ q = (m % n : Int)) := by
  unfold divideNumbers? at h
  split at h
  · next hc =>
    simp only [Bool.and_eq_true, decide_eq_true_eq] at hc
    obtain ⟨⟨hm, hn⟩, hz⟩ := hc
    have hm' : c = c.num := (Rat.den_eq_one_iff c).1 hm |>.symm
    have hn' : d = d.num := (Rat.den_eq_one_iff d).1 hn |>.symm
    refine ⟨c.num, d.num, hm', hn', fun e => hz (Rat.num_eq_zero.1 e), ?_⟩
    split at h
    · cases h; exact .inl ⟨rfl, rfl⟩
    · cases h; exact .inr ⟨rfl, rfl⟩
    · cases h
  · cases h

variable {I : Interpretation} {env : List Int}

/-- The quotient of two integers whose values are known. -/
theorem number_idiv {v w : Meaning} (hv : v.sort = .int) (hw : w.sort = .int) {m n : Int}
    (hm : v.number = m) (hn : w.number = n) (h : n ≠ 0) :
    (I.idiv v w).number = (m / n : Int) := by
  obtain ⟨m', rfl⟩ := Meaning.exists_int hv
  obtain ⟨n', rfl⟩ := Meaning.exists_int hw
  obtain rfl : m' = m := by simpa using hm
  obtain rfl : n' = n := by simpa using hn
  simp [Interpretation.idiv, h]

/-- The remainder of two integers whose values are known. -/
theorem number_mod {v w : Meaning} (hv : v.sort = .int) (hw : w.sort = .int) {m n : Int}
    (hm : v.number = m) (hn : w.number = n) (h : n ≠ 0) :
    (I.mod v w).number = (m % n : Int) := by
  obtain ⟨m', rfl⟩ := Meaning.exists_int hv
  obtain ⟨n', rfl⟩ := Meaning.exists_int hw
  obtain rfl : m' = m := by simpa using hm
  obtain rfl : n' = n := by simpa using hn
  simp [Interpretation.mod, h]

/-- The quotient of two reals, the divisor being another number than zero. -/
theorem number_rdiv {v w : Meaning} (hv : v.sort = .real) (hw : w.sort = .real)
    (h : w.number ≠ 0) : (I.rdiv v w).number = v.number / w.number := by
  obtain ⟨y, rfl⟩ := Meaning.exists_real hv
  obtain ⟨z, rfl⟩ := Meaning.exists_real hw
  simp only [Meaning.number_real] at h
  simp [Interpretation.rdiv, h]

/-- An integer division of two constants is computed, and any other one is an atom. -/
theorem polynomial_integral {a b : Term} {op : TermOp} (hop : op = .idiv ∨ op = .mod) :
    (app op a b).polynomial = .atom (app op a b) ∨
      ∃ c d q, a.polynomial.constant? = some c ∧ b.polynomial.constant? = some d ∧
        divideNumbers? op c d = some q ∧ (app op a b).polynomial = .const q := by
  rcases hop with rfl | rfl
  all_goals
    simp only [polynomial]
    split
    · next c d hc hd =>
      split
      · next q hq => exact .inr ⟨c, d, q, hc, hd, hq, rfl⟩
      · exact .inl rfl
    · exact .inl rfl

/-- An integer division has the value of its polynomial if its operands have. -/
theorem value_polynomial_integral {a b : Term} {op : TermOp} (hop : op = .idiv ∨ op = .mod)
    (hsa : (a.denote I env).sort = .int) (hsb : (b.denote I env).sort = .int)
    (ha : a.polynomial.value (fun u => (u.denote I env).number) = (a.denote I env).number)
    (hb : b.polynomial.value (fun u => (u.denote I env).number) = (b.denote I env).number) :
    (app op a b).polynomial.value (fun u => (u.denote I env).number) =
      ((app op a b).denote I env).number := by
  obtain hatom | ⟨c, d, q, hc, hd, hq, hconst⟩ := polynomial_integral (a := a) (b := b) hop
  · rw [hatom, Polynomial.value_atom]
  · have hc' := ha.symm.trans (Polynomial.value_of_constant? hc)
    have hd' := hb.symm.trans (Polynomial.value_of_constant? hd)
    rw [hconst, Polynomial.value_const, denote]
    obtain ⟨m, n, rfl, rfl, hn, ⟨rfl, rfl⟩ | ⟨rfl, rfl⟩⟩ := divideNumbers?_eq_some hq
    · rw [TermOp.denote, number_idiv hsa hsb (by exact_mod_cast hc') (by exact_mod_cast hd') hn]
      norm_cast
    · rw [TermOp.denote, number_mod hsa hsb (by exact_mod_cast hc') (by exact_mod_cast hd') hn]
      norm_cast

/-- The polynomial of an arithmetic term has the value of the term. -/
theorem Sorted.value_polynomial {t : Term} {d : Nat} {s : TermSort} (h : Sorted d t s)
    (hs : s.isArithmetic = true) (I : Interpretation) (env : List Int) :
    t.polynomial.value (fun a => (a.denote I env).number) = (t.denote I env).number := by
  induction h with
  | int => simp [polynomial, denote]
  | real => simp [polynomial, denote]
  | const | bound | select => simp [polynomial]
  | bool | not | connective | eq | comparison | quantified | store => cases hs
  | neg _ _ ih => simp [polynomial, denote, ih hs, Meaning.number_neg]
  | toReal _ ih => simp [polynomial, denote, ih rfl]
  | @ring d a s b op ho _ ha hb iha ihb =>
    have hab : (a.denote I env).sort = (b.denote I env).sort := by
      rw [ha.sort_denote, hb.sort_denote]
    have har : (a.denote I env).sort.isArithmetic = true := by rw [ha.sort_denote]; exact hs
    cases op with
    | add =>
      simp only [polynomial, Polynomial.value_add, iha hs, ihb hs, denote, TermOp.denote]
      exact (Meaning.number_arithmetic (by simp) hab har).symm
    | sub =>
      simp only [polynomial, Polynomial.value_sub, iha hs, ihb hs, denote, TermOp.denote]
      exact (Meaning.number_arithmetic (by simp) hab har).symm
    | mul =>
      simp only [polynomial, Polynomial.value_mul, iha hs, ihb hs, denote, TermOp.denote]
      exact (Meaning.number_arithmetic (by simp) hab har).symm
    | _ => cases ho
  | @integral d a b op ho ha hb iha ihb =>
    have hop : op = .idiv ∨ op = .mod := by
      cases op <;> first | exact .inl rfl | exact .inr rfl | cases ho
    exact value_polynomial_integral hop (ha.sort_denote I env) (hb.sort_denote I env) (iha rfl)
      (ihb rfl)
  | @rdiv d a b ha hb iha ihb =>
    simp only [polynomial]
    split
    · next c hc =>
      split
      · exact Polynomial.value_atom _
      · next hz =>
        have hc' := (ihb rfl).symm.trans (Polynomial.value_of_constant? hc)
        have hz' : (b.denote I env).number ≠ 0 := by rw [hc']; exact_mod_cast hz
        rw [Polynomial.value_scale, iha rfl, denote, TermOp.denote,
          number_rdiv (ha.sort_denote I env) (hb.sort_denote I env) hz', hc']
        simp [div_eq_inv_mul]
    · exact Polynomial.value_atom _

end Term

end

end Discharge
