import Discharge.Encoding.Encoder
import Discharge.Proofs.Number.Literals

/-!
# Constants of doubles

A double is encoded as the rational that its shortest decimal spells, which need not be its exact value.
By `Exp.encode_float_order` these rationals stand in the order of the doubles, and each rounds back to
the double that it came from.

The exact values and the shortest decimals both increase strictly with the rank and are zero at rank
zero. What is said of order and equality holds of every such reading of ranks.
-/

namespace Discharge

namespace Binary64

variable {x y : Binary64} {p q : Rat}

section Readings

variable {g : Nat → Rat} (hg : StrictMono g) (hzero : g 0 = 0)

include hg hzero

/-- No rank is read as a negative number. -/
theorem reading_nonneg (n : Nat) : 0 ≤ g n := hzero ▸ hg.monotone (Nat.zero_le n)

/-- Only rank zero is read as zero. -/
theorem reading_eq_zero_iff {n : Nat} : g n = 0 ↔ n = 0 := by
  rw [← hzero, hg.injective.eq_iff]

/-- The order of doubles is that of their readings with signs. -/
theorem less_finite_iff_signed (s t : Bool) (m n : Fin finiteRanks) :
    (finite s m).less (finite t n) = true ↔ signed s (g m) < signed t (g n) := by
  have hm := reading_nonneg hg hzero m
  have hn := reading_nonneg hg hzero n
  cases s <;> cases t <;> simp only [less, signed_false, signed_true, decide_eq_true_eq]
  · rw [hg.lt_iff_lt, Fin.val_fin_lt]
  · exact iff_of_false nofun (by linarith)
  · -- A negative double is below a nonnegative one, unless both are zeros.
    rw [Bool.not_eq_true', Bool.and_eq_false_iff, beq_eq_false_iff_ne, beq_eq_false_iff_ne,
      ← not_iff_not, not_or, not_not, not_not, ← reading_eq_zero_iff hg hzero,
      ← reading_eq_zero_iff hg hzero, not_lt]
    constructor
    · rintro ⟨hm, hn⟩
      rw [hm, hn, neg_zero]
    · intro h
      constructor <;> linarith
  · rw [neg_lt_neg_iff, hg.lt_iff_lt, Fin.val_fin_lt]

/-- Doubles are equal if their readings with signs are. -/
theorem equal_finite_iff_signed (s t : Bool) (m n : Fin finiteRanks) :
    (finite s m).equal (finite t n) = true ↔ signed s (g m) = signed t (g n) := by
  have hm := reading_nonneg hg hzero m
  have hn := reading_nonneg hg hzero n
  rw [equal_finite_iff, ← reading_eq_zero_iff hg hzero, ← Fin.val_inj, ← hg.injective.eq_iff]
  by_cases hst : t = s
  · subst hst
    cases t <;> simp
  · rw [signed_of_ne hst]
    constructor
    · rintro ⟨hmn, rfl | hz⟩
      · exact absurd rfl hst
      · rw [← hmn, hz, signed_zero, neg_zero]
    · intro h
      have habs := congrArg (|·|) h
      simp only [abs_neg, abs_signed, abs_of_nonneg hm, abs_of_nonneg hn] at habs
      refine ⟨habs, .inr ?_⟩
      rw [habs, self_eq_neg, signed_eq_zero_iff] at h
      rw [habs, h]

end Readings

/-- Finite doubles are ordered as the rationals that they are encoded as. -/
theorem less_iff_of_decimalValue? (hx : x.decimalValue? = some p) (hy : y.decimalValue? = some q) :
    x.less y = true ↔ p < q := by
  cases x <;> cases y <;> cases hx <;> cases hy
  exact less_finite_iff_signed shortest_strictMono toRat_shortest_zero _ _ _ _

/-- Finite doubles are equal if they are encoded as the same rational. -/
theorem equal_iff_of_decimalValue? (hx : x.decimalValue? = some p) (hy : y.decimalValue? = some q) :
    x.equal y = true ↔ p = q := by
  cases x <;> cases y <;> cases hx <;> cases hy
  exact equal_finite_iff_signed shortest_strictMono toRat_shortest_zero _ _ _ _

/-- A double with a rational value is a finite one. -/
theorem exists_finite_of_toRat? (h : x.toRat? = some q) :
    ∃ s r, x = finite s r ∧ q = signed s (magnitude r) := by
  cases x with
  | nan => cases h
  | infinity => cases h
  | finite s r =>
    rw [toRat?_signed] at h
    exact ⟨s, r, rfl, (Option.some.inj h).symm⟩

/-- Doubles are in the order of their values. -/
theorem less_iff_of_toRat? (hx : x.toRat? = some p) (hy : y.toRat? = some q) :
    x.less y = true ↔ p < q := by
  obtain ⟨s, m, rfl, rfl⟩ := exists_finite_of_toRat? hx
  obtain ⟨t, n, rfl, rfl⟩ := exists_finite_of_toRat? hy
  exact less_finite_iff_signed magnitude_strictMono magnitude_zero s t m n

/-- Doubles compare as equal if their values are. -/
theorem equal_iff_of_toRat? (hx : x.toRat? = some p) (hy : y.toRat? = some q) :
    x.equal y = true ↔ p = q := by
  obtain ⟨s, m, rfl, rfl⟩ := exists_finite_of_toRat? hx
  obtain ⟨t, n, rfl, rfl⟩ := exists_finite_of_toRat? hy
  exact equal_finite_iff_signed magnitude_strictMono magnitude_zero s t m n

/-- The rational that a double is encoded as rounds to that double, and to no other. -/
theorem isNearest_decimalValue?_iff (hx : x.decimalValue? = some q) (y : Binary64) :
    y.IsNearest q ↔ y.equal x = true := by
  have hnear : x.IsNearest q := by
    cases x with
    | nan => cases hx
    | infinity => cases hx
    | finite s r =>
      cases hx
      have h := (roundsAt_shortest r).isNearest s
      rwa [ofRank, dif_pos r.isLt] at h
  exact ⟨fun h => h.equal hnear, fun h => hnear.of_equal (equal_symm h)⟩

end Binary64

namespace Exp

/-- Finite doubles are encoded in order: `u` and `v`, of the exact values `a` and `b`, become
rationals that are ordered as the doubles are, and as their exact values are. What is zero becomes
zero, whatever its sign, and each rational rounds to its double. -/
theorem encode_float_order (ds : Definitions) {u v : Binary64} {a b : Rat}
    (hu : u.toRat? = some a) (hv : v.toRat? = some b) :
    ∃ p q : Rat, (float u).encode ds = .ok (.real p) ∧ (float v).encode ds = .ok (.real q) ∧
      (p < q ↔ u.less v = true) ∧ (p < q ↔ a < b) ∧
      (p = q ↔ u.equal v = true) ∧ (p = q ↔ a = b) ∧ (p = 0 ↔ a = 0) ∧
      (∀ x : Binary64, x.IsNearest p ↔ x.equal u = true) ∧
      ∀ x : Binary64, x.IsNearest q ↔ x.equal v = true := by
  have hencode {x : Binary64} {c : Rat} (h : x.toRat? = some c) :
      ∃ r, x.decimalValue? = some r ∧ (float x).encode ds = .ok (.real r) ∧ (r = 0 ↔ c = 0) := by
    obtain ⟨s, n, rfl, rfl⟩ := Binary64.exists_finite_of_toRat? h
    have hvalue := Binary64.decimalValue?_finite s n
    refine ⟨_, hvalue, by rw [encode, hvalue], ?_⟩
    rw [signed_eq_zero_iff, signed_eq_zero_iff,
      Binary64.reading_eq_zero_iff Binary64.shortest_strictMono Binary64.toRat_shortest_zero,
      Binary64.reading_eq_zero_iff Binary64.magnitude_strictMono Binary64.magnitude_zero]
  obtain ⟨p, hp, hup, hzero⟩ := hencode hu
  obtain ⟨q, hq, hvq, -⟩ := hencode hv
  have hless := Binary64.less_iff_of_decimalValue? hp hq
  have hequal := Binary64.equal_iff_of_decimalValue? hp hq
  exact ⟨p, q, hup, hvq, hless.symm, hless.symm.trans (Binary64.less_iff_of_toRat? hu hv),
    hequal.symm, hequal.symm.trans (Binary64.equal_iff_of_toRat? hu hv), hzero,
    Binary64.isNearest_decimalValue?_iff hp, Binary64.isNearest_decimalValue?_iff hq⟩

/-- The negative zero becomes zero, and the least positive double something greater, which rounds to
it. -/
theorem encode_negativeZero_lt_encode_least : ∃ p q : Rat,
    (float (.finite true ⟨0, by decide⟩)).encode .empty = .ok (.real p) ∧
      (float (.finite false ⟨1, by decide⟩)).encode .empty = .ok (.real q) ∧
      p = 0 ∧ p < q ∧ Binary64.IsNearest (.finite false ⟨1, by decide⟩) q := by
  obtain ⟨p, q, hp, hq, hless, -, -, -, hzero, -, hnear⟩ :=
    encode_float_order .empty (Binary64.toRat?_signed true ⟨0, by decide⟩)
      (Binary64.toRat?_signed false ⟨1, by decide⟩)
  have hpzero : p = 0 := hzero.2 (by rw [signed_eq_zero_iff, Binary64.magnitude_zero])
  exact ⟨p, q, hp, hq, hpzero, hless.2 rfl, (hnear _).2 (Binary64.equal_self_iff.2 nofun)⟩

end Exp

end Discharge
