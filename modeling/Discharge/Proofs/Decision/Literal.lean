import Mathlib.Tactic.Linarith
import Discharge.Decision.Literal
import Discharge.Proofs.Decision.Polynomial

/-!
# What literals say

A literal that holds makes its constraint hold (`Term.constraint?_holds`), and the truth that
assumptions give to a formula is the one that it has wherever the assumptions hold
(`Term.truth_iff`, `Term.partsTruth_iff`).
-/

namespace Discharge

open Term (Sorted)

noncomputable section

/-- What a relation says of a number. -/
def Relation.Holds : Relation → ℝ → Prop
  | .positive, v => 0 < v
  | .nonneg, v => 0 ≤ v
  | .zero, v => v = 0

/-- The number that a closed arithmetic term is. -/
def Term.number (I : Interpretation) (t : Term) : ℝ := (t.denote I []).number

/-- What a constraint says. -/
def Constraint.Holds (I : Interpretation) (c : Constraint) : Prop :=
  c.relation.Holds (c.poly.value (Term.number I))

/-- What a comparison says of two numbers. -/
def TermOp.Relates : TermOp → ℝ → ℝ → Prop
  | .eq, u, v => u = v
  | .lt, u, v => u < v
  | .le, u, v => u ≤ v
  | .gt, u, v => u > v
  | .ge, u, v => u ≥ v
  | _, _, _ => False

/-- That all formulas of a collection hold. -/
def Assumptions.Hold (I : Interpretation) (a : Assumptions) : Prop := ∀ f ∈ a.formulas, f.Holds I

/-- The formulas of a collection are closed and well sorted. -/
def Assumptions.WellSorted (a : Assumptions) : Prop := ∀ f ∈ a.formulas, Sorted 0 f .bool

namespace Term

variable {I : Interpretation} {a b t : Term} {op : TermOp}

/-! ## Formulas -/

@[simp] theorem holds_bool {p : Bool} : (Term.bool p).Holds I ↔ p = true := .rfl

@[simp] theorem holds_not : (Term.not a).Holds I ↔ ¬ a.Holds I := .rfl

@[simp] theorem holds_and : (Term.app .and a b).Holds I ↔ a.Holds I ∧ b.Holds I := .rfl

@[simp] theorem holds_or : (Term.app .or a b).Holds I ↔ a.Holds I ∨ b.Holds I := .rfl

@[simp] theorem holds_implies : (Term.app .implies a b).Holds I ↔ (a.Holds I → b.Holds I) := .rfl

@[simp] theorem number_int {n : Int} : (Term.int n).number I = n := rfl

@[simp] theorem number_real {q : Rat} : (Term.real q).number I = q := rfl

/-- A comparison holds if the numbers compare so. -/
theorem holds_le : (Term.app .le a b).Holds I ↔ a.number I ≤ b.number I := .rfl

/-- A strict comparison holds if the numbers compare so. -/
theorem holds_lt : (Term.app .lt a b).Holds I ↔ a.number I < b.number I := .rfl

/-- An equality holds if both sides denote the same. -/
theorem holds_eq : (Term.app .eq a b).Holds I ↔ a.denote I [] = b.denote I [] := .rfl

/-- Formulas are equal if they are equivalent. -/
theorem Sorted.holds_eq_bool (ha : Sorted 0 a .bool) (hb : Sorted 0 b .bool) :
    (Term.app .eq a b).Holds I ↔ (a.Holds I ↔ b.Holds I) :=
  Meaning.truth_inj (ha.sort_denote I []) (hb.sort_denote I [])

/-- A comparison of numbers, or their equality. -/
theorem Sorted.holds_relation (h : Sorted 0 (.app op a b) .bool)
    (har : a.sortOf.isArithmetic = true) :
    (Term.app op a b).Holds I ↔ op.Relates (a.number I) (b.number I) := by
  obtain ⟨ho, ha, hb⟩ := h.of_arithmetic har
  rcases ho with rfl | ho
  · have hab : (a.denote I []).sort = (b.denote I []).sort := by
      rw [ha.sort_denote, hb.sort_denote]
    exact (Meaning.number_inj hab (by rw [ha.sort_denote]; exact har)).symm
  · cases op <;> first | exact .rfl | cases ho

/-- The polynomial of a number has that number as its value. -/
theorem Sorted.polynomial_eq {s : TermSort} (h : Sorted 0 t s) (hs : s.isArithmetic = true) :
    t.polynomial.value (Term.number I) = t.number I :=
  h.value_polynomial hs I []

/-- The number that an integer term is. -/
theorem Sorted.exists_number_eq (h : Sorted 0 t .int) : ∃ n : Int, t.number I = n := by
  obtain ⟨n, hn⟩ := Meaning.exists_int (h.sort_denote I [])
  exact ⟨n, by rw [Term.number, hn, Meaning.number_int]⟩

end Term

/-! ## Constraints -/

section
variable {I : Interpretation} {a b t : Term} {op : TermOp} {s : TermSort}

/-- The difference of two numbers of one sort; strictly ordered integers are at least one apart. -/
theorem Constraint.less_holds (ha : Sorted 0 a s) (hb : Sorted 0 b s)
    (hs : s.isArithmetic = true) {strict : Bool}
    (h : if strict then a.number I < b.number I else a.number I ≤ b.number I) :
    (Constraint.less (s = .int) strict a b).Holds I := by
  have hpa := ha.polynomial_eq (I := I) hs
  have hpb := hb.polynomial_eq (I := I) hs
  unfold Constraint.less
  cases strict with
  | false =>
    simp only [Bool.false_eq_true, if_false] at h ⊢
    simp only [Constraint.Holds, Relation.Holds, Polynomial.value_sub, hpa, hpb]
    linarith
  | true =>
    simp only [if_true] at h ⊢
    by_cases hi : s = .int
    · subst hi
      obtain ⟨m, hm⟩ := ha.exists_number_eq (I := I)
      obtain ⟨n, hn⟩ := hb.exists_number_eq (I := I)
      have hmn : m + 1 ≤ n := by rw [hm, hn] at h; exact_mod_cast h
      have hmn' : (m : ℝ) + 1 ≤ n := by exact_mod_cast hmn
      simp only [decide_true, if_true, Constraint.Holds, Relation.Holds, Polynomial.value_sub,
        Polynomial.value_const, hpa, hpb, hm, hn, Rat.cast_one]
      linarith
    · simp only [hi, decide_false, Bool.false_eq_true, if_false, Constraint.Holds, Relation.Holds,
        Polynomial.value_sub, hpa, hpb]
      linarith

/-- A comparison makes its constraint hold, and so does the negation of one. -/
theorem Constraint.ofComparison?_holds (h : Sorted 0 (.app op a b) .bool) {holds : Bool}
    {c : Constraint} (hc : Constraint.ofComparison? op a b holds = some c)
    (ht : (Term.app op a b).Holds I ↔ holds = true) : c.Holds I := by
  unfold Constraint.ofComparison? at hc
  split at hc
  · next har =>
    obtain ⟨-, ha, hb⟩ := h.of_arithmetic har
    rw [h.holds_relation har] at ht
    have hpa := ha.polynomial_eq (I := I) har
    have hpb := hb.polynomial_eq (I := I) har
    cases op with
    | lt | le | gt | ge =>
      cases holds <;> cases hc <;>
        first | refine less_holds ha hb har ?_ | refine less_holds hb ha har ?_
      all_goals simpa [TermOp.Relates] using ht
    | eq =>
      cases holds with
      | false => cases hc
      | true =>
        cases hc
        simp only [TermOp.Relates, iff_true] at ht
        simp only [Constraint.Holds, Relation.Holds, Polynomial.value_sub, hpa, hpb]
        linarith
    | _ => cases hc
  · cases hc

/-- A literal that holds makes its constraint hold. -/
theorem Term.constraint?_holds (h : Sorted 0 t .bool) {c : Constraint}
    (hc : t.constraint? = some c) (ht : t.Holds I) : c.Holds I := by
  unfold Term.constraint? at hc
  split at hc
  · exact Constraint.ofComparison?_holds h hc (by simpa using ht)
  · exact Constraint.ofComparison?_holds h.of_not hc (by simpa using ht)
  · cases hc

/-! ## Truth under assumptions -/

/-- Comparing the difference of two numbers with zero tells how the two compare. -/
theorem Term.compareZero?_eq_some {d : Rat} {p : Bool} {u v : ℝ}
    (h : compareZero? op d = some p) (hd : u - v = d) : op.Relates u v ↔ p = true := by
  have hu : u = d + v := by linarith
  subst hu
  cases op <;> simp only [compareZero?] at h <;> cases h <;> simp [TermOp.Relates]

/-- The truth that needs no assumption. -/
theorem Term.plainTruth_iff (h : Sorted 0 t .bool) {p : Bool} (hp : t.plainTruth = some p) :
    t.Holds I ↔ p = true := by
  unfold Term.plainTruth at hp
  split at hp
  · next op a b =>
    split at hp
    · next he =>
      simp only [Bool.and_eq_true, decide_eq_true_eq] at he
      obtain ⟨rfl, rfl⟩ := he
      cases hp
      simp [Term.holds_eq]
    · split at hp
      · next har =>
        split at hp
        · next d hd =>
          obtain ⟨-, ha, hb⟩ := h.of_arithmetic har
          rw [h.holds_relation har]
          refine Term.compareZero?_eq_some hp ?_
          rw [← ha.polynomial_eq (I := I) har, ← hb.polynomial_eq (I := I) har,
            ← Polynomial.value_sub, Polynomial.value_of_constant? hd]
        · cases hp
      · cases hp
  · cases hp

/-- What is assumed is true, and its negation is false. -/
theorem Assumptions.truth_iff {assumed : Assumptions} (hI : assumed.Hold I) {p : Bool}
    (hp : assumed.truth t = some p) : t.Holds I ↔ p = true := by
  unfold Assumptions.truth at hp
  split at hp
  · next hc => cases hp; exact iff_of_true (hI _ (mem_of_contains hc)) rfl
  · split at hp
    · next hc => cases hp; exact iff_of_false (hI _ (mem_of_contains hc)) nofun
    · cases hp

/-- What partly known truths say of formulas that they are known of. -/
def Term.Decided (I : Interpretation) (t : Term) (v : Option Bool) : Prop :=
  ∀ p, v = some p → (t.Holds I ↔ p = true)

/-- The truth of a negation that is known from its operand is the right one. -/
theorem Term.Decided.not {v : Option Bool} (h : Term.Decided I t v) :
    Term.Decided I (.not t) (v.map (!·)) := by
  intro p hp
  obtain ⟨q, rfl, rfl⟩ := Option.map_eq_some_iff.1 hp
  rw [Term.holds_not, h q rfl]
  simp

/-- The truth of a formula that is known in one of two ways is the right one. -/
theorem Term.Decided.or {v w : Option Bool} (hv : Term.Decided I t v) (hw : Term.Decided I t w) :
    Term.Decided I t (v.or w) := by
  intro p hp
  rcases Option.or_eq_some_iff.1 hp with h | ⟨-, h⟩
  · exact hv p h
  · exact hw p h

/-- The truth of a conjunction that is known from its sides is the right one. -/
theorem Term.Decided.andTruth {v w : Option Bool} (ha : Term.Decided I a v)
    (hb : Term.Decided I b w) : Term.Decided I (.app .and a b) (Term.andTruth v w) := by
  intro p hp
  rw [Term.holds_and]
  unfold Term.andTruth at hp
  split at hp <;> cases hp
  · simp [ha false rfl]
  · simp [hb false rfl]
  · simp [ha true rfl, hb true rfl]

/-- The truth of a disjunction that is known from its sides is the right one. -/
theorem Term.Decided.orTruth {v w : Option Bool} (ha : Term.Decided I a v)
    (hb : Term.Decided I b w) : Term.Decided I (.app .or a b) (Term.orTruth v w) := by
  intro p hp
  rw [Term.holds_or]
  unfold Term.orTruth at hp
  split at hp <;> cases hp
  · simp [ha true rfl]
  · simp [hb true rfl]
  · simp [ha false rfl, hb false rfl]

/-- An implication is the disjunction of the negated premise and the conclusion. -/
theorem Term.Decided.implies {v w : Option Bool} (ha : Term.Decided I a v)
    (hb : Term.Decided I b w) :
    Term.Decided I (.app .implies a b) (Term.orTruth (v.map (!·)) w) := by
  intro p hp
  rw [← ha.not.orTruth hb p hp, Term.holds_implies, Term.holds_or, Term.holds_not]
  tauto

/-- The truth of an equivalence that is known from its sides is the right one. -/
theorem Term.Decided.iffTruth {v w : Option Bool} (hsa : Sorted 0 a .bool) (hsb : Sorted 0 b .bool)
    (ha : Term.Decided I a v) (hb : Term.Decided I b w) :
    Term.Decided I (.app .eq a b) (Term.iffTruth v w) := by
  intro p hp
  rw [hsa.holds_eq_bool hsb]
  unfold Term.iffTruth at hp
  split at hp <;> cases hp
  next x y => rw [ha x rfl, hb y rfl]; cases x <;> cases y <;> simp

/-- The truth of an atomic formula that is known from its polynomial is the right one. -/
theorem Term.Decided.atomTruth {assumed : Assumptions} (hI : assumed.Hold I)
    (h : Sorted 0 t .bool) : Term.Decided I t (t.atomTruth assumed) := by
  intro p hp
  unfold Term.atomTruth at hp
  split at hp
  · next hq => cases hp; exact Term.plainTruth_iff h hq
  · exact Assumptions.truth_iff hI hp

/-- The truth that assumptions give to a formula is its truth wherever they hold. -/
theorem Term.truth_iff {assumed : Assumptions} (hI : assumed.Hold I) (t : Term)
    (h : Sorted 0 t .bool) : Term.Decided I t (t.truth assumed) := by
  have hassumed (u : Term) : Term.Decided I u (assumed.truth u) := fun _ => Assumptions.truth_iff hI
  fun_induction Term.truth assumed t with
  | case1 b => intro p hp; cases hp; exact Term.holds_bool
  | case2 a ih => exact (ih h.of_not).not
  | case3 a b iha ihb =>
    obtain ⟨ha, hb⟩ := h.of_connective rfl
    exact (hassumed _).or ((iha ha).andTruth (ihb hb))
  | case4 a b iha ihb =>
    obtain ⟨ha, hb⟩ := h.of_connective rfl
    exact (hassumed _).or ((iha ha).orTruth (ihb hb))
  | case5 a b iha ihb =>
    obtain ⟨ha, hb⟩ := h.of_connective rfl
    exact (hassumed _).or ((iha ha).implies (ihb hb))
  | case6 a b hs iha ihb =>
    obtain ⟨ha, hb⟩ := h.of_eq
    rw [hs] at ha hb
    exact (hassumed _).or (.iffTruth ha hb (iha ha) (ihb hb))
  | case7 a b hs => exact .atomTruth hI h
  | case8 t => exact .atomTruth hI h

/-- The truth of a formula by that of its parts. -/
theorem Term.partsTruth_iff {assumed : Assumptions} (hI : assumed.Hold I) (t : Term)
    (h : Sorted 0 t .bool) : Term.Decided I t (t.partsTruth assumed) := by
  fun_induction Term.partsTruth assumed t with
  | case1 b => intro p hp; cases hp; exact Term.holds_bool
  | case2 a =>
    intro p hp
    rw [Term.holds_not, Term.holds_not, Classical.not_not]
    exact Term.truth_iff hI a h.of_not.of_not p hp
  | case3 a _ ih => exact (ih h.of_not).not
  | case4 a b =>
    obtain ⟨ha, hb⟩ := h.of_connective rfl
    exact (truth_iff hI a ha).andTruth (truth_iff hI b hb)
  | case5 a b =>
    obtain ⟨ha, hb⟩ := h.of_connective rfl
    exact (truth_iff hI a ha).orTruth (truth_iff hI b hb)
  | case6 a b =>
    obtain ⟨ha, hb⟩ := h.of_connective rfl
    exact (truth_iff hI a ha).implies (truth_iff hI b hb)
  | case7 a b hs =>
    obtain ⟨ha, hb⟩ := h.of_eq
    rw [hs] at ha hb
    exact .iffTruth ha hb (truth_iff hI a ha) (truth_iff hI b hb)
  | case8 a b hs => exact fun p hp => Term.plainTruth_iff h hp
  | case9 t => exact fun p hp => Term.plainTruth_iff h hp

end

end

end Discharge
