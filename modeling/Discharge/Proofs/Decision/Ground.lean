import Mathlib.Tactic.Linarith
import Discharge.Proofs.Decision.Constant

/-!
# The search on comparisons of numbers

A comparison of terms that are made of written numbers is true or false whatever is assumed, and the
search finds out which: it ends at once with a refutation of the negation, or with the model that says
nothing (`Term.Signs.decide`). The same is said of a comparison's negations.
-/

namespace Discharge

/-! ## Terms made of written numbers -/

namespace Polynomial

/-- The sum of two numbers is a number. -/
theorem const_add_const (p q : Rat) : add (const p) (const q) = const (p + q) := by
  unfold const
  split
  · next hp => rw [hp, zero_add, add]
  · next hp =>
    split
    · next hq => rw [hq, add_zero, if_neg hp, add, add, addMonomial, if_neg hp]
    · next hq =>
      rw [add, add, addMonomial, if_pos (by rfl)]

/-- A multiple of a number is a number. -/
theorem scale_const (c q : Rat) : scale c (const q) = const (c * q) := by
  unfold scale const
  by_cases hc : c = 0
  · rw [if_pos hc, if_pos (by rw [hc, zero_mul])]
  · by_cases hq : q = 0
    · rw [if_neg hc, if_pos hq, if_pos (by rw [hq, mul_zero]), List.map_nil]
    · rw [if_neg hc, if_neg hq, if_neg (mul_ne_zero hc hq), List.map_cons, List.map_nil]

/-- The negative of a number is a number. -/
theorem neg_const (q : Rat) : neg (const q) = const (-q) := by
  rw [neg, scale_const, neg_one_mul]

/-- The difference of two numbers is a number. -/
theorem const_sub_const (p q : Rat) : sub (const p) (const q) = const (p - q) := by
  rw [sub, neg_const, const_add_const, sub_eq_add_neg]

/-- The product of two numbers is a number. -/
theorem const_mul_const (p q : Rat) : mul (const p) (const q) = const (p * q) := by
  unfold const
  by_cases hp : p = 0
  · rw [if_pos hp, if_pos (show p * q = 0 by rw [hp, zero_mul]), mul]
  · by_cases hq : q = 0
    · rw [if_neg hp, if_pos hq, if_pos (by rw [hq, mul_zero]), mul, mul, mulMonomial, add]
    · rw [if_neg hp, if_neg hq, if_neg (mul_ne_zero hp hq), mul, mul, mulMonomial, mulMonomial,
        List.nil_append, addMonomial, if_neg (mul_ne_zero hp hq), add, add, addMonomial,
        if_neg (mul_ne_zero hp hq)]

/-- The value of a number as a polynomial is that number. -/
theorem constant?_const (q : Rat) : (const q).constant? = some q := by
  unfold const
  split
  · next h => rw [h, constant?]
  · rfl

end Polynomial

namespace Term

/-- `Ground t q`: the term is made of written numbers by addition, subtraction, multiplication and
negation, and has the value `q`. -/
inductive Ground : Term → Rat → Prop
  | int (n : Int) : Ground (.int n) n
  | real (q : Rat) : Ground (.real q) q
  | neg (ha : Ground a p) : Ground (.neg a) (-p)
  | toReal (ha : Ground a p) : Ground (.toReal a) p
  | add (ha : Ground a p) (hb : Ground b q) : Ground (.app .add a b) (p + q)
  | sub (ha : Ground a p) (hb : Ground b q) : Ground (.app .sub a b) (p - q)
  | mul (ha : Ground a p) (hb : Ground b q) : Ground (.app .mul a b) (p * q)

/-- Whether a term is a division, or the remainder of one. -/
def IsDivision : Term → Prop
  | .app op _ _ => op = .idiv ∨ op = .mod ∨ op = .rdiv
  | _ => False

namespace Ground

variable {t : Term} {q : Rat}

/-- The polynomial of a term that is made of numbers is its value. -/
theorem polynomial (h : Ground t q) : t.polynomial = .const q := by
  induction h with
  | int n => rfl
  | real q => rfl
  | neg _ ih => rw [Term.polynomial, ih, Polynomial.neg_const]
  | toReal _ ih => rw [Term.polynomial, ih]
  | add _ _ iha ihb => rw [Term.polynomial, iha, ihb, Polynomial.const_add_const]
  | sub _ _ iha ihb => rw [Term.polynomial, iha, ihb, Polynomial.const_sub_const]
  | mul _ _ iha ihb => rw [Term.polynomial, iha, ihb, Polynomial.const_mul_const]

/-- Every candidate gives the term its value. -/
theorem value (h : Ground t q) (c : Candidate) (truths : Term → Option Bool) (bound : List Int) :
    c.value truths bound t = some (.number q) := by
  induction h with
  | int n => rfl
  | real q => rfl
  | neg _ ih => rw [Candidate.value, ih]; rfl
  | toReal _ ih => rw [Candidate.value, ih]
  | add _ _ iha ihb => rw [Candidate.value, iha, ihb]; rfl
  | sub _ _ iha ihb => rw [Candidate.value, iha, ihb, sub_eq_add_neg]; rfl
  | mul _ _ iha ihb => rw [Candidate.value, iha, ihb]; rfl

/-- A term that is made of numbers has no constants. -/
theorem constants (h : Ground t q) : t.constants = [] := by
  induction h with
  | int | real => rfl
  | neg _ ih | toReal _ ih => exact ih
  | add _ _ iha ihb | sub _ _ iha ihb | mul _ _ iha ihb => rw [Term.constants, iha, ihb]; rfl

/-- A term that is made of numbers divides nothing. -/
theorem dividesBound (h : Ground t q) : t.dividesBound = false := by
  induction h with
  | int | real | neg | toReal => rfl
  | add _ _ iha ihb | sub _ _ iha ihb | mul _ _ iha ihb => rw [Term.dividesBound, iha, ihb]; rfl

/-- No part of a term that is made of numbers is a division. -/
theorem not_isDivision_of_mem_parts (h : Ground t q) : ∀ u ∈ t.parts, ¬ u.IsDivision := by
  induction h with
  | int | real => simp [parts, IsDivision]
  | neg _ ih | toReal _ ih => simpa [parts, IsDivision] using ih
  | add _ _ iha ihb | sub _ _ iha ihb | mul _ _ iha ihb =>
    intro u hu
    simp only [parts, List.mem_cons, List.mem_append] at hu
    rcases hu with rfl | hu | hu
    · simp [IsDivision]
    · exact iha u hu
    · exact ihb u hu

end Ground

/-! ## Comparisons and their negations -/

/-- `Compares t w`: the term compares two terms that are made of numbers, and `w` tells whether the
comparison holds. -/
structure Compares (t : Term) (w : Bool) : Prop where
  exists_sides : ∃ op a b p q, t = .app op a b ∧ Ground a p ∧ Ground b q ∧
    compareZero? op (p - q) = some w
  formula : t.isFormula = true

/-- `Signs t f b`: the formula `f` is `t` with negations in front, and `b` tells whether it says that
`t` holds. -/
inductive Signs (t : Term) : Term → Bool → Prop
  | self : Signs t t true
  | not (h : Signs t f b) : Signs t (.not f) (!b)

variable {t f : Term} {w b : Bool}

/-- The operators by which a number can be compared with zero. -/
theorem compareZero?_ne_none {op : TermOp} {d : Rat} (h : compareZero? op d = some w) :
    op = .eq ∨ op = .lt ∨ op = .le ∨ op = .gt ∨ op = .ge := by
  cases op <;> simp_all [compareZero?]

/-- The sign of a number compares with zero as the number does. -/
theorem compareZero?_sign (op : TermOp) (r : Root) (d : Rat) :
    compareZero? op (Datum.sign r (.number d)) = compareZero? op d := by
  rw [Datum.sign]
  rcases lt_trichotomy d 0 with hd | rfl | hd
  · have hnot := not_lt.2 hd.le
    cases op <;> simp [compareZero?, hd, hnot, hd.le, hd.ne, not_le.2 hd]
  · cases op <;> rfl
  · have hnot := not_lt.2 hd.le
    cases op <;> simp [compareZero?, hd, hnot, hd.le, hd.ne', not_le.2 hd]

/-- Terms that are made of numbers are of an arithmetic sort. -/
theorem Ground.isArithmetic {a : Term} {p : Rat} (h : Ground a p) : a.sortOf.isArithmetic = true := by
  induction h with
  | int | real | toReal => rfl
  | neg _ ih => exact ih
  | add _ _ ih | sub _ _ ih | mul _ _ ih => exact ih

namespace Compares

/-- The truth of a comparison of numbers is plain. -/
theorem plainTruth (h : Compares t w) : t.plainTruth = some w := by
  obtain ⟨op, a, b, p, q, rfl, ha, hb, hw⟩ := h.exists_sides
  rw [Term.plainTruth]
  split
  · next hsame =>
    rw [Bool.and_eq_true, decide_eq_true_eq, decide_eq_true_eq] at hsame
    obtain ⟨rfl, rfl⟩ := hsame
    have hpq : p = q := by
      have := ha.polynomial.symm.trans hb.polynomial
      have := congrArg Polynomial.constant? this
      rwa [Polynomial.constant?_const, Polynomial.constant?_const, Option.some.injEq] at this
    rw [hpq, sub_self] at hw
    rw [← hw]
    rfl
  · rw [if_pos ha.isArithmetic, ha.polynomial, hb.polynomial, Polynomial.const_sub_const,
      Polynomial.constant?_const]
    exact hw

/-- A comparison of numbers is numbered as an atomic formula. -/
theorem add (h : Compares t w) (fs : Formulas) : fs.add t = fs.addAtom t := by
  obtain ⟨op, a, b, p, q, rfl, ha, hb, hw⟩ := h.exists_sides
  have hsort : a.sortOf ≠ .bool := fun hs => nomatch hs ▸ ha.isArithmetic
  rcases compareZero?_ne_none hw with rfl | rfl | rfl | rfl | rfl
  · rw [Formulas.add, if_neg hsort]
  all_goals rfl

/-- A comparison of numbers has its truth under any assumptions. -/
theorem truth (h : Compares t w) (assumed : Assumptions) : t.truth assumed = some w := by
  have hplain := h.plainTruth
  obtain ⟨op, a, b, p, q, rfl, ha, hb, hw⟩ := h.exists_sides
  have hsort : a.sortOf ≠ .bool := fun hs => nomatch hs ▸ ha.isArithmetic
  rcases compareZero?_ne_none hw with rfl | rfl | rfl | rfl | rfl
  · rw [Term.truth, if_neg hsort, atomTruth, hplain]
  all_goals rw [Term.truth, atomTruth, hplain] <;> nofun

/-- A comparison of numbers has its truth by what it is made of. -/
theorem partsTruth (h : Compares t w) (assumed : Assumptions) : t.partsTruth assumed = some w := by
  have hplain := h.plainTruth
  obtain ⟨op, a, b, p, q, rfl, ha, hb, hw⟩ := h.exists_sides
  have hsort : a.sortOf ≠ .bool := fun hs => nomatch hs ▸ ha.isArithmetic
  rcases compareZero?_ne_none hw with rfl | rfl | rfl | rfl | rfl
  · rw [Term.partsTruth, if_neg hsort, hplain]
  all_goals rw [Term.partsTruth, hplain] <;> nofun

/-- The opposite of a comparison of numbers is its negation. -/
theorem opposite (h : Compares t w) : t.opposite = .not t := by
  obtain ⟨op, a, b, p, q, rfl, -⟩ := h.exists_sides
  rfl

/-- A comparison of numbers has its truth in every candidate. -/
theorem value (h : Compares t w) (c : Candidate) (truths : Term → Option Bool) :
    c.value truths [] t = some (.truth w) := by
  obtain ⟨op, a, b, p, q, rfl, ha, hb, hw⟩ := h.exists_sides
  rw [Candidate.value, ha.value, hb.value]
  rcases compareZero?_ne_none hw with rfl | hop
  · obtain rfl := Option.some.inj hw
    simp only [Candidate.apply, Value.number, Value.same, Datum.same, sub_eq_zero]
    rfl
  · have hcompare : (compareZero? op (Datum.compare c.rootValue (.number p) (.number q))) = some w := by
      rw [Datum.compare, Datum.neg, Datum.add, ← sub_eq_add_neg, compareZero?_sign, hw]
    rcases hop with rfl | rfl | rfl | rfl
    all_goals
      simp only [Candidate.apply, Value.number, Candidate.arithmetic, hcompare]
      rfl

/-- A comparison of numbers has no constants. -/
theorem constants (h : Compares t w) : t.constants = [] := by
  obtain ⟨op, a, b, p, q, rfl, ha, hb, -⟩ := h.exists_sides
  rw [Term.constants, ha.constants, hb.constants, List.append_nil]

/-- A comparison of numbers divides nothing. -/
theorem dividesBound (h : Compares t w) : t.dividesBound = false := by
  obtain ⟨op, a, b, p, q, rfl, ha, hb, -⟩ := h.exists_sides
  rw [Term.dividesBound, ha.dividesBound, hb.dividesBound, Bool.or_false]

/-- No part of a comparison of numbers is a division. -/
theorem not_isDivision_of_mem_parts (h : Compares t w) : ∀ u ∈ t.parts, ¬ u.IsDivision := by
  obtain ⟨op, a, b, p, q, rfl, ha, hb, hw⟩ := h.exists_sides
  intro u hu
  rw [parts, List.mem_cons, List.mem_append] at hu
  rcases hu with rfl | hu | hu
  · rcases compareZero?_ne_none hw with rfl | rfl | rfl | rfl | rfl <;> simp [IsDivision]
  · exact ha.not_isDivision_of_mem_parts u hu
  · exact hb.not_isDivision_of_mem_parts u hu

end Compares

namespace Signs

/-- Negations in front of a comparison of numbers turn its truth over, under any assumptions. -/
theorem truth (h : Signs t f b) (ht : Compares t w) (assumed : Assumptions) :
    f.truth assumed = some (b == w) := by
  induction h with
  | self => rw [ht.truth, Bool.true_beq]
  | @not _ b _ ih =>
    rw [Term.truth, ih]
    cases b <;> cases w <;> rfl

/-- Negations in front of a comparison of numbers turn its truth over, by what it is made of. -/
theorem partsTruth (h : Signs t f b) (ht : Compares t w) (assumed : Assumptions) :
    f.partsTruth assumed = some (b == w) := by
  cases h with
  | self => rw [ht.partsTruth, Bool.true_beq]
  | not h =>
    cases h with
    | self =>
      obtain ⟨op, a, b, p, q, rfl, -⟩ := ht.exists_sides
      rw [Term.partsTruth, ht.partsTruth]
      · cases w <;> rfl
      · nofun
    | not h => rw [Term.partsTruth, h.truth ht, Bool.not_not]

/-- A comparison of numbers with negations in front is one formula with one literal. -/
theorem add (h : Signs t f b) (ht : Compares t w) :
    Formulas.empty.add f = (⟨#[t], #[.plain w], Std.HashMap.insert ∅ t 0⟩, Lit.of 0 b) := by
  induction h with
  | self =>
    rw [ht.add, Formulas.addAtom, ht.plainTruth]
    simp [Formulas.empty, Formulas.push, Formulas.size]
  | @not _ b _ ih =>
    rw [Formulas.add, ih]
    cases b <;> rfl

/-- Negations in front of a comparison of numbers turn its truth over in every candidate. -/
theorem value (h : Signs t f b) (ht : Compares t w) (c : Candidate)
    (truths : Term → Option Bool) : c.value truths [] f = some (.truth (b == w)) := by
  induction h with
  | self => rw [ht.value, Bool.true_beq]
  | @not _ b _ ih =>
    rw [Candidate.value, ih]
    cases b <;> cases w <;> rfl

/-- Negations add no constants to a comparison of numbers. -/
theorem constants (h : Signs t f b) (ht : Compares t w) : f.constants = [] := by
  induction h with
  | self => exact ht.constants
  | not _ ih => exact ih

/-- Negations add no divisions by bound numbers to a comparison of numbers. -/
theorem dividesBound (h : Signs t f b) (ht : Compares t w) : f.dividesBound = false := by
  induction h with
  | self => exact ht.dividesBound
  | not _ ih => exact ih

/-- No part of a comparison of numbers with negations in front is a division. -/
theorem not_isDivision_of_mem_parts (h : Signs t f b) (ht : Compares t w) :
    ∀ u ∈ f.parts, ¬ u.IsDivision := by
  induction h with
  | self => exact ht.not_isDivision_of_mem_parts
  | not _ ih =>
    intro u hu
    rw [parts, List.mem_cons] at hu
    rcases hu with rfl | hu
    · exact id
    · exact ih u hu

end Signs

end Term

/-- A candidate says all there is to say of terms without divisions. -/
theorem Candidate.complete_of_forall {c : Candidate} {ts : List Term}
    (h : ∀ u ∈ ts, ¬ u.IsDivision) : c.complete ts = c := by
  unfold complete
  induction ts with
  | nil => rfl
  | cons u ts ih =>
    obtain ⟨hu, hts⟩ := List.forall_mem_cons.1 h
    rw [List.foldl_cons]
    refine Eq.trans ?_ (ih hts)
    congr 1
    cases u with
    | app op a b =>
      obtain ⟨hidiv, hmod, hrdiv⟩ : op ≠ .idiv ∧ op ≠ .mod ∧ op ≠ .rdiv := by
        simpa [Term.IsDivision] using hu
      dsimp only
      split
      · cases op <;> first | rfl | contradiction
      · rfl
    | _ => rfl

/-! ## The state in which such a formula is assumed -/

/-- A clause of one open literal derives it. -/
theorem Trail.addClause_single {t : Trail} {l : Lit} (h : t.isOpen l = true) (d : Derivation)
    (uses : List Nat) :
    t.addClause ⟨#[l], d, uses⟩ = (t.push l (some ⟨#[l], d, uses⟩), none) := by
  have hopen : t.isFalse l = false := by
    unfold isOpen at h
    rw [isFalse, Option.isNone_iff_eq_none.1 h]
    rfl
  have hplace : t.bestPlace #[l] 0 = 0 := by
    simp [bestPlace, List.range, List.range.loop]
  have hswap : (#[l] : Array Lit).swapIfInBounds 0 0 = #[l] := rfl
  simp [addClause, hplace, hswap, hopen, h]

namespace State

open Term

variable (t f : Term) (w b : Bool) (fresh : Nat)

/-- The clause that a comparison has its truth value. -/
def plainClause : Clause := ⟨#[Lit.of 0 w], .clash (if w then .not t else t), []⟩

/-- The state in which a negation or a comparison of numbers is assumed. -/
def supposing : State where
  formulas := ⟨#[t], #[.plain w], Std.HashMap.insert ∅ t 0⟩
  trail :=
    { Trail.empty.grow 1 with
      values := #[some w]
      reasons := #[some (plainClause t w)]
      literals := #[Lit.of 0 w] }
  limitations := #[none]
  permanent := #[plainClause t w, ⟨#[Lit.of 0 b], .clash f, []⟩]
  pins := #[⟨f, Lit.of 0 b, 0⟩]
  pinned := Std.HashSet.insert ∅ f
  fresh := fresh

/-- What is noted of the comparison when the formula is added. -/
theorem addFormula_of_signs (h : Signs t f b) (ht : Compares t w) :
    ({ fresh := fresh } : State).addFormula f =
      ({ supposing t f w b fresh with
          permanent := #[plainClause t w], pins := #[], pinned := ∅ }, Lit.of 0 b) := by
  have hadd := h.add ht
  have hdups (l : Lit) : [l].eraseDups = [l] := rfl
  simp only [addFormula, hadd]
  cases w <;>
  simp [Formulas.empty, register, Formulas.shape, Formulas.size, Formulas.term, gateClauses, addClause,
    hdups, Trail.addClause_single, Trail.isOpen, Trail.push, Trail.value, Lit.formula, Lit.of,
    Lit.opposite, Lit.value, Trail.derivedLevel, Trail.levelOf, Trail.empty, Trail.grow, supposing,
    plainClause]

/-- What is assumed is a conflict if it is false. -/
theorem assuming_of_signs (h : Signs t f b) (ht : Compares t w) :
    assuming [] fresh [f] =
      (supposing t f w b fresh, if b = w then none else some ⟨#[Lit.of 0 b], .clash f, []⟩) := by
  have hadd := addFormula_of_signs t f w b fresh h ht
  simp only [assuming, List.foldl, require, hadd]
  cases w <;> cases b <;>
  simp [supposing, pin, Trail.isOpen, Trail.isFalse, Trail.value, Lit.formula, Lit.of, Lit.value, level,
    Trail.level, Trail.empty, Trail.grow]

/-- That state when the truth value of the comparison has become a fact. -/
def settledSupposing : State :=
  { supposing t f w b fresh with
    trail := { (supposing t f w b fresh).trail with units := #[some 0] }
    facts := #[⟨.clause [Lit.of 0 w] (plainClause t w).derivation, []⟩]
    permanent := (supposing t f w b fresh).permanent.push ⟨#[Lit.of 0 w], .clause [Lit.of 0 w], [0]⟩
    settled := 1 }

/-- Settling the first state makes the truth of its comparison a fact. -/
theorem settleLiterals_supposing :
    (supposing t f w b fresh).settleLiterals = settledSupposing t f w b fresh := by
  cases w <;>
  simp [settleLiterals, supposing, settledSupposing, plainClause, settleLiteral, Trail.empty,
    Trail.grow, Lit.formula, Lit.of, Lit.value, term, Formulas.literalTerm, Formulas.term, addFact,
    distinct, unitFacts, List.range, List.range.loop, List.eraseReps, List.eraseRepsBy]

/-- A false assumption is refuted. -/
theorem resolve_supposing : (supposing t f w b fresh).resolve ⟨#[Lit.of 0 b], .clash f, []⟩ =
    .refuted (settledSupposing t f w b fresh) (.clash f) [0] := by
  have hunits : (settledSupposing t f w b fresh).unitFacts #[Lit.of 0 b] = [0] := by cases b <;> rfl
  have hlevel : (settledSupposing t f w b fresh).trail.latestLevel #[Lit.of 0 b] = 0 := by
    cases b <;> rfl
  exact resolve_of_fact (settleLiterals_supposing t f w b fresh) hunits hlevel _

/-- The refutation of a formula that is false: the comparison has its truth value, and the formula is its
opposite. -/
def plainRefutation : Refutation :=
  .cut [if w then t else .not t] (.clash (if w then .not t else t)) (.clash f)

/-- A formula that its comparison makes false is refuted by the fact of that comparison's truth. -/
theorem refutation?_supposing :
    Derivation.refutation? (settledSupposing t f w b fresh).formulas
      (settledSupposing t f w b fresh).facts (.clash f) [0] = some (plainRefutation t f w) := by
  cases w <;> rfl

end State

/-- What the search says when a false formula is assumed. -/
theorem explore_of_false {t f : Term} {w : Bool} (h : t.Signs f !w) (ht : t.Compares w)
    (nested : Nat → State × Option Clause → Outcome × Nat) (fresh budget : Nat) :
    explore nested (budget + 1) (State.assuming [] fresh [f]) =
      (.refuted (State.plainRefutation t f w), budget) := by
  rw [State.assuming_of_signs t f w (!w) fresh h ht, if_neg (by cases w <;> nofun), explore]
  simp only [Option.map_some, State.resolve_supposing, State.refutation?_supposing]

/-- What the search says then is a refutation. -/
theorem check_plainRefutation {t f : Term} {w : Bool} (h : t.Signs f !w) (ht : t.Compares w) :
    (State.plainRefutation t f w).check (.ofList [f]) = true := by
  have hparts := h.partsTruth ht
  have hopposite := ht.opposite
  have hformula := ht.formula
  have hnot : (Term.not t).isFormula = true := by
    have hcheck := ht.formula
    simp only [Term.isFormula, beq_iff_eq] at hcheck
    simp [Term.isFormula, Term.check?, hcheck]
  have htruth := ht.partsTruth
  have hnotTruth := (Term.Signs.self (t := t)).not.partsTruth ht
  have hnotOpposite : (Term.not t).opposite = t := rfl
  cases w <;>
  simp [State.plainRefutation, Refutation.check, hformula, hnot, Assumptions.contains_insertAll,
    Assumptions.contains_insert, Assumptions.contains_ofList, Term.disjunction, hopposite, hparts,
    hnotOpposite, htruth, hnotTruth]

/-! ## What the theories do about a true formula -/

namespace State

open Term

variable (t f : Term) (w : Bool) (fresh : Nat)

/-- That state when nothing more follows. -/
def calm : State :=
  { settledSupposing t f w w fresh with
    trail := { (settledSupposing t f w w fresh).trail with head := 1 }
    bounded := 1 }

/-- The state of a true formula comes to rest without a conflict. -/
theorem settle_supposing :
    (supposing t f w w fresh).settle 1000 = (calm t f w fresh, .calm) := by
  cases w <;>
  simp [supposing, calm, settledSupposing, plainClause, settle, Trail.propagate, Trail.visit, Trail.empty,
    Trail.grow, settleLiterals, settleLiteral, limitAll, Formulas.size, Lit.opposite, Lit.formula, Lit.of,
    Lit.value, term, Formulas.literalTerm, Formulas.term, addFact, distinct, unitFacts,
    List.range, List.range.loop, solve_empty, List.eraseReps, List.eraseRepsBy]

/-- A walk over the state at rest meets its one formula, and asks for nothing. -/
theorem walk_calm : (calm t f w fresh).walk = ⟨#[true], [], []⟩ := by
  cases w <;>
  simp [walk, calm, settledSupposing, supposing, Formulas.size, walkFormula, Formulas.shape, Lit.formula,
    Lit.of, List.range, List.range.loop, Trail.value]

/-- What the theories look at where a true formula is assumed. -/
def idle : View where
  literals := []
  parts := []
  goals := [f]
  pinned := (supposing t f w w fresh).pinned
  witnesses := []
  known := []
  fresh := fresh
  formulas := (supposing t f w w fresh).formulas
  truths := #[some w]
  unknownNumbers := ∅
  monomialVariables := ∅
  monomials := #[]
  places := ∅
  values := #[]
  rows := []

/-- The theories look at the true formula alone. -/
theorem view_calm : (calm t f w fresh).view ⟨#[true], [], []⟩ = idle t f w fresh := by
  simp [calm, settledSupposing, idle, supposing, view, distinctTerms, Formulas.term,
    Tableau.solution, Trail.value, Std.HashMap.fold_eq_foldl_toList]

variable {t f w}

/-- What the theories look at has no constants. -/
theorem constants_idle (h : Signs t f w) (ht : Compares t w) : (idle t f w fresh).constants = [] := by
  have hf : (idle t f w fresh).goals.flatMap Term.constants = [] := by
    simp [idle, h.constants ht]
  rw [View.constants, hf]
  rfl

/-- Every candidate makes the goals true. -/
theorem satisfies_idle (h : Signs t f w) (ht : Compares t w) (c : Candidate) :
    (idle t f w fresh).satisfies c = true := by
  simp [View.satisfies, idle, h.value ht, Value.truth, Value.truth?]

/-- A candidate without any constants. -/
def idleCandidate (t f : Term) (w : Bool) (fresh : Nat) (d : View.Filling) : Candidate :=
  (idle t f w fresh).candidate (idle t f w fresh).valuation [] d

/-- The model of a candidate without constants restricts nothing. -/
theorem model_idle (d : View.Filling) (root : String) :
    (idleCandidate t f w fresh d).model root false (fun _ => true) = {} := by
  have hzero (g : Valuation) (op : TermOp) : (idle t f w fresh).byZero g op = [] := rfl
  have hknown (g : KnownFunction) : (idle t f w fresh).knownTable? g = none := rfl
  simp only [idleCandidate, View.candidate, hzero, hknown, List.map]
  simp [Candidate.model, View.integersByZero, hzero, Candidate.valueTable]

/-- The first step of the theories offers the candidate without constants. -/
theorem step_idle (h : Signs t f w) (ht : Compares t w) :
    ∃ d, (idle t f w fresh).step = .candidate (idleCandidate t f w fresh d) := by
  have hconstants := constants_idle fresh h ht
  have hstep := View.step_of_forall (v := idle t f w fresh) rfl rfl rfl rfl rfl
  rw [hconstants] at hstep
  refine hstep (fun d => satisfies_idle fresh h ht _) fun d => ?_
  refine Candidate.complete_of_forall fun u hu => h.not_isDivision_of_mem_parts ht u ?_
  simpa [idle] using hu

end State

/-- What the search says when a true formula is assumed: the model that says nothing is one of it. -/
theorem explore_of_true {t f : Term} {w : Bool} (h : t.Signs f w) (ht : t.Compares w)
    (nested : Nat → State × Option Clause → Outcome × Nat) (fresh budget : Nat) :
    explore nested (budget + 1) (State.assuming [] fresh [f]) = (.found {}, budget) := by
  obtain ⟨d, hd⟩ := State.step_idle fresh h ht
  have hdefaults : (State.idle t f w fresh).goals.any Term.dividesBound = false := by
    simp [State.idle, h.dividesBound ht]
  rw [State.assuming_of_signs t f w w fresh h ht, if_pos rfl,
    explore_of_candidate (State.settle_supposing t f w fresh) (State.walk_calm t f w fresh) rfl
      (State.view_calm t f w fresh) hd rfl hdefaults, State.model_idle]

/-! ## Decisions -/

namespace Term.Signs

variable {t f : Term} {w b : Bool}

/-- A false formula fails in the model that says nothing. -/
theorem failsIn (h : t.Signs f !w) (ht : t.Compares w) : f.failsIn {} = true := by
  have hconsistent : Model.isConsistent {} = true := rfl
  have hfacts : Model.facts {} = [] := rfl
  have hstate (fresh : Nat) : State.ofModel {} [f] fresh = State.assuming [] fresh [f] := rfl
  simp only [Term.failsIn, hconsistent, hfacts, hstate, exploreNested_search, explore_of_false h ht,
    check_plainRefutation h ht, Option.all_none, Bool.and_self]

/-- A comparison of numbers is decided, and so is each negation of it: it is valid if it is true, and else
it fails in the model that says nothing. -/
theorem decide (h : t.Signs f b) (ht : t.Compares w) :
    f.decide = if b = w then .valid else .refuted {} := by
  by_cases hbw : b = w
  · subst hbw
    rw [if_pos rfl]
    simp only [Term.decide, exploreNested_search, explore_of_false h.not ht,
      check_plainRefutation h.not ht, if_true]
  · rw [if_neg hbw]
    obtain rfl : b = !w := by cases b <;> cases w <;> simp_all
    have hnot : t.Signs (.not f) w := by simpa using h.not
    have hrestrict : f.restrictModel {} = {} := rfl
    simp only [Term.decide, exploreNested_search, explore_of_true hnot ht, hrestrict, h.failsIn ht, if_true]

end Term.Signs

end Discharge
