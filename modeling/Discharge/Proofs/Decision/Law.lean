import Mathlib.Algebra.Order.Floor.Ring
import Mathlib.Algebra.Order.Archimedean.Real.Basic
import Discharge.Decision.Refutation
import Discharge.Proofs.Decision.Literal
import Discharge.Proofs.Semantics.Substitution

/-!
# Laws hold, and witnesses exist

Every law is true under every interpretation (`Law.formula?_holds`), and for every witness some
value of its new constant makes its formula true (`Witness.exists_holds`). Both speak of instances
of quantifiers, which `Term.holds_instanceOf?` describes.
-/

namespace Discharge

open Term (Sorted)

noncomputable section

/-! ## Instances of quantifiers -/

/-- A closed integer term in place of the outermost bound number gives it the term's value. -/
theorem Term.Sorted.denote_instantiate {t u : Term} {k d : Nat} {s : TermSort} {v : Int}
    {I : Interpretation} (hu : Sorted 0 u .int) (hv : u.denote I [] = .int v) (h : Sorted d t s)
    (hd : d = k + 1) {env : List Int} (he : env.length = k) :
    (Term.instantiate u k t).denote I env = t.denote I (env ++ [v]) := by
  induction h generalizing k env with
  | int | real | bool | const => rfl
  | @bound i d hi =>
    simp only [Term.instantiate, Term.denote]
    split
    · next hik =>
      rw [hu.denote_closed I env, hv, hik, ← he]
      simp
    · next hik => rw [Term.denote, List.getD_append _ _ _ _ (by omega)]
  | neg _ _ ih | not _ ih | toReal _ ih =>
    simp only [Term.instantiate, Term.denote, ih hd he]
  | connective _ _ _ iha ihb | eq _ _ iha ihb | comparison _ _ _ _ iha ihb
  | ring _ _ _ _ iha ihb | integral _ _ _ iha ihb | rdiv _ _ iha ihb | select _ _ iha ihb =>
    simp only [Term.instantiate, Term.denote, iha hd he, ihb hd he]
  | store _ _ _ iha ihi ihv =>
    simp only [Term.instantiate, Term.denote, iha hd he, ihi hd he, ihv hd he]
  | quantified _ ih =>
    simp only [Term.instantiate, Term.denote]
    refine congrArg Meaning.bool (propext (Quantifier.overMany_congr _ _ fun new hn => ?_))
    rw [← List.append_assoc, ih (by omega) (by simp [he, hn, Nat.add_comm])]

/-- What a quantifier says of a value of its first name. -/
def Term.holdsAt (I : Interpretation) (kind : Quantifier) (names : List String) (body : Term)
    (v : Int) : Prop :=
  kind.overMany (names.length - 1) (fun env => (body.denote I env).truth) [v]

/-- A quantifier says of all integers, or of some, what its instances say. -/
theorem Term.holds_quantified {I : Interpretation} {kind : Quantifier} {names : List String}
    {body t f : Term} (hf : instanceOf? t (.quantified kind names body) = some f) :
    (Term.quantified kind names body).Holds I ↔ kind.over (Term.holdsAt I kind names body) := by
  cases names with
  | nil => cases hf
  | cons name names => exact .rfl

/-- The instance of a quantifier says that of the value of the term. -/
theorem Term.holds_instanceOf? {I : Interpretation} {kind : Quantifier} {names : List String}
    {body t f : Term} {v : Int} (hq : Sorted 0 (.quantified kind names body) .bool)
    (ht : Sorted 0 t .int) (hv : t.denote I [] = .int v)
    (hf : instanceOf? t (.quantified kind names body) = some f) :
    f.Holds I ↔ Term.holdsAt I kind names body v := by
  cases hq with
  | quantified hb =>
  match names with
  | [] => cases hf
  | [name] =>
    cases hf
    rw [Term.Holds, ht.denote_instantiate hv hb rfl rfl]
    rfl
  | name :: name' :: names =>
    cases hf
    refine Quantifier.overMany_congr _ _ fun new hn => ?_
    simp only [List.length_cons] at hn
    rw [List.append_nil, ht.denote_instantiate hv hb (by simp) (by simpa using hn)]

/-! ## New constants -/

/-- The value of a constant that does not occur does not count. -/
theorem Term.denote_set {I : Interpretation} {name : String} {s : TermSort} {v : s.Carrier} :
    ∀ {t : Term} {env : List Int}, t.mentions name = false →
      t.denote (I.set name s v) env = t.denote I env
  | .int _, _, _ => rfl
  | .real _, _, _ => rfl
  | .bool _, _, _ => rfl
  | .const n s', _, h => by
    have hn : n ≠ name := by simpa [Term.mentions] using h
    exact I.constant_set_of_ne v fun hc => hn hc.1
  | .bound _, _, _ => rfl
  | .neg a, env, h => by simp only [Term.denote, denote_set (show a.mentions name = false from h)]
  | .not a, env, h => by simp only [Term.denote, denote_set (show a.mentions name = false from h)]
  | .toReal a, env, h => by
    simp only [Term.denote, denote_set (show a.mentions name = false from h)]
  | .app op a b, env, h => by
    simp only [Term.mentions, Bool.or_eq_false_iff] at h
    simp only [Term.denote, TermOp.denote_set, denote_set h.1, denote_set h.2]
  | .store a i v, env, h => by
    simp only [Term.mentions, Bool.or_eq_false_iff] at h
    simp only [Term.denote, denote_set h.1.1, denote_set h.1.2, denote_set h.2]
  | .quantified kind names body, env, h => by
    simp only [Term.denote, denote_set (show body.mentions name = false from h)]

/-- The formulas that do not mention a constant hold whatever its value. -/
theorem Term.holds_set {I : Interpretation} {name : String} {s : TermSort} {v : s.Carrier}
    {t : Term} (h : t.mentions name = false) : t.Holds (I.set name s v) ↔ t.Holds I := by
  rw [Term.Holds, Term.denote_set h, Term.Holds]

/-! ## Laws -/

namespace Law

variable {I : Interpretation} {a b c d f : Term}

/-- The number zero of an arithmetic sort is zero. -/
theorem number_zeroOf (s : TermSort) : (Term.zeroOf s).number I = 0 := by
  unfold Term.zeroOf
  split <;> simp [Term.number, Term.denote]

/-- A zero is a number. -/
theorem isArithmetic_zeroOf (s : TermSort) : (Term.zeroOf s).sortOf.isArithmetic = true := by
  unfold Term.zeroOf
  split <;> rfl

/-- The number that a product is. -/
theorem number_mul {s : TermSort} (h : Sorted 0 (.app .mul a b) s) :
    (Term.app .mul a b).number I = a.number I * b.number I := by
  obtain ⟨hs, ha, hb⟩ := h.of_ring rfl
  rw [← h.polynomial_eq hs, ← ha.polynomial_eq hs, ← hb.polynomial_eq hs, Term.polynomial,
    Polynomial.value_mul]

/-- Of two numbers, they are equal or one is less than the other. -/
theorem trichotomy_holds
    (h : Sorted 0 (.app .or (.app .eq a b) (.app .or (.app .lt a b) (.app .lt b a))) .bool) :
    (Term.app .or (.app .eq a b) (.app .or (.app .lt a b) (.app .lt b a))).Holds I := by
  obtain ⟨he, h⟩ := h.of_connective rfl
  obtain ⟨hl, hg⟩ := h.of_connective rfl
  have ha := (hl.of_comparison rfl).1
  have hb := (hg.of_comparison rfl).1
  rw [Term.holds_or, Term.holds_or, he.holds_relation ha, hl.holds_relation ha,
    hg.holds_relation hb]
  rcases lt_trichotomy (a.number I) (b.number I) with h | h | h
  · exact .inr (.inl h)
  · exact .inl h
  · exact .inr (.inr h)

/-- A square is not negative. -/
theorem square_holds (h : Sorted 0 (.app .le (Term.zeroOf a.sortOf) (.app .mul a a)) .bool) :
    (Term.app .le (Term.zeroOf a.sortOf) (.app .mul a a)).Holds I := by
  rw [h.holds_relation (isArithmetic_zeroOf _), number_zeroOf,
    number_mul (h.of_comparison rfl).2.2]
  exact mul_self_nonneg _

/-- Two numbers that a comparison puts above zero have a product that it puts above zero. -/
theorem product_holds {op : TermOp} {zero : Term} (hz : zero.sortOf.isArithmetic = true)
    (hzero : zero.number I = 0) (ho : op = .le ∨ op = .lt)
    (h : Sorted 0 (.app .implies (.app .and (.app op zero a) (.app op zero b))
      (.app op zero (.app .mul a b))) .bool) :
    (Term.app .implies (.app .and (.app op zero a) (.app op zero b))
      (.app op zero (.app .mul a b))).Holds I := by
  obtain ⟨hp, hc⟩ := h.of_connective rfl
  obtain ⟨ha, hb⟩ := hp.of_connective rfl
  rw [Term.holds_implies, Term.holds_and, ha.holds_relation hz, hb.holds_relation hz,
    hc.holds_relation hz, hzero]
  rcases ho with rfl | rfl
  · rw [number_mul (hc.of_comparison rfl).2.2]
    exact fun h => mul_nonneg h.1 h.2
  · rw [number_mul (hc.of_comparison rfl).2.2]
    exact fun h => mul_pos h.1 h.2

/-- A product is zero if its first factor is. -/
theorem zeroProduct_holds (h : Sorted 0 (.app .implies (.app .eq a (Term.zeroOf a.sortOf))
      (.app .eq (.app .mul a b) (Term.zeroOf a.sortOf))) .bool) :
    (Term.app .implies (.app .eq a (Term.zeroOf a.sortOf))
      (.app .eq (.app .mul a b) (Term.zeroOf a.sortOf))).Holds I := by
  obtain ⟨hp, hc⟩ := h.of_connective rfl
  have hm := hc.of_eq.1
  have har : a.sortOf.isArithmetic = true := (hm.of_ring rfl).1
  have hc' := hc.holds_relation (I := I)
    (show (Term.app .mul a b).sortOf.isArithmetic = true from har)
  rw [Term.holds_implies, hp.holds_relation har, hc', number_zeroOf, number_mul hm]
  intro h
  simp only [TermOp.Relates] at h ⊢
  rw [h, zero_mul]

/-- The identity of division is about integers. -/
theorem sorted_of_identity
    (h : Sorted 0 (.app .eq a (.app .add (.app .mul b (.app .idiv a b)) (.app .mod a b))) .bool) :
    Sorted 0 a .int ∧ Sorted 0 b .int := by
  obtain ⟨-, -, hm⟩ := h.of_eq.2.of_ring rfl
  exact hm.of_integral rfl

/-- The dividend is the product of divisor and quotient, and the remainder, which is not negative and
is below the divisor. -/
theorem division_denote (ha : Sorted 0 a .int) (hb : Sorted 0 b .int) :
    ∃ m n : Int, b.denote I [] = .int n ∧ (Term.app .mod a b).number I = m ∧
      (n ≠ 0 → m < |n| ∧
        (Term.app .eq a (.app .add (.app .mul b (.app .idiv a b)) (.app .mod a b))).Holds I ∧
        (Term.app .le (.int 0) (.app .mod a b)).Holds I) := by
  obtain ⟨k, hk⟩ := Meaning.exists_int (ha.sort_denote I [])
  obtain ⟨n, hn⟩ := Meaning.exists_int (hb.sort_denote I [])
  have hmod : Sorted 0 (.app .mod a b) .int := .integral rfl ha hb
  obtain ⟨m, hm⟩ := Meaning.exists_int (hmod.sort_denote I [])
  have hm' : (Term.app .mod a b).number I = m := by rw [Term.number, hm]; rfl
  refine ⟨m, n, hn, hm', fun hz => ?_⟩
  obtain rfl : k % n = m := by
    simpa [Term.denote, TermOp.denote, hk, hn, Interpretation.mod, hz] using hm
  refine ⟨Int.emod_lt_abs k hz, ?_, ?_⟩
  · rw [Term.holds_eq]
    simp only [Term.denote, TermOp.denote, hk, hn, Interpretation.idiv, Interpretation.mod, hz,
      if_false, Meaning.arithmetic, Int.mul_ediv_add_emod]
  · rw [Term.holds_le, hm', Term.number_int]
    exact_mod_cast Int.emod_nonneg k hz

/-- The law of division with remainder holds, for a divisor that is a known number and for any
other. -/
theorem division_holds (h : Sorted 0 (divisionFormula a b) .bool) :
    (divisionFormula a b).Holds I := by
  unfold divisionFormula at h ⊢
  simp only at h ⊢
  split
  · next c hc =>
    rw [hc] at h
    simp only at h
    split
    · rfl
    · next hz =>
      rw [if_neg hz] at h
      obtain ⟨ha, hb⟩ := sorted_of_identity (h.of_connective rfl).1
      obtain ⟨m, n, hn, hm, hdiv⟩ := division_denote (I := I) ha hb
      -- the number that the divisor's polynomial is, is the divisor
      have hcn : (n : ℝ) = c := by
        rw [← Polynomial.value_of_constant? hc, hb.polynomial_eq rfl, Term.number, hn]
        rfl
      obtain rfl : (n : Rat) = c := by exact_mod_cast hcn
      obtain ⟨hlt, hid, hle⟩ := hdiv fun e => hz (by rw [e]; rfl)
      rw [Rat.num_intCast, Term.holds_and, Term.holds_and]
      refine ⟨hid, hle, ?_⟩
      rw [Term.holds_lt, hm, Term.number_int, Int.natCast_natAbs]
      exact_mod_cast hlt
  · next hc =>
    rw [hc] at h
    simp only at h
    obtain ⟨-, h⟩ := h.of_connective rfl
    obtain ⟨ha, hb⟩ := sorted_of_identity (h.of_connective rfl).1
    obtain ⟨m, n, hn, hm, hdiv⟩ := division_denote (I := I) ha hb
    have hn' : b.number I = n := by rw [Term.number, hn]; rfl
    rw [Term.holds_or]
    by_cases hz : n = 0
    · left
      rw [Term.holds_eq, hn, hz]
      rfl
    · right
      obtain ⟨hlt, hid, hle⟩ := hdiv hz
      rw [Term.holds_and, Term.holds_and, Term.holds_or]
      refine ⟨hid, hle, ?_⟩
      rw [Term.holds_lt, Term.holds_lt, hm, hn', Term.number, Term.denote, Meaning.number_neg,
        ← Term.number, hn']
      exact_mod_cast lt_abs.1 hlt

/-- The law of division of reals holds: the divisor is zero, or times the quotient it is the
dividend. -/
theorem quotient_holds
    (h : Sorted 0 (.app .or (.app .eq b (.real 0)) (.app .eq a (.app .mul b (.app .rdiv a b))))
      .bool) :
    (Term.app .or (.app .eq b (.real 0)) (.app .eq a (.app .mul b (.app .rdiv a b)))).Holds I := by
  obtain ⟨-, h⟩ := h.of_connective rfl
  obtain ⟨-, -, hq⟩ := h.of_eq.2.of_ring rfl
  obtain ⟨ha, hb⟩ := hq.of_rdiv
  obtain ⟨x, hx⟩ := Meaning.exists_real (ha.sort_denote I [])
  obtain ⟨y, hy⟩ := Meaning.exists_real (hb.sort_denote I [])
  rw [Term.holds_or]
  by_cases hz : y = 0
  · left
    simp [Term.holds_eq, Term.denote, hy, hz]
  · right
    simp only [Term.holds_eq, Term.denote, TermOp.denote, hx, hy, Interpretation.rdiv, hz, if_false,
      Meaning.arithmetic, mul_div_cancel₀ x hz]

/-- Equal operands make equal results, whatever the operator. -/
theorem congruence_holds (op : TermOp) :
    (Term.app .implies (.app .and (.app .eq a c) (.app .eq b d))
      (.app .eq (.app op a b) (.app op c d))).Holds I := by
  rw [Term.holds_implies, Term.holds_and, Term.holds_eq, Term.holds_eq, Term.holds_eq]
  rintro ⟨hac, hbd⟩
  simp only [Term.denote, hac, hbd]

/-- Reading from an updated array gives the new value at its index, and else the old one. -/
theorem storeRead_holds {index value place : Term}
    (h : Sorted 0 (.app .and
      (.app .implies (.app .eq index place)
        (.app .eq (.app .select (.store a index value) place) value))
      (.app .or (.app .eq index place)
        (.app .eq (.app .select (.store a index value) place) (.app .select a place)))) .bool) :
    (Term.app .and
      (.app .implies (.app .eq index place)
        (.app .eq (.app .select (.store a index value) place) value))
      (.app .or (.app .eq index place)
        (.app .eq (.app .select (.store a index value) place)
          (.app .select a place)))).Holds I := by
  obtain ⟨h, -⟩ := h.of_connective rfl
  obtain ⟨-, h⟩ := h.of_connective rfl
  obtain ⟨s, hs, hp⟩ := h.of_eq.1.of_select
  obtain ⟨ha, hi, hv⟩ := hs.of_store
  obtain ⟨g, hg⟩ := Meaning.exists_array (ha.sort_denote I [])
  obtain ⟨i, hi'⟩ := Meaning.exists_int (hi.sort_denote I [])
  obtain ⟨j, hj⟩ := Meaning.exists_int (hp.sort_denote I [])
  have hv' := hv.sort_denote I []
  simp only [Term.holds_and, Term.holds_implies, Term.holds_or, Term.holds_eq, Term.denote,
    TermOp.denote, hg, hi', hj, Meaning.store, Meaning.select, Meaning.int.injEq]
  by_cases hij : i = j
  · subst hij
    simp [Meaning.ofBasic_toBasic hv']
  · simp [hij, Function.update_of_ne (Ne.symm hij)]

/-- The instance of a quantifier holds if a universal quantifier does, and an existential one holds
if its instance does. -/
theorem instantiation_holds {q t : Term} (hf : (instantiation q t).formula? = some f)
    (h : Sorted 0 f .bool) : f.Holds I := by
  simp only [formula?] at hf
  split at hf
  · next ht =>
    have ht := Term.check?_eq_some_iff.1 ht
    obtain ⟨v, hv⟩ := Meaning.exists_int (ht.sort_denote I [])
    split at hf
    · next hi =>
      cases hf
      have hq := (h.of_connective rfl).1
      rw [Term.holds_implies, Term.holds_instanceOf? hq ht hv hi, Term.holds_quantified hi]
      exact fun h => h v
    · next hi =>
      cases hf
      have hq := (h.of_connective rfl).2
      rw [Term.holds_implies, Term.holds_instanceOf? hq ht hv hi, Term.holds_quantified hi]
      exact fun h => ⟨v, h⟩
    · cases hf
  · cases hf

/-- Every law holds under every interpretation. -/
theorem formula?_holds {l : Law} (hf : l.formula? = some f) (h : Sorted 0 f .bool) : f.Holds I := by
  cases l with
  | trichotomy a b => cases hf; exact trichotomy_holds h
  | square a => cases hf; exact square_holds h
  | product a b =>
    cases hf
    exact product_holds (isArithmetic_zeroOf _) (number_zeroOf _) (.inl rfl) h
  | positiveProduct a b =>
    cases hf
    exact product_holds (isArithmetic_zeroOf _) (number_zeroOf _) (.inr rfl) h
  | zeroProduct a b => cases hf; exact zeroProduct_holds h
  | division a b => cases hf; exact division_holds h
  | quotient a b => cases hf; exact quotient_holds h
  | congruence op a b c d => cases hf; exact congruence_holds op
  | storeRead a index value place => cases hf; exact storeRead_holds h
  | instantiation q t => exact instantiation_holds hf h

end Law

/-! ## Witnesses -/

namespace Witness

variable {I : Interpretation} {name : String} {f : Term}

/-- The value of a new constant. -/
theorem denote_new (v : Int) :
    (Term.const name .int).denote (I.set name .int v) [] = .int v := by
  simp [Term.denote, Meaning.ofSort, Meaning.ofBasic]

/-- For some value of the new constant the quantifier says what its instance says there. -/
theorem sample_holds {q : Term} (hf : (sample q).formula? (.const name .int) = some f)
    (h : Sorted 0 f .bool) (hn : q.mentions name = false) :
    ∃ v : Int, f.Holds (I.set name .int v) := by
  simp only [formula?] at hf
  split at hf
  · next names body g hg =>
    cases hf
    have hq := (h.of_connective rfl).1
    -- a value that shows the quantifier true, if there is one
    by_cases hex : (Term.quantified .ex names body).Holds I
    · obtain ⟨v, hv⟩ := (Term.holds_quantified hg).1 hex
      refine ⟨v, fun _ => ?_⟩
      refine (Term.holds_instanceOf? hq .const (denote_new v) hg).2 ?_
      unfold Term.holdsAt at hv ⊢
      simpa only [Term.denote_set (show body.mentions name = false from hn)] using hv
    · refine ⟨0, fun hq => absurd ((Term.holds_set hn).1 hq) hex⟩
  · next names body g hg =>
    cases hf
    have hq := (h.of_connective rfl).1
    -- a value that shows the quantifier false, if there is one
    by_cases hall : (Term.quantified .all names body).Holds I
    · exact ⟨0, .inl ((Term.holds_set hn).2 hall)⟩
    · rw [Term.holds_quantified hg] at hall
      obtain ⟨v, hv⟩ := not_forall.1 hall
      refine ⟨v, .inr fun hi => hv ?_⟩
      have hi := (Term.holds_instanceOf? hq .const (denote_new v) hg).1 hi
      unfold Term.holdsAt at hi ⊢
      simpa only [Term.denote_set (show body.mentions name = false from hn)] using hi
  · cases hf

/-- For some value of the new constant, two arrays that differ do so at that index. -/
theorem difference_holds {a b : Term}
    (h : Sorted 0 (.app .or (.app .eq a b) (.not (.app .eq (.app .select a (.const name .int))
      (.app .select b (.const name .int))))) .bool)
    (ha : a.mentions name = false) (hb : b.mentions name = false) :
    ∃ v : Int, (Term.app .or (.app .eq a b) (.not (.app .eq (.app .select a (.const name .int))
      (.app .select b (.const name .int))))).Holds (I.set name .int v) := by
  obtain ⟨he, h⟩ := h.of_connective rfl
  obtain ⟨s, hsa, -⟩ := h.of_not.of_eq.1.of_select
  have hsb := he.of_eq.2
  rw [hsa.sortOf_eq] at hsb
  obtain ⟨g, hg⟩ := Meaning.exists_array (hsa.sort_denote I [])
  obtain ⟨k, hk⟩ := Meaning.exists_array (hsb.sort_denote I [])
  have hg' (v : Int) : a.denote (I.set name .int v) [] = .array s g := by
    rw [Term.denote_set ha, hg]
  have hk' (v : Int) : b.denote (I.set name .int v) [] = .array s k := by
    rw [Term.denote_set hb, hk]
  by_cases hgk : g = k
  · exact ⟨0, .inl (Term.holds_eq.2 (by rw [hg', hk', hgk]))⟩
  · obtain ⟨v, hv⟩ := Function.ne_iff.1 hgk
    refine ⟨v, .inr fun hr => hv ?_⟩
    have hr := Term.holds_eq.1 hr
    simp only [Term.denote, TermOp.denote, hg', hk'] at hr
    rw [show (I.set name .int v).constant name .int = .int v from denote_new v] at hr
    exact Meaning.ofBasic_inj.1 hr

/-- For some value of the new constant it is the whole part of a real. -/
theorem floor_holds {a : Term} (h : Sorted 0 (.app .and (.app .le (.toReal (.const name .int)) a)
      (.app .lt a (.app .add (.toReal (.const name .int)) (.real 1)))) .bool)
    (ha : a.mentions name = false) :
    ∃ v : Int, (Term.app .and (.app .le (.toReal (.const name .int)) a)
      (.app .lt a (.app .add (.toReal (.const name .int)) (.real 1)))).Holds
        (I.set name .int v) := by
  have hs := ((h.of_connective rfl).1.of_comparison rfl).2.2
  obtain ⟨x, hx⟩ := Meaning.exists_real (hs.sort_denote I [])
  have hx' : a.number (I.set name .int ⌊x⌋) = x := by rw [Term.number, Term.denote_set ha, hx]; rfl
  have hu : (Term.toReal (.const name .int)).denote (I.set name .int ⌊x⌋) [] = .real ⌊x⌋ := by
    rw [Term.denote, denote_new]
    rfl
  refine ⟨⌊x⌋, Term.holds_and.2 ⟨Term.holds_le.2 ?_, Term.holds_lt.2 ?_⟩⟩
  · rw [hx', Term.number, hu]
    exact Int.floor_le x
  · rw [hx', Term.number, Term.denote, hu]
    simp [Term.denote, TermOp.denote, Meaning.arithmetic]

/-- Some value of the new constant makes the formula of a witness true. -/
theorem exists_holds {w : Witness} (hf : w.formula? (.const name .int) = some f)
    (h : Sorted 0 f .bool) (hn : w.mentions name = false) :
    ∃ v : Int, f.Holds (I.set name .int v) := by
  cases w with
  | sample q => exact sample_holds hf h hn
  | difference a b =>
    obtain ⟨ha, hb⟩ := Bool.or_eq_false_iff.1
      (show (a.mentions name || b.mentions name) = false from hn)
    cases hf
    exact difference_holds h ha hb
  | floor a =>
    cases hf
    exact floor_holds h hn

end Witness

end

end Discharge
