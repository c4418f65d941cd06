import Mathlib.Data.List.Forall2
import Discharge.Proofs.Encoding.Sorts
import Discharge.Proofs.Logic.Constants

/-!
# Encoding and relations of terms

The encoder looks at the terms of an expression's parts only for their sort, and for whether they are
numerals or quantifiers. A relation of terms that keeps these and that operators respect is a
`Term.Congruence`, and what the encoder builds of related terms is related. An expression `e'`
`Carries` another one by a relation if it is encoded wherever the other one is, to a related term;
`CarriesTo` says so of two expressions that are encoded over two lists of definitions. There is one
lemma for each form of expression, quantifiers apart.
-/

namespace Discharge

/-! ## Relations of terms -/

/-- A relation of terms of one sort that the constructors of terms respect, except for quantifiers. -/
structure Term.Congruence (R : Term → Term → Prop) : Prop where
  sortOf : ∀ {t u}, R t u → u.sortOf = t.sortOf
  isNumeral : ∀ {t u}, R t u → u.isNumeral = t.isNumeral
  isQuantified : ∀ {t u}, R t u → u.isQuantified = t.isQuantified
  neg : ∀ {t u}, R t u → R (.neg t) (.neg u)
  not : ∀ {t u}, R t u → R (.not t) (.not u)
  toReal : ∀ {t u}, R t u → R (.toReal t) (.toReal u)
  app : ∀ {op l l' r r'}, R l l' → R r r' → R (.app op l r) (.app op l' r')
  store : ∀ {a a' i i' v v'}, R a a' → R i i' → R v v' → R (.store a i v) (.store a' i' v')

namespace Term.Congruence

variable {R : Term → Term → Prop} {t u l l' r r' : Term}

/-- A congruence relates what is widened to one sort. -/
theorem coerce (H : Congruence R) (s : TermSort) (h : R t u) : R (t.coerce s) (u.coerce s) := by
  unfold Term.coerce
  rw [H.sortOf h]
  split
  · exact H.toReal h
  · exact h

/-- A congruence relates both sides of two terms that are brought to one sort. -/
theorem balance (H : Congruence R) (hl : R l l') (hr : R r r') :
    R (Term.balance l r).1 (Term.balance l' r').1 ∧
      R (Term.balance l r).2 (Term.balance l' r').2 := by
  simp only [Term.balance, H.sortOf hl, H.sortOf hr]
  exact ⟨H.coerce _ hl, H.coerce _ hr⟩

/-- A congruence relates comparisons of related sides. -/
theorem compare (H : Congruence R) (op : TermOp) (hl : R l l') (hr : R r r') :
    R (Term.compare op l r) (Term.compare op l' r') := by
  obtain ⟨h₁, h₂⟩ := H.balance hl hr
  simp only [Term.compare, H.isNumeral hl, H.isNumeral hr]
  split
  · exact H.app h₂ h₁
  · exact H.app h₁ h₂

/-- A congruence relates equivalences of related sides. -/
theorem iff (H : Congruence R) (hl : R l l') (hr : R r r') : R (Term.iff l r) (Term.iff l' r') := by
  unfold Term.iff
  rw [H.isQuantified hl, H.isQuantified hr]
  split
  · exact H.app hr hl
  · exact H.app hl hr

/-- A congruence relates equalities of related sides. -/
theorem equality (H : Congruence R) (hl : R l l') (hr : R r r') :
    R (Term.equality l r) (Term.equality l' r') := by
  unfold Term.equality
  rw [H.sortOf hl]
  split
  · exact H.compare .eq hl hr
  · split
    · exact H.iff hl hr
    · exact H.app hl hr

/-- A congruence relates what an arithmetic operator makes of related operands. -/
theorem arithmetic (H : Congruence R) (op : TermOp) (hl : R l l') (hr : R r r') :
    R (Term.arithmetic op l r) (Term.arithmetic op l' r') :=
  H.app (H.balance hl hr).1 (H.balance hl hr).2

/-- A congruence relates divisions of related operands. -/
theorem division (H : Congruence R) (hl : R l l') (hr : R r r') :
    R (Term.division l r) (Term.division l' r') := by
  obtain ⟨h₁, h₂⟩ := H.balance hl hr
  simp only [Term.division, H.sortOf h₁]
  exact H.app h₁ h₂

/-- What an operator builds of related terms is related. -/
theorem combine (H : Congruence R) (op : BinOp) (hl : R l l') (hr : R r r') :
    R (op.combine l r) (op.combine l' r') := by
  cases op with
  | mul | add | sub => exact H.arithmetic _ hl hr
  | div | floatDiv => exact H.division hl hr
  | lt | le | gt | ge => exact H.compare _ hl hr
  | and | or | implies | mod => exact H.app hl hr
  | eq => exact H.equality hl hr
  | ne => exact H.not (H.equality hl hr)
  | iff => exact H.iff hl hr
  | unknown => exact hl

end Term.Congruence

/-! ## Expressions in place of others -/

/-- Wherever `e` is encoded, so is `e'`, to a term that is related to that of `e`. -/
def Exp.Carries (ds : Definitions) (R : Term → Term → Prop) (e e' : Exp) : Prop :=
  ∀ t, e.encode ds = .ok t → ∃ t', e'.encode ds = .ok t' ∧ R t t'

/-- Wherever `e` is encoded over `ds`, so is `e'` over `ds'`, to a term that is related to that of
`e`. -/
def Exp.CarriesTo (ds ds' : Definitions) (R : Term → Term → Prop) (e e' : Exp) : Prop :=
  ∀ t, e.encode ds = .ok t → ∃ t', e'.encode ds' = .ok t' ∧ R t t'

/-- Replacements of the same constants by related terms. -/
def Term.Substitution.Related (R : Term → Term → Prop) : Substitution → Substitution → Prop :=
  List.Forall₂ fun p q => p.1 = q.1 ∧ R p.2 q.2

/-- Whatever is defined in `ds` is defined in `ds'` with the same parameters, and related actuals make
related terms of the two bodies. -/
def Definitions.Relate (R : Term → Term → Prop) (ds ds' : Definitions) : Prop :=
  ∀ name d, ds.lookup? name = some d → ∃ d', ds'.lookup? name = some d' ∧
    d'.formals = d.formals ∧ ∀ σ σ', σ.map Prod.fst = d.formals → σ.Related R σ' →
      R (d.body.substitute σ) (d'.body.substitute σ')

namespace Exp

variable {ds ds' : Definitions} {R : Term → Term → Prop} {a a' i i' v v' l l' r r' : Exp}

/-- An expression with the encoding of another one is carried to it by a reflexive relation. -/
theorem Carries.of_encode_eq (hR : ∀ t, R t t) (h : a'.encode ds = a.encode ds) :
    Carries ds R a a' :=
  fun t ht => ⟨t, h.trans ht, hR t⟩

namespace CarriesTo

/-- Related parts make related subscripts. -/
theorem sub (H : Term.Congruence R) (ha : CarriesTo ds ds' R a a') (hi : CarriesTo ds ds' R i i') :
    CarriesTo ds ds' R (.sub a i) (.sub a' i') := by
  intro t ht
  obtain ⟨ta, ti, s, hea, hei, hsa, hsi, rfl⟩ := encode_sub_eq_ok.1 ht
  obtain ⟨ta', hea', hra⟩ := ha ta hea
  obtain ⟨ti', hei', hri⟩ := hi ti hei
  exact ⟨_, encode_sub_eq_ok.2 ⟨ta', ti', s, hea', hei', H.sortOf hra ▸ hsa, H.sortOf hri ▸ hsi,
    rfl⟩, H.app hra hri⟩

/-- Related parts make related updates, whatever the length variables. -/
theorem upd (H : Term.Congruence R) (ha : CarriesTo ds ds' R a a') (hi : CarriesTo ds ds' R i i')
    (hv : CarriesTo ds ds' R v v') (length length' : Variable) :
    CarriesTo ds ds' R (.upd a i v length) (.upd a' i' v' length') := by
  intro t ht
  obtain ⟨ta, ti, tv, s, hea, hei, hev, hsa, hsi, hsv, rfl⟩ := encode_upd_eq_ok.1 ht
  obtain ⟨ta', hea', hra⟩ := ha ta hea
  obtain ⟨ti', hei', hri⟩ := hi ti hei
  obtain ⟨tv', hev', hrv⟩ := hv tv hev
  exact ⟨_, encode_upd_eq_ok.2 ⟨ta', ti', tv', s, hea', hei', hev', H.sortOf hra ▸ hsa,
    H.sortOf hri ▸ hsi, H.sortOf hrv ▸ hsv, rfl⟩, H.store hra hri (H.coerce _ hrv)⟩

/-- Related operands make related negations. -/
theorem not (H : Term.Congruence R) (ha : CarriesTo ds ds' R a a') :
    CarriesTo ds ds' R (.not a) (.not a') := by
  intro t ht
  obtain ⟨ta, hea, hs, rfl⟩ := encode_not_eq_ok.1 ht
  obtain ⟨ta', hea', hra⟩ := ha ta hea
  exact ⟨_, encode_not_eq_ok.2 ⟨ta', hea', H.sortOf hra ▸ hs, rfl⟩, H.not hra⟩

/-- Related operands make related negatives. -/
theorem neg (H : Term.Congruence R) (ha : CarriesTo ds ds' R a a') :
    CarriesTo ds ds' R (.neg a) (.neg a') := by
  intro t ht
  obtain ⟨ta, hea, hs, rfl⟩ := encode_neg_eq_ok.1 ht
  obtain ⟨ta', hea', hra⟩ := ha ta hea
  exact ⟨_, encode_neg_eq_ok.2 ⟨ta', hea', H.sortOf hra ▸ hs, rfl⟩, H.neg hra⟩

/-- Related operands make related binary expressions. -/
theorem bin (H : Term.Congruence R) (op : BinOp) (hl : CarriesTo ds ds' R l l')
    (hr : CarriesTo ds ds' R r r') : CarriesTo ds ds' R (.bin op l r) (.bin op l' r') := by
  intro t ht
  obtain ⟨tl, tr, u, hel, her, hsig, rfl⟩ := encode_bin_eq_ok.1 ht
  obtain ⟨tl', hel', hrl⟩ := hl tl hel
  obtain ⟨tr', her', hrr⟩ := hr tr her
  exact ⟨_, encode_bin_eq_ok.2 ⟨tl', tr', u, hel', her',
    by rw [H.sortOf hrl, H.sortOf hrr]; exact hsig, rfl⟩, H.combine op hrl hrr⟩

/-- Quantifiers, if binding the names keeps terms of the bodies related. -/
theorem quantified (H : Term.Congruence R) {kind : Quantifier} {names : List String}
    (hb : CarriesTo ds ds' R a a') (hquantify : ∀ t t', R t t' →
      R (t.quantify kind (names.map constantName)) (t'.quantify kind (names.map constantName))) :
    CarriesTo ds ds' R (.quantified kind names a) (.quantified kind names a') := by
  intro t ht
  obtain ⟨b, hb', hs, rfl⟩ := encode_quantified_eq_ok.1 ht
  obtain ⟨b', heb', hr⟩ := hb b hb'
  exact ⟨_, encode_quantified_eq_ok.2 ⟨b', heb', H.sortOf hr ▸ hs, rfl⟩, hquantify b b' hr⟩

end CarriesTo

/-- Related parts make related subscripts over the same definitions. -/
theorem Carries.sub (H : Term.Congruence R) (ha : Carries ds R a a') (hi : Carries ds R i i') :
    Carries ds R (.sub a i) (.sub a' i') :=
  CarriesTo.sub H ha hi

/-- Related parts make related updates over the same definitions. -/
theorem Carries.upd (H : Term.Congruence R) (ha : Carries ds R a a') (hi : Carries ds R i i')
    (hv : Carries ds R v v') (length length' : Variable) :
    Carries ds R (.upd a i v length) (.upd a' i' v' length') :=
  CarriesTo.upd H ha hi hv length length'

/-- Related operands make related negations over the same definitions. -/
theorem Carries.not (H : Term.Congruence R) (ha : Carries ds R a a') :
    Carries ds R (.not a) (.not a') :=
  CarriesTo.not H ha

/-- Related operands make related negatives over the same definitions. -/
theorem Carries.neg (H : Term.Congruence R) (ha : Carries ds R a a') :
    Carries ds R (.neg a) (.neg a') :=
  CarriesTo.neg H ha

/-- Related operands make related binary expressions over the same definitions. -/
theorem Carries.bin (H : Term.Congruence R) (op : BinOp) (hl : Carries ds R l l')
    (hr : Carries ds R r r') : Carries ds R (.bin op l r) (.bin op l' r') :=
  CarriesTo.bin H op hl hr

/-- There is one term for each parameter, in the order of the parameters. -/
theorem map_fst_encodeArgs : ∀ {formals : List (String × BasicSort)} {args : List Exp}
    {σ : Term.Substitution}, args.length = formals.length → encodeArgs ds formals args = .ok σ →
      σ.map Prod.fst = formals
  | [], [], _, _, h => by
    cases encodeArgs_nil_eq_ok.1 h
    rfl
  | formal :: formals, arg :: args, _, hl, h => by
    obtain ⟨t, τ, -, -, hτ, rfl⟩ := encodeArgs_cons_eq_ok.1 h
    exact congrArg (formal :: ·) (map_fst_encodeArgs (Nat.succ.inj hl) hτ)

/-- Arguments in place of others give related terms for the parameters. -/
theorem encodeArgs_of_carriesTo (H : Term.Congruence R) {args args' : List Exp}
    (h : List.Forall₂ (CarriesTo ds ds' R) args args') {formals : List (String × BasicSort)}
    {σ : Term.Substitution} (hσ : encodeArgs ds formals args = .ok σ) :
    ∃ σ', encodeArgs ds' formals args' = .ok σ' ∧ σ.Related R σ' := by
  induction h generalizing formals σ with
  | nil =>
    cases formals <;>
    · simp only [encodeArgs] at hσ ⊢
      cases hσ
      exact ⟨[], rfl, .nil⟩
  | @cons arg arg' args args' ha _ ih =>
    cases formals with
    | nil =>
      cases encodeArgs_nil_eq_ok.1 hσ
      exact ⟨[], encodeArgs_nil_eq_ok.2 rfl, .nil⟩
    | cons formal formals =>
      obtain ⟨t, τ, ht, hs, hτ, rfl⟩ := encodeArgs_cons_eq_ok.1 hσ
      obtain ⟨t', ht', hr⟩ := ha _ ht
      obtain ⟨τ', hτ', hrel⟩ := ih hτ
      exact ⟨_, encodeArgs_cons_eq_ok.2 ⟨t', τ', ht', H.sortOf hr ▸ hs, hτ', rfl⟩,
        .cons ⟨rfl, H.coerce _ hr⟩ hrel⟩

/-- Calls with arguments in place of others, if related actuals make related terms of the bodies. -/
theorem CarriesTo.call (H : Term.Congruence R) {name : String} {parameters : List Variable}
    {body : Exp} {args args' : List Exp} (h : List.Forall₂ (CarriesTo ds ds' R) args args')
    (hbody : ∀ d, ds.lookup? name = some d → ∃ d', ds'.lookup? name = some d' ∧
      d'.formals = d.formals ∧ ∀ σ σ', σ.map Prod.fst = d.formals → σ.Related R σ' →
        R (d.body.substitute σ) (d'.body.substitute σ')) :
    CarriesTo ds ds' R (.call name parameters body args) (.call name parameters body args') := by
  intro t ht
  obtain ⟨d, σ, hd, hl, hσ, rfl⟩ := encode_call_eq_ok.1 ht
  obtain ⟨σ', hσ', hrel⟩ := encodeArgs_of_carriesTo H h hσ
  obtain ⟨d', hd', hformals, hrelated⟩ := hbody d hd
  have hl' : args'.length = d'.formals.length := by rw [← h.length_eq, hl, hformals]
  exact ⟨_, encode_call_eq_ok.2 ⟨d', σ', hd', hl', hformals ▸ hσ', rfl⟩,
    hrelated σ σ' (map_fst_encodeArgs hl hσ) hrel⟩

/-- Related arguments make related calls, if related arguments in the place of the parameters make
the predicate's body related. -/
theorem Carries.call (H : Term.Congruence R) {name : String} {parameters : List Variable}
    {body : Exp} {args args' : List Exp} (h : List.Forall₂ (Carries ds R) args args')
    (hbody : ∀ d σ σ', ds.lookup? name = some d → σ.map Prod.fst = d.formals → σ.Related R σ' →
      R (d.body.substitute σ) (d.body.substitute σ')) :
    Carries ds R (.call name parameters body args) (.call name parameters body args') :=
  CarriesTo.call H h fun d hd => ⟨d, hd, rfl, fun σ σ' => hbody d σ σ' hd⟩

end Exp

end Discharge
