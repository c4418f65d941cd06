import Mathlib.Data.List.GetD
import Discharge.Proofs.Semantics.Interpretation

/-!
# Binding and replacing constants

Binding constants of a formula by a quantifier means letting their values vary (`holds_quantify`),
and putting closed terms in place of constants means giving the constants the values of these terms
(`denote_substitute`). No renaming is needed for either: bound variables are numbers, so no constant
is captured.
-/

namespace Discharge

noncomputable section

/-! ## Values of bound numbers -/

/-- A quantifier over properties that hold of the same integers says the same. -/
theorem Quantifier.over_congr (kind : Quantifier) {p q : Int → Prop} (h : ∀ n, p n ↔ q n) :
    kind.over p ↔ kind.over q := by
  cases kind with
  | all => exact forall_congr' h
  | ex => exact exists_congr h

/-- Properties that agree on the lists in question hold of as many of them. -/
theorem Quantifier.overMany_congr (kind : Quantifier) :
    ∀ (k : Nat) {p q : List Int → Prop} {env env' : List Int},
      (∀ new : List Int, new.length = k → (p (new ++ env) ↔ q (new ++ env'))) →
      (kind.overMany k p env ↔ kind.overMany k q env')
  | 0, _, _, _, _, h => h [] rfl
  | k + 1, _, _, _, _, h => kind.over_congr fun n =>
    kind.overMany_congr k fun new hn => by
      simpa using h (new ++ [n]) (by simp [hn])

/-- Only the values of free bound numbers count. -/
theorem Term.Sorted.denote_congr_env {t : Term} {d : Nat} {s : TermSort} (h : Sorted d t s)
    (I : Interpretation) {env env' : List Int}
    (he : ∀ i, i < d → env.getD i 0 = env'.getD i 0) : t.denote I env = t.denote I env' := by
  induction h generalizing env env' with
  | int | real | bool | const => rfl
  | bound hi => simp only [Term.denote, he _ hi]
  | neg _ _ ih | not _ ih | toReal _ ih => simp only [Term.denote, ih he]
  | connective _ _ _ iha ihb | eq _ _ iha ihb | comparison _ _ _ _ iha ihb
  | ring _ _ _ _ iha ihb | integral _ _ _ iha ihb | rdiv _ _ iha ihb | select _ _ iha ihb =>
    simp only [Term.denote, iha he, ihb he]
  | store _ _ _ iha ihi ihv => simp only [Term.denote, iha he, ihi he, ihv he]
  | quantified _ ih =>
    simp only [Term.denote]
    refine congrArg Meaning.bool (propext (Quantifier.overMany_congr _ _ fun new hn => ?_))
    rw [ih fun i hi => ?_]
    by_cases hlt : i < new.length
    · rw [List.getD_append _ _ _ _ hlt, List.getD_append _ _ _ _ hlt]
    · have hle : new.length ≤ i := Nat.le_of_not_lt hlt
      rw [List.getD_append_right _ _ _ _ hle, List.getD_append_right _ _ _ _ hle]
      exact he _ (by omega)

/-- A closed term has one value, whatever bound numbers stand for. -/
theorem Term.Sorted.denote_closed {t : Term} {s : TermSort} (h : Sorted 0 t s)
    (I : Interpretation) (env : List Int) : t.denote I env = t.denote I [] :=
  h.denote_congr_env I fun _ hi => absurd hi (Nat.not_lt_zero _)

/-! ## Several constants -/

namespace Interpretation

/-- The interpretation with the values of integer constants of several names; of repeated names the
first counts. -/
def setMany (I : Interpretation) : List String → List Int → Interpretation
  | name :: names, n :: ns => (I.setMany names ns).set name .int n
  | _, _ => I

/-- The interpretation with the values of several constants, integers widened where the constant is
a real; of repeated constants the first counts. -/
def bind (I : Interpretation) : List ((String × BasicSort) × Meaning) → Interpretation
  | [] => I
  | (c, v) :: rest => (I.bind rest).set c.1 (.basic c.2) (v.toBasic c.2)

end Interpretation

/-- Operators other than division do not depend on the interpretation, and division depends on its
choices only. -/
theorem TermOp.denote_set (op : TermOp) (I : Interpretation) (name : String) (s : TermSort)
    (v : s.Carrier) : op.denote (I.set name s v) = op.denote I := by
  cases op <;> rfl

/-- Operators do not depend on the values of constants. -/
theorem TermOp.denote_setMany (op : TermOp) (I : Interpretation) :
    ∀ (names : List String) (ns : List Int), op.denote (I.setMany names ns) = op.denote I
  | [], _ => rfl
  | _ :: _, [] => rfl
  | _ :: names, _ :: ns => by
    rw [Interpretation.setMany, denote_set, denote_setMany op I names ns]

/-- Operators do not depend on the constants that are given values. -/
theorem TermOp.denote_bind (op : TermOp) (I : Interpretation) :
    ∀ l : List ((String × BasicSort) × Meaning), op.denote (I.bind l) = op.denote I
  | [] => rfl
  | _ :: l => by rw [Interpretation.bind, denote_set, denote_bind op I l]

/-- The value of a constant among several integer constants. -/
theorem Interpretation.constant_setMany (I : Interpretation) (name : String) (s : TermSort) :
    ∀ {names : List String} {ns : List Int}, names.length = ns.length →
      (I.setMany names ns).constant name s =
        if s = .int then
          match names.idxOf? name with
          | some i => .int (ns.getD i 0)
          | none => I.constant name s
        else I.constant name s
  | [], [], _ => by simp [setMany]
  | n :: names, m :: ns, h => by
    have ih := constant_setMany I name s (show names.length = ns.length by simpa using h)
    rw [setMany]
    by_cases hc : name = n ∧ s = .int
    · obtain ⟨rfl, rfl⟩ := hc
      rw [constant_set_self]
      simp [List.idxOf?_cons, Meaning.ofSort, Meaning.ofBasic]
    · rw [constant_set_of_ne _ _ hc, ih]
      split
      · next hs =>
        subst hs
        have hn : n ≠ name := fun e => hc ⟨e.symm, rfl⟩
        simp only [List.idxOf?_cons, beq_eq_false_iff_ne.2 hn, Bool.false_eq_true, if_false]
        cases names.idxOf? name <;> simp
      · rfl

/-! ## Quantifiers over constants -/

/-- Binding constants turns their values into values of bound numbers. -/
theorem Term.Sorted.denote_abstract {t : Term} {d : Nat} {s : TermSort} (h : Sorted d t s)
    (I : Interpretation) (names : List String) {env vals : List Int} (hd : env.length = d)
    (hv : vals.length = names.length) :
    (t.abstract names d).denote I (env ++ vals) =
      t.denote (I.setMany names.reverse vals) env := by
  induction h generalizing env with
  | int | real | bool => rfl
  | @const d name s =>
    simp only [Term.denote, Term.abstract]
    rw [I.constant_setMany name s (by simp [hv])]
    split
    · simp only [Term.boundIndex?]
      cases names.reverse.idxOf? name with
      | none => rfl
      | some i =>
        simp only [Term.denote]
        rw [List.getD_append_right _ _ _ _ (by omega)]
        congr; omega
    · rfl
  | bound hi =>
    simp only [Term.denote, Term.abstract]
    rw [List.getD_append _ _ _ _ (by omega)]
  | neg _ _ ih | not _ ih | toReal _ ih => simp only [Term.denote, Term.abstract, ih hd]
  | connective _ _ _ iha ihb | eq _ _ iha ihb | comparison _ _ _ _ iha ihb
  | ring _ _ _ _ iha ihb | integral _ _ _ iha ihb | rdiv _ _ iha ihb | select _ _ iha ihb =>
    simp only [Term.denote, Term.abstract, TermOp.denote_setMany, iha hd, ihb hd]
  | store _ _ _ iha ihi ihv => simp only [Term.denote, Term.abstract, iha hd, ihi hd, ihv hd]
  | quantified _ ih =>
    simp only [Term.denote, Term.abstract]
    refine congrArg Meaning.bool (propext (Quantifier.overMany_congr _ _ fun new hn => ?_))
    rw [← List.append_assoc, ih (by simp [hn, hd, Nat.add_comm])]

/-- That a property holds of all, or of some, of the interpretations that give any values to integer
constants of some names. -/
def Quantifier.overNames (kind : Quantifier) :
    List String → (Interpretation → Prop) → Interpretation → Prop
  | [], p, I => p I
  | name :: names, p, I => kind.over fun n => kind.overNames names p (I.set name .int n)

/-- Letting bound numbers vary and letting constants vary come to the same. `done` are the names
whose numbers `env` holds already, the last one first. -/
theorem Quantifier.overMany_iff_overNames (kind : Quantifier) (I : Interpretation)
    {p : List Int → Prop} {q : Interpretation → Prop} :
    ∀ (names done : List String) (env : List Int), done.length = env.length →
      (∀ new : List Int, new.length = names.length →
        (p (new ++ env) ↔ q (I.setMany (names.reverse ++ done) (new ++ env)))) →
      (kind.overMany names.length p env ↔ kind.overNames names q (I.setMany done env))
  | [], _, _, _, h => h [] rfl
  | name :: names, done, env, hl, h => kind.over_congr fun n => by
    refine kind.overMany_iff_overNames I names (name :: done) (n :: env) (by simp [hl]) ?_
    intro new hn
    simpa using h (new ++ [n]) (by simp [hn])

/-- A quantifier over constants of a closed formula lets their values vary. -/
theorem Term.Sorted.holds_quantify {t : Term} (h : Sorted 0 t .bool) (I : Interpretation)
    (kind : Quantifier) (names : List String) :
    (t.quantify kind names).Holds I ↔ kind.overNames names (fun J => t.Holds J) I := by
  unfold Term.quantify
  cases names with
  | nil => rfl
  | cons name names =>
    refine kind.overMany_iff_overNames I (name :: names) [] [] rfl fun new hn => ?_
    have := h.denote_abstract I (name :: names) (rfl : ([] : List Int).length = 0) hn
    simp only [List.nil_append] at this
    simp only [List.append_nil, this, Term.Holds]

/-! ## Terms in place of constants -/

/-- The constants of a substitution with the values of their terms. -/
def Term.Substitution.values (I : Interpretation) (σ : Substitution) :
    List ((String × BasicSort) × Meaning) :=
  σ.map fun f => (f.1, f.2.denote I [])

/-- The value of a constant among those that a substitution replaces. -/
theorem Term.Substitution.constant_bind (I : Interpretation) (name : String) (s : TermSort) :
    ∀ {σ : Substitution}, σ.Sorted →
      (I.bind (σ.values I)).constant name s =
        ((σ.lookup? name s).getD (.const name s)).denote I []
  | [], _ => rfl
  | f :: σ, hσ => by
    have ih := constant_bind I name s (σ := σ) fun g hg => hσ g (List.mem_cons_of_mem _ hg)
    have hf := (hσ f List.mem_cons_self).sort_denote I []
    simp only [values, List.map_cons, Interpretation.bind, lookup?, List.find?_cons]
    by_cases hc : name = f.1.1 ∧ s = .basic f.1.2
    · obtain ⟨rfl, rfl⟩ := hc
      simp [Meaning.ofSort, Meaning.ofBasic_toBasic hf]
    · rw [Interpretation.constant_set_of_ne _ _ hc]
      have : (f.1.1 == name && TermSort.basic f.1.2 == s) = false := by
        rw [Bool.eq_false_iff]
        intro ht
        simp only [Bool.and_eq_true, beq_iff_eq] at ht
        exact hc ⟨ht.1.symm, ht.2.symm⟩
      rw [this]
      exact ih

/-- Closed terms in place of constants give the constants the values of the terms. -/
theorem Term.Sorted.denote_substitute {t : Term} {d : Nat} {s : TermSort} (h : Sorted d t s)
    {σ : Substitution} (hσ : σ.Sorted) (I : Interpretation) (env : List Int) :
    (t.substitute σ).denote I env = t.denote (I.bind (σ.values I)) env := by
  induction h generalizing env with
  | int | real | bool | bound => rfl
  | @const d name s =>
    simp only [Term.denote, Term.substitute, Substitution.constant_bind I name s hσ]
    cases hl : σ.lookup? name s with
    | none => rfl
    | some u =>
      obtain ⟨f, hf, -, -, rfl⟩ := Substitution.mem_of_lookup? hl
      exact (hσ f hf).denote_closed I env
  | neg _ _ ih | not _ ih | toReal _ ih => simp only [Term.denote, Term.substitute, ih]
  | connective _ _ _ iha ihb | eq _ _ iha ihb | comparison _ _ _ _ iha ihb
  | ring _ _ _ _ iha ihb | integral _ _ _ iha ihb | rdiv _ _ iha ihb | select _ _ iha ihb =>
    simp only [Term.denote, Term.substitute, TermOp.denote_bind, iha, ihb]
  | store _ _ _ iha ihi ihv => simp only [Term.denote, Term.substitute, iha, ihi, ihv]
  | quantified _ ih => simp only [Term.denote, Term.substitute, ih]

end

end Discharge
