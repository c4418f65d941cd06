import Discharge.Session
import Discharge.Proofs.Decision.Model
import Discharge.Proofs.Decision.Refutation
import Discharge.Proofs.Encoding.WellSorted

/-!
# Verdicts are right

A formula that is found valid holds under every interpretation (`Term.holds_of_decide`), and one
that is found refuted fails under some (`Term.exists_not_holds_of_decide`), however the search came
to its outcome. `Setting.check_verdict` says so of the conditions that a session checks after any
steps.
-/

namespace Discharge

open Term (Sorted)

noncomputable section

/-! ## Decisions -/

namespace Term

variable {t : Term}

/-- The negation of a formula that is found valid has a refutation. -/
theorem holds_of_decide (ht : Sorted 0 t .bool) (h : t.decide = .valid) (I : Interpretation) :
    t.Holds I := by
  unfold decide at h
  split at h
  · split at h
    · next r _ _ hr =>
      by_contra hI
      refine Refutation.not_hold (Assumptions.wellSorted_ofList ?_) hr I
        (Assumptions.hold_ofList ?_)
      · exact List.forall_mem_singleton.2 ht.not
      · exact List.forall_mem_singleton.2 hI
    · cases h
  · simp only at h
    split at h <;> cases h
  · cases h

/-- A formula that fails in a model is false where the model's facts hold. The model is consistent,
and its root is not among the formula's constants. -/
theorem not_holds_of_failsIn (ht : Sorted 0 t .bool) {m : Model} (h : t.failsIn m = true) :
    m.Consistent ∧ (∀ p ∈ m.root, (p.1, TermSort.real) ∉ t.constants) ∧
      ∀ I : Interpretation, (∀ f ∈ m.facts, f.Holds I) → ¬ t.Holds I := by
  simp only [failsIn, Bool.and_eq_true, Option.all_eq_true, decide_eq_true_eq] at h
  obtain ⟨⟨hm, hroot⟩, h⟩ := h
  have hm := Model.consistent_of_isConsistent hm
  refine ⟨hm, hroot, fun I hI htI => ?_⟩
  split at h
  · refine Refutation.not_hold (Assumptions.wellSorted_ofList ?_) h I (Assumptions.hold_ofList ?_)
    · exact List.forall_mem_cons.2 ⟨ht, Model.sorted_of_mem_facts hm⟩
    · exact List.forall_mem_cons.2 ⟨htI, hI⟩
  · cases h

/-- A formula that is found refuted fails in the model that is given, which is restricted to its
constants. -/
theorem failsIn_of_decide {m : Model} (h : t.decide = .refuted m) :
    t.failsIn m = true ∧ ∃ m', m = t.restrictModel m' := by
  unfold decide at h
  split at h
  · split at h <;> cases h
  · next m' _ _ =>
    simp only at h
    split at h
    · next hf =>
      cases h
      exact ⟨hf, m', rfl⟩
    · cases h
  · cases h

/-- A formula that is found refuted is false somewhere. -/
theorem exists_not_holds_of_decide (ht : Sorted 0 t .bool) {m : Model}
    (h : t.decide = .refuted m) : ∃ I : Interpretation, ¬ t.Holds I := by
  obtain ⟨hm, -, hfails⟩ := not_holds_of_failsIn ht (failsIn_of_decide h).1
  obtain ⟨I, hI⟩ := Model.exists_holds hm
  exact ⟨I, hfails I hI⟩

/-! ## Verdicts -/

variable {tactic : Tactic}

/-- A formula that is found to be valid holds under every interpretation. -/
theorem holds_of_verdict (ht : Sorted 0 t .bool) (h : t.verdict tactic = .valid)
    (I : Interpretation) : t.Holds I := by
  unfold verdict at h
  split at h
  · cases h
  · split at h
    · next hd => exact holds_of_decide ht hd I
    · cases h
    · cases h

/-- A refutation holds the values of the model that a formula is found refuted in. -/
theorem decide_of_verdict {m : CounterModel} (h : t.verdict tactic = .notProven m)
    (hm : m.isRefutation = true) :
    ∃ m' : Model, t.decide = .refuted m' ∧ m.assignments = m'.assignments := by
  unfold verdict at h
  split at h
  · cases h; cases hm
  · split at h
    · cases h
    · next m' hd => cases h; exact ⟨m', hd, rfl⟩
    · cases h; cases hm

/-- A formula that is found to be refuted fails under some interpretation. -/
theorem exists_not_holds_of_verdict (ht : Sorted 0 t .bool) {m : CounterModel}
    (h : t.verdict tactic = .notProven m) (hm : m.isRefutation = true) :
    ∃ I : Interpretation, ¬ t.Holds I := by
  obtain ⟨m', hd, -⟩ := decide_of_verdict h hm
  exact exists_not_holds_of_decide ht hd

/-- What is not decided is not proven, and not refuted either. -/
theorem verdict_of_undecided (h : tactic = .skip ∨ t.decide = .undecided) :
    ∃ m, t.verdict tactic = .notProven m ∧ m.isRefutation = false := by
  unfold verdict
  cases tactic with
  | skip => exact ⟨_, rfl, rfl⟩
  | search =>
    obtain h | h := h
    · cases h
    · rw [h]
      exact ⟨_, rfl, rfl⟩

end Term

/-! ## Sessions -/

/-- The definitions after the steps of a session. -/
def Setting.after (s : Setting) (steps : List Step) : Definitions :=
  steps.foldl (fun ds step => step.after s ds) .empty

/-- The answer to a step is given over the definitions after the steps before it. -/
theorem Setting.answers_append (s : Setting) (steps : List Step) (step : Step) :
    s.answers (steps ++ [step]) = s.answers steps ++ [step.answer s (s.after steps)] := by
  unfold answers after
  generalize Definitions.empty = ds
  induction steps generalizing ds with
  | nil => rfl
  | cons first steps ih =>
    rw [List.cons_append, answersFrom, answersFrom, List.foldl_cons, ih]
    rfl

/-- A step leaves definitions that attempts to define predicates lead to. -/
theorem Defined.after {ps : List Predicate} {ds : Definitions} (h : Defined ps ds) (s : Setting)
    (step : Step) : ∃ qs, Defined qs (step.after s ds) := by
  cases step with
  | define name parameters body =>
    simp only [Step.after]
    split
    · exact ⟨ps, h⟩
    · split
      · exact ⟨ps, h⟩
      · next hp => exact ⟨_, h.accept hp⟩
  | _ => exact ⟨ps, h⟩

/-- The definitions of a session are ones that attempts to define predicates lead to. -/
theorem Setting.defined_after (s : Setting) (steps : List Step) :
    ∃ ps, Defined ps (s.after steps) := by
  unfold Setting.after
  have h : ∃ ps, Defined ps Definitions.empty := ⟨_, .empty⟩
  generalize Definitions.empty = ds at h
  induction steps generalizing ds with
  | nil => exact h
  | cons step steps ih =>
    obtain ⟨ps, h⟩ := h
    exact ih _ (h.after s step)

/-- A condition that is a formula is checked, if the options name a known way to decide it. -/
theorem Step.answer_check {s : Setting} {ds : Definitions} {c : Condition} {e : Exp} {t : Term}
    {tactic : Tactic} (ho : s.options.tactic? = some tactic) (hc : s.read [] c = .ok e)
    (he : e.encode ds = .ok t) (ht : t.sortOf = .bool) :
    (Step.check c).answer s ds = .verdict (t.verdict tactic) := by
  have hexpect : expect e .bool t = .ok t := expect_eq_ok.2 ⟨admits_bool.2 ht, rfl⟩
  simp only [answer, hc, Definitions.check, he, hexpect, ho]

/-- A verdict on a condition is the verdict on its term, a formula, by some way to decide it. -/
theorem Step.verdict_of_answer_check {s : Setting} {ds : Definitions} {c : Condition} {e : Exp}
    {t : Term} {v : Verdict} (hc : s.read [] c = .ok e) (he : e.encode ds = .ok t)
    (h : (Step.check c).answer s ds = .verdict v) :
    t.sortOf = .bool ∧ ∃ tactic, t.verdict tactic = v := by
  simp only [answer, hc, Definitions.check, he] at h
  split at h
  · cases h
  · next v' hv =>
    cases h
    split at hv
    · cases hv
    · next goal hgoal =>
      obtain ⟨hbool, rfl⟩ := expect_eq_ok.1 hgoal
      split at hv
      · cases hv
      · next tactic _ => cases hv; exact ⟨admits_bool.1 hbool, tactic, rfl⟩

/-- Verdicts are right. After any steps of a session with known options, a condition that is a
formula has a verdict: if it is valid, the formula holds under every interpretation; if it is a
refutation, the formula fails under some; and what is not decided is neither. So no two sessions
with the same definitions call a condition valid and refuted. -/
theorem Setting.check_verdict {s : Setting} {steps : List Step} {c : Condition} {e : Exp} {t : Term}
    {tactic : Tactic} (ho : s.options.tactic? = some tactic) (hc : s.read [] c = .ok e)
    (he : e.encode (s.after steps) = .ok t) (ht : t.sortOf = .bool) :
    ∃ v, (Step.check c).answer s (s.after steps) = .verdict v ∧
      (v = .valid → ∀ I : Interpretation, t.Holds I) ∧
      (∀ m, v = .notProven m → m.isRefutation = true → ∃ I : Interpretation, ¬ t.Holds I) ∧
      (tactic = .skip ∨ t.decide = .undecided →
        ∃ m, v = .notProven m ∧ m.isRefutation = false) ∧
      ∀ (s' : Setting) (steps' : List Step) (c' : Condition) (m : CounterModel),
        s'.after steps' = s.after steps → s'.read [] c' = .ok e → v = .valid →
        (Step.check c').answer s' (s'.after steps') = .verdict (.notProven m) →
        m.isRefutation = false := by
  obtain ⟨ps, hd⟩ := s.defined_after steps
  have hs : Sorted 0 t .bool := .of_sortOf (hd.wellSorted.encode he) ht
  refine ⟨t.verdict tactic, Step.answer_check ho hc he ht, Term.holds_of_verdict hs,
    fun m hv hm => Term.exists_not_holds_of_verdict hs hv hm, Term.verdict_of_undecided, ?_⟩
  intro s' steps' c' m hds hc' hv hm
  rw [hds] at hm
  obtain ⟨-, tactic', hv'⟩ := Step.verdict_of_answer_check hc' he hm
  by_contra hr
  obtain ⟨I, hI⟩ := Term.exists_not_holds_of_verdict hs hv' (by simpa using hr)
  exact hI (Term.holds_of_verdict hs hv I)

/-- A session with the usual options that defines a predicate and checks a call of it: the verdict
is on the comparison of the actual argument. -/
theorem check_verdict_of_call :
    let s : Setting := ⟨{}, [], []⟩
    let body : Exp := .bin .gt (.var (.plain "x" .int)) (.var (.plain "y" .int))
    let call : Exp := .call "above" [] (.bool true) [.var (.plain "n" .int)]
    let steps := [Step.define "above" [.plain "x" .int] (.exp body)]
    let t : Term := .app .gt (.const "n" .int) (.const "y" .int)
    s.options.tactic? = some .search ∧ call.encode (s.after steps) = .ok t ∧
      ∃ v, (Step.check (.exp call)).answer s (s.after steps) = .verdict v ∧
        (v = .valid → ∀ I : Interpretation, t.Holds I) ∧
        ∀ m, v = .notProven m → m.isRefutation = true → ∃ I : Interpretation, ¬ t.Holds I := by
  intro s body call steps t
  obtain ⟨v, hv, hvalid, hrefuted, -⟩ :=
    @Setting.check_verdict s steps (.exp call) call t .search rfl rfl rfl rfl
  exact ⟨rfl, rfl, v, hv, hvalid, hrefuted⟩

end

end Discharge
