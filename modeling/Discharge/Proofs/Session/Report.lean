import Discharge.Proofs.Decision.Constant
import Discharge.Proofs.Decision.Irrational
import Discharge.Proofs.Decision.Verdict

/-!
# Reported values

A refutation reports the values that constants have in a model in which the formula is false. A
constant that has one and the same value wherever the formula is false has a value in that model,
since the formula is false whatever other constants are (`Model.exists_scalar_of_forced`). So what is
reported of it is that value, written as values are (`Setting.check_reports`).
-/

namespace Discharge

noncomputable section

/-! ## Texts of values -/

/-- The text of a scalar that is known well enough is what its value is written as. -/
theorem Scalar.value_writtenAs {r : Root} {ρ : ℝ} (hρ : (⟨r.low, r.high⟩ : Enclosure).Contains ρ)
    (h0 : Univariate.evaluateAt r.coefficients ρ = 0) {x : Scalar} (hx : x.isKnown r = true) :
    (x.value ρ).WrittenAs (x.text r) := by
  cases x with
  | int n => exact .int n
  | real q => exact .rational q
  | bool b =>
    cases b with
    | false => exact .no Bool.false_ne_true
    | true => exact .yes rfl
  | algebraic a =>
    obtain ⟨hirr, halg⟩ := Algebraic.irrational hρ h0 hx
    have hfixed : (a.enclosure r).fixesDecimals = true := by
      simp only [isKnown, Algebraic.isIrrational, Bool.and_eq_true] at hx
      exact hx.2
    rw [text, Enclosure.text_eq hfixed (Enclosure.evaluate_contains hρ a.coefficients)]
    exact .decimals _ hirr halg

/-! ## Names and their texts -/

namespace Assignments

/-- Putting other names leaves what is found under a name. -/
theorem get?_foldl_put_of_forall_ne {key : String} :
    ∀ {pairs : List (String × String)} (a : Assignments), (∀ p ∈ pairs, p.1 ≠ key) →
      (pairs.foldl (fun a p => a.put p.1 p.2) a).get? key = a.get? key
  | [], _, _ => rfl
  | p :: pairs, a, h => by
    obtain ⟨hp, h⟩ := List.forall_mem_cons.1 h
    rw [List.foldl_cons, get?_foldl_put_of_forall_ne _ h, get?_put_of_ne _ _ hp]

/-- A map made of pairs with different names has all of them. -/
theorem get?_ofList {pairs : List (String × String)} (hnd : (pairs.map Prod.fst).Nodup)
    {key value : String} (h : (key, value) ∈ pairs) : (ofList pairs).get? key = some value := by
  unfold ofList
  generalize empty = a
  induction pairs generalizing a with
  | nil => cases h
  | cons p pairs ih =>
    obtain ⟨hp, hnd⟩ := List.nodup_cons.1 hnd
    rw [List.foldl_cons]
    rcases List.mem_cons.1 h with rfl | h
    · have hne : ∀ q ∈ pairs, q.1 ≠ key := fun q hq e => hp (List.mem_map.2 ⟨q, hq, e⟩)
      rw [get?_foldl_put_of_forall_ne _ hne, get?_put_self]
    · exact ih hnd h _

end Assignments

/-! ## Values that are forced -/

/-- A basic sort has two values. -/
theorem Scalar.exists_ne (s : BasicSort) (ρ : ℝ) (r : Root) :
    ∃ x y : Scalar, x.sort = s ∧ y.sort = s ∧ x.isKnown r = true ∧ y.isKnown r = true ∧
      x.value ρ ≠ y.value ρ := by
  cases s with
  | int => exact ⟨.int 0, .int 1, rfl, rfl, rfl, rfl, by simp [value]⟩
  | real => exact ⟨.real 0, .real 1, rfl, rfl, rfl, rfl, by simp [value]⟩
  | bool => exact ⟨.bool false, .bool true, rfl, rfl, rfl, rfl, by simp [value]⟩

namespace Model

variable {m : Model} {ρ : ℝ} {name : String} {s : BasicSort} {v : Meaning}

/-- The model with the value of another constant. -/
def withScalar (m : Model) (name : String) (x : Scalar) : Model :=
  { m with scalars := (name, x) :: m.scalars }

/-- The facts about a model stay facts when one more constant gets a value. -/
theorem facts_withScalar {x : Scalar} : ∀ f ∈ m.facts, f ∈ (m.withScalar name x).facts := by
  intro f hf
  simp only [facts, List.mem_append] at hf ⊢
  rcases hf with (((((hf | hf) | hf) | hf) | hf) | hf) | hf
  · exact .inl (.inl (.inl (.inl (.inl (.inl hf)))))
  · exact .inl (.inl (.inl (.inl (.inl (.inr (List.mem_cons_of_mem _ hf))))))
  · exact .inl (.inl (.inl (.inl (.inr hf))))
  · exact .inl (.inl (.inl (.inr hf)))
  · exact .inl (.inl (.inr hf))
  · exact .inl (.inr hf)
  · exact .inr hf

/-- A constant that a model does not speak of can have any value in it. -/
theorem Consistent.withScalar (hm : m.Consistent) {x : Scalar} (hx : x.isKnown m.rootValue = true)
    (hscalars : ∀ p ∈ m.scalars, (p.1, p.2.sort) ≠ (name, x.sort))
    (hroot : ∀ p ∈ m.root, (p.1, TermSort.real) ≠ (name, .basic x.sort)) :
    (m.withScalar name x).Consistent where
  __ := hm
  scalars := by
    refine List.nodup_cons.2 ⟨fun h => ?_, hm.scalars⟩
    rcases List.mem_append.1 h with h | h
    · obtain ⟨p, hp, he⟩ := List.mem_map.1 h
      exact hscalars p hp he
    · obtain ⟨p, hp, he⟩ := List.mem_map.1 h
      obtain ⟨hn, hs⟩ := Prod.mk.inj he
      exact hroot p (Option.mem_toList.1 hp) (by rw [← hs, hn])
  known := List.forall_mem_cons.2 ⟨hx, hm.known⟩

/-- A constant that has one and the same value wherever all that a consistent model says is true has
that value in the model: any other constant could have two. -/
theorem exists_scalar_of_forced (hm : m.Consistent) (hρ : m.IsRoot ρ)
    (hroot : ∀ p ∈ m.root, (p.1, TermSort.real) ≠ (name, .basic s))
    (hv : ∀ I : Interpretation, (∀ f ∈ m.facts, f.Holds I) → I.constant name (.basic s) = v) :
    ∃ x, (name, x) ∈ m.scalars ∧ x.sort = s ∧ x.value ρ = v := by
  have hvalue {m' : Model} (hm' : m'.Consistent) (hρ' : m'.IsRoot ρ)
      (hfacts : ∀ f ∈ m.facts, f ∈ m'.facts) {x : Scalar} (hx : (name, x) ∈ m'.scalars)
      (hs : x.sort = s) : x.value ρ = v := by
    have hI := hv (m'.interpretation ρ) fun f hf => facts_hold hm' hρ' f (hfacts f hf)
    rw [← hI, ← hs]
    exact (constant_of_mem hm' (e := ((name, x.sort), x.value ρ))
      (List.mem_append_left _ (List.mem_map_of_mem hx)) (Scalar.sort_value ρ x)).symm
  by_cases hscalar : ∃ x, (name, x) ∈ m.scalars ∧ x.sort = s
  · obtain ⟨x, hx, hs⟩ := hscalar
    exact ⟨x, hx, hs, hvalue hm hρ (fun _ => id) hx hs⟩
  · exfalso
    have hother (x : Scalar) (hx : x.isKnown m.rootValue = true) (hs : x.sort = s) :
        x.value ρ = v := by
      have hm' : (m.withScalar name x).Consistent := by
        refine hm.withScalar hx (fun p hp he => hscalar ?_) (by rwa [hs])
        obtain ⟨n, y⟩ := p
        obtain ⟨rfl, hy⟩ := Prod.mk.inj he
        exact ⟨y, hp, hy.trans hs⟩
      exact hvalue hm' hρ facts_withScalar List.mem_cons_self hs
    obtain ⟨x, y, hx, hy, hkx, hky, hne⟩ := Scalar.exists_ne s ρ m.rootValue
    exact hne ((hother x hkx hx).trans (hother y hky hy).symm)

end Model

/-! ## Reports -/

/-- The names of a model that is restricted to constants with different names are different. -/
theorem Term.nodup_restrictModel {t : Term} {m : Model} (hm : (t.restrictModel m).Consistent)
    (hnames : ∀ name s s', (name, s) ∈ t.constants → (name, s') ∈ t.constants → s = s') :
    ((t.restrictModel m).scalars.map Prod.fst).Nodup := by
  have hmem : ∀ p ∈ (t.restrictModel m).scalars, (p.1, TermSort.basic p.2.sort) ∈ t.constants :=
    fun p hp => of_decide_eq_true (List.mem_filter.1 hp).2
  have hnd := (List.nodup_append.1 hm.scalars).1
  refine List.pairwise_map.2 ((List.pairwise_map.1 hnd).imp_of_mem fun {p q} hp hq hne he => hne ?_)
  exact Prod.ext he (TermSort.basic.inj (hnames p.1 _ _ (hmem p hp) (he ▸ hmem q hq)))

/-- Reported values are forced by the formula. When a session, whatever its options are, refutes a
condition whose constants have different names, then of every integer, real or truth value among them
that is one and the same under all interpretations in which the condition is false, that value is
reported, as the one text that it is written as. -/
theorem Setting.check_reports {s : Setting} {steps : List Step} {c : Condition} {e : Exp} {t : Term}
    {m : CounterModel} (hc : s.read [] c = .ok e) (he : e.encode (s.after steps) = .ok t)
    (hnames : ∀ name s s', (name, s) ∈ t.constants → (name, s') ∈ t.constants → s = s')
    (h : (Step.check c).answer s (s.after steps) = .verdict (.notProven m))
    (hm : m.isRefutation = true) :
    ∀ (name : String) (sort : BasicSort) (v : Meaning), (name, TermSort.basic sort) ∈ t.constants →
      (∀ I : Interpretation, ¬ t.Holds I → I.constant name (.basic sort) = v) →
      ∃ text, m.assignments.get? name = some text ∧
        ∀ text', v.WrittenAs text' ↔ text' = text := by
  intro name sort v hname hv
  obtain ⟨ps, hd⟩ := s.defined_after steps
  obtain ⟨hsort, tactic, hverdict⟩ := Step.verdict_of_answer_check hc he h
  have ht := Term.Sorted.of_sortOf (hd.wellSorted.encode he) hsort
  obtain ⟨m', hdecide, hassign⟩ := Term.decide_of_verdict hverdict hm
  obtain ⟨hfails, m₀, rfl⟩ := Term.failsIn_of_decide hdecide
  obtain ⟨hcons, hroot, hfalse⟩ := Term.not_holds_of_failsIn ht hfails
  obtain ⟨ρ, hρ⟩ := Model.exists_isRoot hcons
  obtain ⟨x, hx, -, rfl⟩ := Model.exists_scalar_of_forced hcons hρ
    (fun p hp he => hroot p hp (he ▸ hname)) fun I hI => hv I (hfalse I hI)
  have hwritten := Scalar.value_writtenAs (Model.rootValue_contains hρ)
    (Model.evaluateAt_rootValue hρ) (hcons.known _ hx)
  refine ⟨_, ?_, fun text' => ⟨hwritten.unique, fun h => h ▸ hwritten⟩⟩
  rw [hassign]
  refine Assignments.get?_ofList ?_ (List.mem_map_of_mem hx)
  rw [List.map_map]
  exact Term.nodup_restrictModel hcons hnames

/-- A call of a predicate that is its argument, a truth value. It is false only where the argument is,
and that is reported. -/
theorem check_reports_of_call :
    let s : Setting := ⟨{ simplify := false }, [], []⟩
    let steps := [Step.define "holds" [.plain "p" .bool] (.exp (.var (.plain "p" .bool)))]
    let call : Exp := .call "holds" [] (.bool true) [.var (.plain "b" .bool)]
    ∃ m, (Step.check (.exp call)).answer s (s.after steps) = .verdict (.notProven m) ∧
      m.isRefutation = true ∧ m.assignments.get? "b" = some "False" := by
  intro s steps call
  have hencode : call.encode (s.after steps) = .ok (Term.flag "b") := rfl
  let m : CounterModel := ⟨Model.assignments { scalars := [("b", .bool false)] }, none⟩
  have hverdict : (Term.flag "b").verdict .search = .notProven m := by
    rw [Term.verdict, Term.decide_flag]
  have hanswer : (Step.check (.exp call)).answer s (s.after steps) = .verdict (.notProven m) := by
    rw [← hverdict]
    exact Step.answer_check rfl rfl hencode rfl
  have hnames : ∀ name s s', (name, s) ∈ (Term.flag "b").constants →
      (name, s') ∈ (Term.flag "b").constants → s = s' := by
    intro name s s' h h'
    cases List.mem_singleton.1 h
    cases List.mem_singleton.1 h'
    rfl
  -- where the constant is no true formula, its value is false
  have hforced : ∀ I : Interpretation, ¬ (Term.flag "b").Holds I →
      I.constant "b" .bool = .bool False := by
    intro I hI
    obtain ⟨p, hp⟩ := Meaning.exists_bool (I.sort_constant "b" .bool)
    have hfalse : ¬ p := by simpa [Term.Holds, Term.denote, hp] using hI
    rw [hp, eq_false hfalse]
  obtain ⟨text, htext, hwritten⟩ := Setting.check_reports rfl hencode hnames hanswer rfl "b" .bool
    (.bool False) List.mem_cons_self hforced
  refine ⟨m, hanswer, rfl, ?_⟩
  rw [htext, (hwritten "False").1 (.no not_false)]

end

end Discharge
