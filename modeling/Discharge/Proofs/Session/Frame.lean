import Discharge.Proofs.Decision.Verdict

/-!
# Steps do not disturb each other

All that a step of a session leaves behind is a definition that succeeded. So every answer is the
answer of a session in which only the definitions that succeeded before it were made, a definition
that fails is as if it had not been tried, and the options of a session matter only to checks that
come as far as being decided (`Setting.answers_frame`).
-/

namespace Discharge

/-! ## What a step leaves behind -/

namespace Step

/-- The step is a definition. -/
def isDefinition : Step → Bool
  | .define _ _ _ => true
  | _ => false

end Step

namespace StepAnswer

/-- The step failed. -/
def isFailure : StepAnswer → Bool
  | .failed _ => true
  | _ => false

/-- Why the step failed before anything was decided: its text could not be read, or what was read
could not be encoded or has the wrong sort. -/
def encodingError? : StepAnswer → Option StepError
  | .failed (.unreadable e) => some (.unreadable e)
  | .failed (.defect d) => some (.defect d)
  | _ => none

end StepAnswer

/-- Two answers agree but for the decision of a check: of a check they fail for the same reason before
it is decided, or neither does; of every other step they are the same. -/
def Step.Agree : Step → StepAnswer → StepAnswer → Prop
  | .check _, a, b => a.encodingError? = b.encodingError?
  | _, a, b => a = b

/-- A check is refused whatever the options are, or it comes as far as the options. -/
theorem Definitions.check_cases (ds : Definitions) (e : Exp) :
    (∃ d, ∀ o, ds.check o e = .error (.defect d)) ∨
      ∃ goal : Term, ∀ o, ds.check o e =
        match o.tactic? with
        | none => .error .unknownOption
        | some tactic => .ok (goal.verdict tactic) := by
  simp only [check]
  cases e.encode ds with
  | error d => exact .inl ⟨d, fun _ => rfl⟩
  | ok t =>
    dsimp only
    cases expect e .bool t with
    | error d => exact .inl ⟨d, fun _ => rfl⟩
    | ok goal => exact .inr ⟨goal, fun _ => rfl⟩

namespace Step

variable {s : Setting} {ds : Definitions} {step : Step}

/-- A step that fails leaves the definitions as they were. -/
theorem after_of_failure (h : (step.answer s ds).isFailure = true) : step.after s ds = ds := by
  cases step with
  | define name parameters body =>
    simp only [answer, after] at h ⊢
    split at h
    · rfl
    · split at h
      · rfl
      · cases h
  | _ => rfl

/-- Only definitions change what is defined. -/
theorem after_of_isDefinition_eq_false (h : step.isDefinition = false) : step.after s ds = ds := by
  cases step with
  | define => cases h
  | _ => rfl

/-- The options do not matter to what a step leaves behind. -/
theorem after_options (o : Options) : step.after { s with options := o } ds = step.after s ds := by
  cases step <;> rfl

/-- The options do not matter to an answer, but for the decision of a check. -/
theorem agree_options (o : Options) :
    step.Agree (step.answer s ds) (step.answer { s with options := o } ds) := by
  cases step with
  | check c =>
    have hread : Setting.read { s with options := o } [] c = s.read [] c := by cases c <;> rfl
    simp only [Agree, answer, hread]
    cases s.read [] c with
    | error e => rfl
    | ok e =>
      obtain ⟨d, hd⟩ | ⟨goal, hgoal⟩ := ds.check_cases e
      · simp only [hd]
      · simp only [hgoal]
        cases s.options.tactic? <;> cases o.tactic? <;> rfl
  | _ => rfl

end Step

/-! ## Runs -/

namespace Setting

variable {s : Setting}

/-- The definitions after one more step. -/
theorem after_append (s : Setting) (steps : List Step) (step : Step) :
    s.after (steps ++ [step]) = step.after s (s.after steps) := by
  simp [after]

/-- The answers to some steps and then others: the others are answered over the definitions that
there are then. -/
theorem answersFrom_append (s : Setting) (ds : Definitions) (before rest : List Step) :
    s.answersFrom ds (before ++ rest) = s.answersFrom ds before ++
      s.answersFrom (before.foldl (fun ds step => step.after s ds) ds) rest := by
  induction before generalizing ds with
  | nil => rfl
  | cons step before ih => rw [List.cons_append, answersFrom, answersFrom, ih]; rfl

/-- The answers to further steps are given over the definitions after the steps before them. -/
theorem answers_append_rest (s : Setting) (before rest : List Step) :
    s.answers (before ++ rest) = s.answers before ++ s.answersFrom (s.after before) rest :=
  s.answersFrom_append .empty before rest

/-- Each step has one answer. -/
theorem length_answersFrom (ds : Definitions) (steps : List Step) :
    (s.answersFrom ds steps).length = steps.length := by
  induction steps generalizing ds with
  | nil => rfl
  | cons step steps ih => simp [answersFrom, ih]

@[simp]
theorem length_answers (s : Setting) (steps : List Step) :
    (s.answers steps).length = steps.length := length_answersFrom _ steps

/-- What a step answers between others. -/
theorem getElem?_answers (s : Setting) (before : List Step) (step : Step) (rest : List Step) :
    (s.answers (before ++ step :: rest))[before.length]? =
      some (step.answer s (s.after before)) := by
  rw [answers_append_rest, ← s.length_answers before, List.getElem?_append_right le_rfl,
    Nat.sub_self]
  rfl

/-- The definitions of a session that succeeded, in their order. -/
def accepted (s : Setting) (steps : List Step) : List Step :=
  ((steps.zip (s.answers steps)).filter fun (step, a) => step.isDefinition && !a.isFailure).map
    Prod.fst

/-- One more step is accepted if it is a definition that does not fail. -/
theorem accepted_append (s : Setting) (steps : List Step) (step : Step) :
    s.accepted (steps ++ [step]) = s.accepted steps ++
      if step.isDefinition && !(step.answer s (s.after steps)).isFailure then [step] else [] := by
  unfold accepted
  rw [answers_append, List.zip_append (s.length_answers steps).symm, List.filter_append,
    List.map_append]
  congr 1
  simp only [List.zip_cons_cons, List.zip_nil_right, List.filter_cons, List.filter_nil]
  split <;> rfl

/-- What is defined is what the definitions that succeeded define. The induction adds steps at the
end: whether a definition succeeds depends on those before it. -/
theorem after_accepted (s : Setting) (steps : List Step) :
    s.after (s.accepted steps) = s.after steps := by
  induction steps using List.reverseRecOn with
  | nil => rfl
  | append_singleton steps step ih =>
    rw [accepted_append, after_append]
    split
    · rw [after_append, ih]
    · next h =>
      rw [List.append_nil, ih]
      simp only [Bool.and_eq_true, Bool.not_eq_true', not_and, Bool.not_eq_false] at h
      cases hstep : step.isDefinition with
      | false => exact (Step.after_of_isDefinition_eq_false hstep).symm
      | true => exact (Step.after_of_failure (h hstep)).symm

/-- The definitions do not depend on the options. -/
theorem after_options (s : Setting) (o : Options) (steps : List Step) :
    Setting.after { s with options := o } steps = s.after steps := by
  induction steps using List.reverseRecOn with
  | nil => rfl
  | append_singleton steps step ih => rw [after_append, after_append, ih, Step.after_options]

/-- Steps do not disturb each other. A step among others, any of which may fail, answers as it does
after only the definitions that succeeded before it. If it fails, nothing is defined otherwise than
before, so that every later answer is as if the step were left out. And under any other options,
known or not, the same is defined and the step answers alike, but for the decision of a check that
is not refused before it. -/
theorem answers_frame (s : Setting) (before : List Step) (step : Step) (rest : List Step) :
    ∃ a, (s.answers (before ++ step :: rest))[before.length]? = some a ∧
      (s.answers (s.accepted before ++ [step])).getLast? = some a ∧
      (∀ e, a = .failed e → s.after (before ++ [step]) = s.after before ∧
        s.answers (before ++ step :: rest) =
          s.answers before ++ a :: (s.answers (before ++ rest)).drop before.length) ∧
      ∀ o : Options, Setting.after { s with options := o } before = s.after before ∧
        ∃ b, (Setting.answers { s with options := o } (before ++ step :: rest))[before.length]? =
          some b ∧ step.Agree a b := by
  refine ⟨_, s.getElem?_answers before step rest, ?_, ?_, fun o => ⟨s.after_options o before, ?_⟩⟩
  · rw [answers_append, after_accepted, List.getLast?_concat]
  · intro e he
    have hafter : step.after s (s.after before) = s.after before :=
      Step.after_of_failure (by rw [he]; rfl)
    refine ⟨by rw [after_append, hafter], ?_⟩
    rw [answers_append_rest, answersFrom, hafter, answers_append_rest,
      List.drop_left' (s.length_answers before)]
  · exact ⟨_, getElem?_answers _ before step rest, by
      rw [after_options]
      exact Step.agree_options o⟩

/-- Between definitions that fail, as the name is taken and as the body is no condition, a call is
encoded as after the one definition that succeeds; with an unknown tactic too. -/
theorem answers_frame_of_failed_definitions :
    let s : Setting := ⟨{}, [], []⟩
    let above := Step.define "above" [.plain "x" .int]
      (.exp (.bin .gt (.var (.plain "x" .int)) (.var (.plain "y" .int))))
    let below := Step.define "above" [.plain "x" .int]
      (.exp (.bin .lt (.var (.plain "x" .int)) (.var (.plain "y" .int))))
    let sum := Step.define "sum" [.plain "x" .int]
      (.exp (.bin .add (.var (.plain "x" .int)) (.var (.plain "y" .int))))
    let call := Step.encode (.exp (.call "above" [] (.bool true) [.var (.plain "n" .int)]))
    let t : Term := .app .gt (.const "n" .int) (.const "y" .int)
    let o : Options := { tactic := some "guess" }
    s.accepted [above, below] = [above] ∧
      s.after [above, below, sum] = s.after [above, below] ∧ o.tactic? = none ∧
      (s.answers ([above, below] ++ sum :: [call]))[3]? = some (.term t) ∧
      (Setting.answers { s with options := o } ([above, below, sum] ++ call :: []))[3]? =
        some (.term t) := by
  intro s above below sum call t o
  obtain ⟨a, ha, -, hfail, -⟩ := s.answers_frame [above, below] sum [call]
  obtain ⟨b, hb, -, -, hoptions⟩ := s.answers_frame [above, below, sum] call []
  obtain ⟨-, c, hc, hbc⟩ := hoptions o
  have hb : b = .term t := by
    rw [getElem?_answers] at hb
    cases hb
    rfl
  have ha : ∃ e, a = .failed e := by
    rw [getElem?_answers] at ha
    cases ha
    exact ⟨_, rfl⟩
  obtain ⟨e, ha⟩ := ha
  obtain ⟨hafter, hrest⟩ := hfail e ha
  refine ⟨rfl, hafter, rfl, ?_, ?_⟩
  · rw [hrest]
    rfl
  · cases hbc
    rw [← hb]
    exact hc

end Setting

end Discharge
