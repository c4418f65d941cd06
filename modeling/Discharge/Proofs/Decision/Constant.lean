import Discharge.Decision.Decide

/-!
# The search on a constant

The search runs to its end on a formula that is a single constant. From the assumption that it is
false nothing follows, the candidates in which it is false make all goals true, and together with
what the model says the formula is refuted at once. So the constant is found refuted
(`Term.decide_flag`).
-/

namespace Discharge

/-! ## Assumptions -/

namespace Assumptions

/-- What is found among formulas and one more is that one or found among them. -/
theorem contains_insert (a : Assumptions) (t u : Term) :
    (a.insert t).contains u = true ↔ u = t ∨ a.contains u = true := by
  simp only [contains, insert, Std.TreeMap.getElem?_insert]
  by_cases h : hash t = hash u
  · rw [h]
    cases a.buckets[hash u]? <;> simp
  · have hne : ¬ u = t := fun e => h (e ▸ rfl)
    simp [h, hne]

/-- What is found among further formulas is one of them, or it was found before. -/
theorem contains_insertAll (ts : List Term) (a : Assumptions) (u : Term) :
    (a.insertAll ts).contains u = true ↔ u ∈ ts ∨ a.contains u = true := by
  unfold insertAll
  induction ts generalizing a with
  | nil => simp
  | cons t ts ih => rw [List.foldl_cons, ih, contains_insert, List.mem_cons, ← or_assoc,
      or_comm (a := u ∈ ts)]

/-- Exactly the formulas of a list are found in it. -/
theorem contains_ofList (ts : List Term) (u : Term) : (ofList ts).contains u = true ↔ u ∈ ts :=
  (contains_insertAll ts empty u).trans (or_iff_left (by simp [contains, empty]))

end Assumptions

/-! ## The assumption that a constant is false -/

/-- A constant that is a formula. -/
abbrev Term.flag (name : String) : Term := .const name .bool

namespace State

variable (name : String) (fresh : Nat)

/-- The clause that a literal of the first formula holds, as it is assumed. -/
def assumedClause (f : Term) (l : Lit) : Clause := ⟨#[l], .clash f, []⟩

/-- The state in which a constant is assumed to be false. -/
def denying : State where
  formulas := ⟨#[.flag name], #[.atom], Std.HashMap.insert ∅ (.flag name) 0⟩
  trail :=
    { Trail.empty.grow 1 with
      values := #[some false]
      reasons := #[some (assumedClause (.not (.flag name)) 1)]
      literals := #[1] }
  limitations := #[none]
  permanent := #[assumedClause (.not (.flag name)) 1]
  pins := #[⟨.not (.flag name), 1, 0⟩]
  pinned := Std.HashSet.insert ∅ (.not (.flag name))
  fresh := fresh

/-- The first state of the search, where the constant is denied. -/
theorem assuming_not_flag :
    assuming [] fresh [.not (.flag name)] = (denying name fresh, none) := by
  simp [assuming, require, addFormula, Formulas.add, Formulas.addAtom, Formulas.empty,
    Formulas.push, Term.plainTruth, register, addLimitations, Formulas.shape, Formulas.size,
    Formulas.term, literalLimitation, Term.constraint?, gateClauses, pin, Trail.isOpen, Trail.push,
    Trail.value, Lit.formula, Lit.of, Lit.opposite, Lit.value, level, Trail.level,
    Trail.derivedLevel, Trail.levelOf, Trail.empty, Trail.grow, denying, assumedClause]

/-- That state when nothing more follows: the assumption has become a fact. -/
def settledDenying : State :=
  { denying name fresh with
    trail := { (denying name fresh).trail with head := 1, units := #[some 0] }
    facts := #[⟨.clause [1] (.clash (.not (.flag name))), []⟩]
    permanent := #[assumedClause (.not (.flag name)) 1, ⟨#[1], .clause [1], [0]⟩]
    bounded := 1
    settled := 1 }

/-- A tableau without variables is feasible. -/
theorem solve_empty :
    Tableau.solve sparseLimit pivotLimit .empty = (.empty, .feasible, pivotLimit - 1) := by
  simp [pivotLimit, Tableau.solve, Tableau.violated?, Tableau.empty]

/-- The first state comes to rest without a conflict. -/
theorem settle_denying :
    (denying name fresh).settle 1000 = (settledDenying name fresh, .calm) := by
  simp [denying, settledDenying, assumedClause, settle, Trail.propagate, Trail.visit, Trail.empty,
    Trail.grow, settleLiterals, settleLiteral, limitAll, Formulas.size, Lit.opposite, Lit.formula,
    Lit.value, term, Formulas.literalTerm, Formulas.term, addFact, distinct, unitFacts,
    List.range, List.range.loop, solve_empty, List.eraseReps, List.eraseRepsBy]

/-- A walk over the state at rest meets the constant, with the value that it has. -/
theorem walk_settledDenying : (settledDenying name fresh).walk = ⟨#[true], [0], []⟩ := by
  simp [walk, settledDenying, denying, Formulas.size, walkFormula, Formulas.shape, Lit.formula,
    List.range, List.range.loop, Trail.value]

end State

/-! ## What the theories do about it -/

/-- Where candidates satisfy all goals whatever their arrays hold elsewhere, and nothing is required of
all instances, the best candidate is one of them. -/
theorem View.bestCandidate_of_forall {v : View} {f : Valuation} (hr : v.requirements = [])
    (h : ∀ d, v.satisfies (v.candidate f v.constants d) = true) :
    ∃ d, v.bestCandidate f =
      ((v.candidate f v.constants d).complete (v.goals.flatMap Term.parts), true) := by
  have hcount (c : Candidate) : v.violationCount c = 0 := by
    rw [violationCount, hr]
    rfl
  have hleast : ∀ l : List (Candidate × Nat), l.foldl (fun m p => min m p.2) 0 = 0 := by
    intro l
    induction l with
    | nil => rfl
    | cons p l ih => rw [List.foldl_cons, Nat.zero_min, ih]
  have hall : ((v.fillings f).map fun d => v.candidate f v.constants d).filter v.satisfies =
      (v.fillings f).map fun d => v.candidate f v.constants d := by
    refine List.filter_eq_self.2 fun c hc => ?_
    obtain ⟨d, -, rfl⟩ := List.mem_map.1 hc
    exact h d
  have hpos : 0 < (v.fillings f).length :=
    List.length_pos_of_mem (List.mem_append_right _ List.mem_cons_self)
  have hsame : (v.fillings f).filter (fun _ => true) = v.fillings f :=
    List.filter_eq_self.2 fun _ _ => rfl
  simp only [bestCandidate, hall, hr, hcount, List.length_nil, hleast, List.map_map,
    List.filter_map, Function.comp_def, decide_true, hsame, List.length_map, List.getElem?_map,
    List.getElem?_eq_getElem (Nat.mod_lt _ hpos), Option.map_some]
  exact ⟨_, rfl⟩

/-- Where nothing is missing and no value is left to choose, and candidates satisfy all goals, one of them
is what the theories come to. -/
theorem View.step_of_forall {v : View} (hwitnesses : v.missingWitnesses = [])
    (hdivisions : v.missingDivisions = []) (hmonomials : v.monomials = #[])
    (hlaws : v.coincidences = []) (hr : v.requirements = [])
    (h : ∀ d, v.satisfies (v.candidate v.valuation v.constants d) = true)
    (hcomplete : ∀ d, (v.candidate v.valuation v.constants d).complete (v.goals.flatMap Term.parts) =
      v.candidate v.valuation v.constants d) :
    ∃ d, v.step = .candidate (v.candidate v.valuation v.constants d) := by
  obtain ⟨d, hd⟩ := bestCandidate_of_forall hr h
  refine ⟨d, ?_⟩
  simp [step, hwitnesses, hdivisions, hmonomials, hlaws, hd, hcomplete, Lattice.split?]

/-- Where a state comes to rest with nothing to choose, and the theories come to a candidate of which
nothing more is required, the search finds its model. -/
theorem explore_of_candidate {s s' : State} {walk : State.Walk} {v : View} {c : Candidate}
    (hsettle : s.settle 1000 = (s', .calm)) (hwalk : s'.walk = walk)
    (hchoice : s'.choice? walk = none) (hview : s'.view walk = v) (hstep : v.step = .candidate c)
    (hr : v.requirements = []) (hgoals : v.goals.any Term.dividesBound = false)
    (nested : Nat → State × Option Clause → Outcome × Nat) (budget : Nat) :
    explore nested (budget + 1) (s, none) =
      (.found (c.model v.freshName false fun _ => true), budget) := by
  have hinstances : v.checkInstances c nested budget = (.hold, budget) := by
    simp [View.checkInstances, hr, View.checkEach]
  rw [explore]
  simp only [Option.map_none, hsettle, hwalk, hchoice, hview, hstep, hinstances, hgoals]

namespace State

variable (name : String) (fresh : Nat)

/-- What the theories look at where a constant is assumed to be false. -/
def denied : View where
  literals := [(.flag name, false)]
  parts := [.flag name]
  goals := [.not (.flag name)]
  pinned := (denying name fresh).pinned
  witnesses := []
  known := []
  fresh := fresh
  formulas := (denying name fresh).formulas
  truths := #[some false]
  unknownNumbers := ∅
  monomialVariables := ∅
  monomials := #[]
  places := ∅
  values := #[]
  rows := []

/-- The theories look at the denied constant alone. -/
theorem view_settledDenying :
    (settledDenying name fresh).view ⟨#[true], [0], []⟩ = denied name fresh := by
  simp [settledDenying, denied, denying, view, distinctTerms, Term.parts, Formulas.term,
    Tableau.solution, Trail.value, Std.HashMap.fold_eq_foldl_toList]

/-- The denied constant is false in what the theories look at. -/
theorem truth?_denied : (denied name fresh).truth? (.flag name) = some false := by
  simp [View.truth?, Term.plainTruth, denied, denying]

/-- The constant is the only one in what the theories look at. -/
theorem constants_denied : (denied name fresh).constants = [(name, .bool)] := by
  simp [View.constants, denied, Term.constants, List.eraseDups, List.eraseDupsBy,
    List.eraseDupsBy.loop]

/-- A candidate in which the constant is false. -/
def denyingCandidate (d : View.Filling) : Candidate :=
  (denied name fresh).candidate (denied name fresh).valuation [(name, .bool)] d

/-- The candidate in which the constant is false makes the goals true. -/
theorem satisfies_denied (d : View.Filling) :
    (denied name fresh).satisfies (denyingCandidate name fresh d) = true := by
  simp only [View.satisfies, denyingCandidate, View.candidate, truth?_denied, List.map]
  simp [denied, Candidate.value, Candidate.constant, Value.truth?, Value.truth]

/-- The model of the candidate says that the constant is false, and restricts nothing else. -/
theorem model_denied (d : View.Filling) (root : String) :
    (denyingCandidate name fresh d).model root false (fun _ => true) =
      { scalars := [(name, .bool false)] } := by
  have hzero (f : Valuation) (op : TermOp) : (denied name fresh).byZero f op = [] := rfl
  have hknown (f : KnownFunction) : (denied name fresh).knownTable? f = none := rfl
  simp only [denyingCandidate, View.candidate, truth?_denied, hzero, hknown, List.map]
  simp [Candidate.model, View.integersByZero, hzero, View.valuation, Candidate.valueTable, Value.truth,
    Datum.scalar]

/-- The first step of the theories offers the candidate in which the constant is false. -/
theorem step_denied : ∃ d, (denied name fresh).step = .candidate (denyingCandidate name fresh d) := by
  have hconstants := constants_denied name fresh
  have hstep := View.step_of_forall (v := denied name fresh) rfl rfl rfl rfl rfl
  rw [hconstants] at hstep
  exact hstep (satisfies_denied name fresh) fun _ => rfl

end State

/-- The search finds the model in which the constant is false. -/
theorem explore_denying (nested : Nat → State × Option Clause → Outcome × Nat) (name : String)
    (fresh budget : Nat) :
    explore nested (budget + 1) (State.denying name fresh, none) =
      (.found { scalars := [(name, .bool false)] }, budget) := by
  obtain ⟨d, hd⟩ := State.step_denied name fresh
  rw [explore_of_candidate (State.settle_denying name fresh) (State.walk_settledDenying name fresh) rfl
    (State.view_settledDenying name fresh) hd rfl rfl, State.model_denied]

/-! ## The model is tested -/

namespace State

variable (name : String) (fresh : Nat)

/-- The state in which a constant is assumed, and then its negation. -/
def clashing : State where
  formulas := ⟨#[.flag name], #[.atom], Std.HashMap.insert ∅ (.flag name) 0⟩
  trail :=
    { Trail.empty.grow 1 with
      values := #[some true]
      reasons := #[some (assumedClause (.flag name) 0)]
      literals := #[0] }
  limitations := #[none]
  permanent := #[assumedClause (.flag name) 0, assumedClause (.not (.flag name)) 1]
  pins := #[⟨.flag name, 0, 0⟩, ⟨.not (.flag name), 1, 0⟩]
  pinned := (Std.HashSet.insert ∅ (.flag name)).insert (.not (.flag name))
  fresh := fresh

/-- The first state of the search with the constant and its negation: the negation is in conflict
with it. -/
theorem assuming_clash : assuming [] fresh [.flag name, .not (.flag name)] =
    (clashing name fresh, some (assumedClause (.not (.flag name)) 1)) := by
  simp [assuming, require, addFormula, Formulas.add, Formulas.addAtom, Formulas.empty,
    Formulas.push, Term.plainTruth, register, addLimitations, Formulas.shape, Formulas.size,
    Formulas.term, literalLimitation, Term.constraint?, gateClauses, pin, Trail.isOpen, Trail.push,
    Trail.value, Lit.formula, Lit.of, Lit.opposite, Lit.value, level, Trail.level,
    Trail.derivedLevel, Trail.levelOf, Trail.empty, Trail.grow, clashing, assumedClause, Trail.isFalse]

/-- That state when the assumption has become a fact. -/
def settledClashing : State :=
  { clashing name fresh with
    trail := { (clashing name fresh).trail with units := #[some 0] }
    facts := #[⟨.clause [0] (.clash (.flag name)), []⟩]
    permanent := (clashing name fresh).permanent.push ⟨#[0], .clause [0], [0]⟩
    settled := 1 }

/-- Settling that state makes the constant a fact. -/
theorem settleLiterals_clashing :
    (clashing name fresh).settleLiterals = settledClashing name fresh := by
  simp [settleLiterals, clashing, settledClashing, assumedClause, settleLiteral, Trail.empty,
    Trail.grow, Lit.formula, Lit.value, term, Formulas.literalTerm, Formulas.term, addFact,
    distinct, unitFacts, List.range, List.range.loop, List.eraseReps, List.eraseRepsBy]

/-- A clause of one literal that a fact makes false is refuted by that fact. -/
theorem resolve_of_fact {s s' : State} {l : Lit} (hsettle : s.settleLiterals = s')
    (hunits : s'.unitFacts #[l] = [0]) (hlevel : s'.trail.latestLevel #[l] = 0) (d : Derivation) :
    s.resolve ⟨#[l], d, []⟩ = .refuted s' d [0] := by
  simp [resolve, hsettle, hunits, hlevel, distinct, List.eraseReps, List.eraseRepsBy,
    List.eraseRepsBy.loop]

/-- The assumptions are refuted, as the second one is the opposite of the first. -/
theorem resolve_clashing : (clashing name fresh).resolve (assumedClause (.not (.flag name)) 1) =
    .refuted (settledClashing name fresh) (.clash (.not (.flag name))) [0] :=
  resolve_of_fact (settleLiterals_clashing name fresh) rfl rfl _

end State

/-- What the search says when the constant is assumed together with its negation. -/
theorem explore_clashing (nested : Nat → State × Option Clause → Outcome × Nat) (name : String)
    (fresh budget : Nat) :
    explore nested (budget + 1)
        (State.clashing name fresh, some (State.assumedClause (.not (.flag name)) 1)) =
      (.refuted (.cut [.flag name] (.clash (.flag name)) (.clash (.not (.flag name)))), budget) := by
  have hrefutation : Derivation.refutation? (State.settledClashing name fresh).formulas
      (State.settledClashing name fresh).facts (.clash (.not (.flag name))) [0] =
        some (.cut [.flag name] (.clash (.flag name)) (.clash (.not (.flag name)))) := rfl
  rw [explore]
  simp only [Option.map_some, State.resolve_clashing, hrefutation]

/-! ## Decisions -/

namespace Term

variable (name : String)

/-- A search has steps and searches within it. -/
theorem exploreNested_search (x : State × Option Clause) :
    exploreNested searchDepth searchLimit x =
      explore (exploreNested (searchDepth - 1)) (searchLimit - 1 + 1) x := by
  rfl

/-- What the search says then is a refutation. -/
theorem check_clash :
    Refutation.check (.ofList [.flag name, .not (.flag name)])
      (.cut [.flag name] (.clash (.flag name)) (.clash (.not (.flag name)))) = true := by
  have hformula : (flag name).isFormula = true := rfl
  simp [Refutation.check, hformula, Assumptions.contains_insertAll,
    Assumptions.contains_insert, Assumptions.contains_ofList, Term.opposite, Term.disjunction]

/-- The constant fails in the model in which it is false. -/
theorem failsIn_flag : (flag name).failsIn { scalars := [(name, .bool false)] } = true := by
  have hconsistent : Model.isConsistent { scalars := [(name, .bool false)] } = true := rfl
  have hfacts : Model.facts { scalars := [(name, .bool false)] } = [.not (flag name)] := rfl
  have hstate (fresh : Nat) : State.ofModel { scalars := [(name, .bool false)] } [flag name] fresh =
      State.assuming [] fresh [flag name, .not (flag name)] := rfl
  simp only [failsIn, hconsistent, hfacts, hstate, State.assuming_clash, exploreNested_search,
    explore_clashing, check_clash, Option.all_none, Bool.and_self]

/-- A constant by itself is refuted, by being false. -/
theorem decide_flag : (flag name).decide = .refuted { scalars := [(name, .bool false)] } := by
  have hrestrict : (flag name).restrictModel { scalars := [(name, .bool false)] } =
      { scalars := [(name, .bool false)] } := by
    simp [restrictModel, constants, Scalar.sort]
  simp only [decide, State.assuming_not_flag, exploreNested_search, explore_denying, hrestrict,
    failsIn_flag, if_true]

end Term

end Discharge
