import Discharge.Search.Step

/-!
# Deciding validity

`Term.decide` looks for a refutation of the negated term, or for a model in which the term is false.
Both are tested before they count: a refutation step by step, a model by a refutation of the term
together with the facts about the model. Where the search ends with neither, or a test fails, the term
is undecided.
-/

namespace Discharge

/-! ## Exploration

`explore` settles a state, chooses literals and makes the moves that views suggest, until the assumptions are
refuted or a model is found. A candidate that makes all goals true is a model if it also gives every required
instance of each quantifier; this is found out by refuting the opposite together with the facts about the
candidate.
-/

/-- What became of a search. -/
inductive Outcome where
  | refuted (r : Refutation)
  | found (m : Model)
  | unknown
deriving Inhabited

/-- What is known of the required instances of quantifiers under a candidate. -/
inductive InstanceCheck where
  | hold
  | violated (q t : Term)
  | unknown

/-- The functions that a model describes. -/
def Model.known (m : Model) : List Known :=
  let pieces := fun (t : ValueTable) (read : Term → Term) =>
    ((t.steps.map fun (e : Int × Scalar) => some e.1) ++ [none]).zip (t.piecesFrom m.rootTerm read none t.steps)
  let byZero := fun (op : TermOp) (t : ValueTable) =>
    if t.default.isNone then []
    else [(⟨.byZero op, t, pieces t fun i => .app op i (.int 0)⟩ : Known)]
  m.arrays.map (fun (name, s, t) =>
    ⟨.array name s, t, pieces t (.app .select (.const name (.array s)))⟩) ++
  byZero .idiv m.integerQuotients ++ byZero .mod m.remainders ++
  (match m.realQuotient with
    | some x =>
      let entries := m.realQuotients.filterMap fun (a, y) =>
        match a with
        | .real q => if q.den = 1 then some (q.num, y) else none
        | _ => none
      [⟨.byZero .rdiv, ⟨entries, [], some x⟩, m.realQuotientFacts.map fun f => (none, f)⟩]
    | none => [])

namespace State

/-- The state in which formulas are assumed. -/
def assuming (known : List Known) (fresh : Nat) (fs : List Term) : State × Option Clause :=
  fs.foldl (fun (s, conflict) f =>
    let (s, c) := s.require f []
    (s, conflict.or c)) ({ known := known, fresh := fresh }, none)

/-- The state of a model's facts and further formulas. -/
def ofModel (m : Model) (further : List Term) (fresh : Nat) : State × Option Clause :=
  assuming m.known fresh (further ++ m.facts)

/-- The clause by which a state is given up: that one of the choices is wrong. -/
def surrender (s : State) : State × Option Clause :=
  let (s, k) := s.addFact .gap []
  let choices := s.trail.starts.map fun i => (s.trail.literals.getD i 0).opposite
  (s, some ⟨choices, .clause choices.toList, [k]⟩)

end State

/-- What is known after a further requirement: a new instance goes before what is unknown, and that before
what holds. -/
def InstanceCheck.merge : InstanceCheck → InstanceCheck → InstanceCheck
  | .hold, c => c
  | .violated q t, _ => .violated q t
  | .unknown, .violated q t => .violated q t
  | .unknown, _ => .unknown

namespace View

/-- A violated instance, unless its law is pinned already. -/
def newInstance (v : View) (q t : Term) : InstanceCheck :=
  if v.hasLaw (.instantiation q t) then .unknown else .violated q t

/-- Looks for an instance of one quantifier that a candidate does not give although it is required. `run`
explores a state within a number of steps and gives the number that is left. -/
def checkInstance (v : View) (c : Candidate) (run : Nat → State × Option Clause → Outcome × Nat)
    (budget : Nat) (q : Term) (required : Bool) : InstanceCheck × Nat :=
  match Term.instanceOf? (.const v.freshName .int) q with
  | none => (.unknown, budget)
  | some f =>
    let m := c.model ("!" ++ toString (v.fresh + 1)) q.dividesBound fun name => q.mentions name
    match run budget (State.ofModel m [if required then .not f else f] (v.fresh + 2)) with
    | (.refuted _, left) => (.hold, left)
    | (.found m', left) =>
      match m'.scalars.find? (·.1 == v.freshName) with
      | some (_, .int n) => (v.newInstance q (v.termAt c q n), left)
      | _ => (v.newInstance q (.int 0), left)
    | (.unknown, left) => (.unknown, left)

/-- Looks for an instance that a candidate does not give although it is required, in one quantifier after
the other. -/
def checkEach (v : View) (c : Candidate) (run : Nat → State × Option Clause → Outcome × Nat) :
    Nat → List (Term × Bool) → InstanceCheck × Nat
  | budget, [] => (.hold, budget)
  | budget, (q, required) :: rest =>
    match v.checkInstance c run budget q required with
    | (.violated q t, left) => (.violated q t, left)
    | (known, left) =>
      let (further, left) := v.checkEach c run left rest
      (known.merge further, left)

/-- Looks for an instance that a candidate does not give although it is required: first at terms that are
near at hand, then everywhere. Quantifiers with few instances go first. -/
def checkInstances (v : View) (c : Candidate) (run : Nat → State × Option Clause → Outcome × Nat)
    (budget : Nat) : InstanceCheck × Nat :=
  let requirements := v.requirements.mergeSort fun p q => v.instanceCount p.1 ≤ v.instanceCount q.1
  let indices := v.indices
  let near := requirements.findSome? fun (q, required) =>
    match v.violation? indices c q required with
    | some t => if v.hasLaw (.instantiation q t) then none else some (InstanceCheck.violated q t)
    | none => none
  match near with
  | some x => (x, budget)
  | none => v.checkEach c run budget requirements

end View

/-- The most instances of quantifiers that are pinned at a time. -/
def instanceLimit : Nat := 60

namespace State

/-- Adds laws for good. -/
def addLaws (s : State) (ls : List Law) : State × Option Clause :=
  ls.foldl (fun (s, conflict) l =>
    match l.formula? with
    | some f =>
      let (s, c) := s.requireFact (.law l) f
      (s, conflict.or c)
    | none => (s, conflict)) (s, none)

/-- Adds a witness for good, unless there is one for the same term. -/
def addWitness (s : State) (w : Witness) (subject : Term) : State × Option Clause :=
  match s.witnessFormulas[subject]? with
  | some (f, _) =>
    match s.formulas.find? f with
    | some l => (s.pin f l, none)
    | none => (s, none)
  | none =>
    let name := "!" ++ toString s.fresh
    let u := Term.const name .int
    match w.formula? u with
    | none => (s, none)
    | some f =>
      let s := { s with
        fresh := s.fresh + 1
        witnessFormulas := s.witnessFormulas.insert subject (f, u) }
      s.requireFact (.witness name w) f

/-- Adds witnesses for good. -/
def addWitnesses (s : State) (ws : List (Witness × Term)) : State × Option Clause :=
  ws.foldl (fun (s, conflict) (w, subject) =>
    let (s, c) := s.addWitness w subject
    (s, conflict.or c)) (s, none)

/-- Chooses a truth value for an atomic formula, which may be new. -/
def split (s : State) (formula : Term) (first : Bool) : State × Option Clause :=
  let (s, l) := s.addFormula formula
  if s.trail.isOpen l then (s.choose (if first then l else l.opposite), none) else (s, none)

/-- The clause that some literals cannot all hold. -/
def conflictClause (s : State) (literals : List Term) (r : Refutation) : Clause :=
  let ls := literals.filterMap fun t => (s.formulas.find? t).map Lit.opposite
  ⟨ls.eraseDups.toArray, .leaf r, []⟩

end State

/-- Explores a state, in which a clause may have become false. The first number bounds the depth of searches
within searches, the second the number of steps, of which those left are given back. -/
def explore (nested : Nat → State × Option Clause → Outcome × Nat) :
    Nat → State × Option Clause → Outcome × Nat
  | 0, _ => (.unknown, 0)
  | budget + 1, (s, conflict) =>
    match conflict.map s.resolve with
    | some (.next s) => explore nested budget (s, none)
    | some (.refuted s d uses) =>
      match d.refutation? s.formulas s.facts uses with
      | some r => (.refuted r, budget)
      | none => (.unknown, budget)
    | some .unknown => (.unknown, budget)
    | none =>
    match s.settle 1000 with
    | (s, .conflict c) => explore nested budget (s, some c)
    | (_, .unknown) => (.unknown, budget)
    | (s, .calm) =>
      let walk := s.walk
      match s.choice? walk with
      | some l => explore nested budget (s.choose l, none)
      | none =>
        let v := s.view walk
        match v.step with
        | .laws ls => explore nested budget (s.addLaws ls)
        | .witnesses ws => explore nested budget (s.addWitnesses ws)
        | .split formula first => explore nested budget (s.split formula first)
        | .conflict literals r => explore nested budget (s, some (s.conflictClause literals r))
        | .candidate c =>
          let defaults := v.goals.any Term.dividesBound
          match v.checkInstances c nested budget with
          | (.hold, left) => (.found (c.model v.freshName defaults fun _ => true), left)
          | (.violated q t, left) =>
            let left := min left budget
            match v.missingFloor? q with
            | some a => explore nested left (s.addWitnesses [(.floor a, a)])
            | none =>
              if instanceLimit ≤ v.instances then explore nested left s.surrender
              else explore nested left (s.addLaws [.instantiation q t])
          | (.unknown, left) => explore nested (min left budget) s.surrender
        | .model m => (.found m, budget)
        | .stuck => explore nested budget s.surrender
termination_by budget => budget

/-! ## Decisions -/

/-- What is known of a formula. -/
inductive Decision where
  /-- It holds under every assignment. -/
  | valid
  /-- It fails under an assignment. -/
  | refuted (m : Model)
  | undecided

namespace Term

/-- The number of steps of a search. -/
def searchLimit : Nat := 20000

/-- The depth of searches within searches. -/
def searchDepth : Nat := 4

/-- Explores a state with searches within it. -/
def exploreNested : Nat → Nat → State × Option Clause → Outcome × Nat
  | 0, budget, _ => (.unknown, budget)
  | depth + 1, budget, s => explore (exploreNested depth) budget s

/-- The model restricted to the constants of a term. -/
def restrictModel (t : Term) (m : Model) : Model :=
  let constants := t.constants
  { m with
    scalars := m.scalars.filter fun p => (p.1, TermSort.basic p.2.sort) ∈ constants
    arrays := m.arrays.filter fun p => (p.1, TermSort.array p.2.1) ∈ constants }

/-- A number from which on the names of new constants are not those of constants in some terms. -/
def firstFresh (ts : List Term) : Nat :=
  let names := ts.flatMap fun t => t.constants.map Prod.fst
  if names.any (·.startsWith "!") then Nat.pow 10 (names.foldl (fun l n => max l n.length) 0) else 0

/-- Tests that a formula fails under a model, whose root is none of the formula's constants. -/
def failsIn (t : Term) (m : Model) : Bool :=
  m.isConsistent && (m.root.all fun p => (p.1, TermSort.real) ∉ t.constants) &&
    match exploreNested searchDepth searchLimit (State.ofModel m [t] (firstFresh (t :: m.facts))) with
    | (.refuted r, _) => r.check (.ofList (t :: m.facts))
    | _ => false

/-- Decides whether a formula holds under every assignment. -/
def decide (t : Term) : Decision :=
  match exploreNested searchDepth searchLimit (State.assuming [] (firstFresh [t]) [.not t]) with
  | (.refuted r, _) => if r.check (.ofList [.not t]) then .valid else .undecided
  | (.found m, _) =>
    let m := t.restrictModel m
    if t.failsIn m then .refuted m else .undecided
  | (.unknown, _) => .undecided

end Term

end Discharge
