import Discharge.Search.Nonlinear.Analysis
import Discharge.Search.Lattice
import Discharge.Search.Instances

/-!
# Steps of the theories

`View.step` says what to do when the pinned formulas are settled and the bounds have a solution: ask for laws or
witnesses that the solution violates, split, or offer a candidate that makes all goals true as far as they
have no quantifiers.
-/

namespace Discharge

/-! ## Products

The solution of the bounds takes no account of what a product has to do with its factors. `View.checkProducts` looks at
the groups of atoms that products link together. Where a product has a wrong value, it finds literals of the group that
cannot all hold, or other values for the atoms of the group.
-/

/-- What has been found out about products. -/
inductive ProductCheck where
  /-- All products have the values of their factors. -/
  | respected
  /-- The literals cannot all hold. -/
  | conflict (literals : List Term) (r : Refutation)
  /-- The literals hold for other values, which the view has been given as far as they are rational, and else to many
  places. -/
  | values (v : View) (f : Valuation)
  | unknown

/-- The depth of case distinctions. -/
def analysisDepth : Nat := 12

/-- The number of cases that are looked at. -/
def analysisLimit : Nat := 100

namespace View

/-- Whether all monomials of a problem have the values of their factors in the solution. -/
def respects (v : View) (p : Problem) : Bool :=
  p.conditions.all fun c =>
    (Problem.statement? c.literal).all fun (q, _) =>
      q.all fun (m, _) => m.length ≤ 1 || v.monomial m = m.foldl (fun x t => x * v.number t) 1

/-- Analyses a problem. -/
def analyse (p : Problem) : Finding := (Case.analyse analysisDepth analysisLimit (.ofProblem p)).1

/-- The values that solutions of problems give to atoms. At most one of them has a root. -/
def solutionValues (solutions : List (Problem × Solution)) : Std.HashMap Term Datum :=
  solutions.foldl (fun (values : Std.HashMap Term Datum) (p, x) =>
    p.atoms.toList.zipIdx.foldl (fun (values : Std.HashMap Term Datum) (t, i) =>
      values.insert t (x.values.getD i (.number 0))) values) ∅

/-- The view and the valuation that solutions of problems give. -/
def withSolutions (v : View) (solutions : List (Problem × Solution)) : View × Valuation :=
  let root := (solutions.findSome? fun (_, x) => x.root).map (Root.narrow (mkRat 1 (Nat.pow 10 12)) 400)
  let values := solutionValues solutions
  let r := root.getD ⟨[0, 1], 0, 0⟩
  let middle := (r.low + r.high) / 2
  let given := values.fold (fun (given : Std.HashMap Term Rat) t d =>
    given.insert t (match d with
      | .number q => q
      | .algebraic p => Univariate.evaluate p middle
      | .truth _ => 0)) ∅
  let v := { v with given := given }
  let atom := fun (t : Term) =>
    match values[t]? with
    | some d => d
    | none => .number (v.atom t)
  (v, ⟨root, fun t =>
    t.polynomial.foldl (fun s (m, c) => s.add r (m.foldl (fun x a => x.mul r (atom a)) (.number c))) (.number 0)⟩)

/-- The literals of a problem that a refutation uses. -/
def usedLiterals (p : Problem) (r : Refutation) : List Term :=
  let used := r.literals
  (p.conditions.map (·.literal)).filter used.contains

/-- Finds out whether products may have the values of their factors. -/
def checkProducts (v : View) : ProductCheck :=
  let wrong := v.problems.filter fun p => !v.respects p
  if wrong.isEmpty then .respected
  else
    let findings := wrong.map fun p => (p, analyse p)
    let conflict := findings.findSome? fun (p, finding) =>
      match finding with
      | .refuted r => some (usedLiterals p r, r)
      | _ => none
    match conflict with
    | some (literals, r) => .conflict literals r
    | none =>
      let solutions := findings.filterMap fun (p, finding) =>
        match finding with
        | .solved x => some (p, x.simplified)
        | _ => none
      if solutions.length < findings.length then .unknown
      else if (solutions.filter fun (_, x) => x.root.isSome).length ≤ 1 then
        let (v, f) := v.withSolutions solutions
        .values v f
      else
        -- several groups need a root: they have to share one
        let atoms := wrong.flatMap (·.atoms.toList)
        let all := Problem.ofLiterals atoms (wrong.flatMap fun p => p.conditions.map (·.literal))
        match analyse all with
        | .refuted r => .conflict (usedLiterals all r) r
        | .solved x =>
          let (v, f) := v.withSolutions [(all, x.simplified)]
          .values v f
        | .unknown => .unknown

end View

/-! ## Steps -/

/-- What to do next. -/
inductive Move where
  | laws (ls : List Law)
  | witnesses (ws : List (Witness × Term))
  /-- Tries a truth value of an atomic formula. -/
  | split (atom : Term) (first : Bool)
  /-- The literals cannot all hold. -/
  | conflict (literals : List Term) (r : Refutation)
  /-- All goals are true under the candidate, apart from quantifiers. -/
  | candidate (c : Candidate)
  /-- All goals are true under the model. -/
  | model (m : Model)
  | stuck

namespace View

/-- Whether a candidate makes all goals true. -/
def satisfies (v : View) (c : Candidate) : Bool :=
  v.goals.all fun g => (c.value v.truth? [] g).bind Value.truth? == some true

/-- The literals that require something of all instances of a quantifier. What is said of known functions is left
out. -/
def requirements (v : View) : List (Term × Bool) :=
  v.literals.filterMap fun (t, holds) =>
    if v.known.any fun k => k.pieces.any (·.2 == t) then none
    else (requiredOfAll? t holds).map fun required => (t, required)

/-- The constants that a candidate gives values to. -/
def constants (v : View) : List (String × TermSort) :=
  (v.goals.flatMap Term.constants ++ v.parts.flatMap Term.constants ++
    v.witnesses.flatMap (·.2.constants)).eraseDups

/-- A datum of an element sort: the given one if it is of that sort, else zero or false. -/
def datumFor (e : BasicSort) (d : Datum) : Datum :=
  match e, d with
  | .bool, .truth b => .truth b
  | .bool, _ => .truth false
  | .int, .number q => .number q.floor
  | .real, .number q => .number q
  | .real, .algebraic p => .algebraic p
  | _, _ => .number 0

/-- The same datum everywhere outside the table. -/
def constantFilling (d : Datum) : Filling := fun e _ => ([], datumFor e d)

/-- Outside the table what it holds at its greatest index, or at its least one. -/
def endFilling (greatest : Bool) : Filling := fun e entries =>
  let best := entries.foldl (fun (best : Option (Int × Datum)) x =>
    match best with
    | none => some x
    | some y => if (if greatest then y.1 < x.1 else x.1 < y.1) then some x else best) none
  ([], datumFor e ((best.map Prod.snd).getD (.number 0)))

/-- Outside the table what it holds at the next index below, or above, if there is one. -/
def stepFilling (below : Bool) : Filling := fun e entries =>
  let sorted := entries.mergeSort fun x y => x.1 ≤ y.1
  let last := ((sorted.getLast?).map Prod.snd).getD (.number 0)
  let steps :=
    if below then (sorted.zip (sorted.drop 1)).map fun (x, y) => (y.1, datumFor e x.2)
    else sorted.dropLast.map fun x => (x.1 + 1, datumFor e x.2)
  (steps, datumFor e last)

/-- The ways to go on outside tables that are tried: zero or false, what a table holds at an end, what any
table holds, and what a table holds near by. -/
def fillings (v : View) (f : Valuation) : List Filling :=
  let arrays := v.parts.filterMap fun p =>
    match p with
    | .const name (.array e) => some (Term.const name (.array e), e)
    | _ => none
  let held := arrays.flatMap fun (a, e) => (v.entries f a e).map Prod.snd
  [constantFilling (.number 0), endFilling true, endFilling false] ++
    held.eraseDups.map constantFilling ++ [stepFilling true, stepFilling false]

/-- The number of instances of a quantifier that are pinned. -/
def instanceCount (v : View) (q : Term) : Nat :=
  v.pinned.fold (fun n f =>
    match f with
    | .app .implies p r => if p == q || r == q then n + 1 else n
    | _ => n) 0

/-- The number of instances of quantifiers that are pinned. -/
def instances (v : View) : Nat :=
  v.pinned.fold (fun n f =>
    match f with
    | .app .implies p r => if p.isQuantified || r.isQuantified then n + 1 else n
    | _ => n) 0

/-- The number of requirements that a candidate violates at terms that are near at hand. -/
def violationCount (v : View) (c : Candidate) : Nat :=
  let indices := v.indices
  v.requirements.countP fun (q, required) => (v.violation? indices c q required).isSome

/-- Of the candidates of a valuation that make all goals true one that violates the fewest requirements, with each
further instance another one; if there is none, the first candidate. -/
def bestCandidate (v : View) (f : Valuation) : Candidate × Bool :=
  let constants := v.constants
  let candidates := (v.fillings f).map fun d => v.candidate f constants d
  let good := (candidates.filter v.satisfies).map fun c => (c, v.violationCount c)
  let least := good.foldl (fun m p => min m p.2) v.requirements.length
  let best := good.filter fun p => p.2 = least
  match best[v.instances % best.length]?, candidates with
  | some p, _ => (p.1.complete (v.goals.flatMap Term.parts), true)
  | none, c :: _ => (c, false)
  | none, [] => (default, false)

/-- A split, unless its formula has been decided. -/
def newSplit? (v : View) (formula : Term) (first : Bool) : Option Move :=
  if v.isDecided formula then none else some (.split formula first)

/-- A split on a quantifier that is a value in an array. -/
def quantifierSplit? (v : View) : Option Move :=
  v.parts.findSome? fun p => if p.isQuantified then v.newSplit? p true else none

/-- Laws to ask for, unless there are none. -/
def lawMove? (ls : List Law) : Option Move := if ls.isEmpty then none else some (.laws ls)

/-- Laws of reading that are missing whatever the values are. -/
def repairReads? (v : View) : Option Move := (lawMove? v.wrongReads).or (lawMove? v.missingReads)

/-- The move to make when no candidate makes all goals true. -/
def repair? (v : View) (c : Candidate) : Option Move :=
  v.repairReads?.or <| (lawMove? v.missingQuotients).or <|
    (lawMove? v.missingCongruences).or <| (lawMove? (v.missingEquality? c).toList).or <|
    (v.quantifierSplit?).or (lawMove? v.missingComparison?.toList)

/-- Whether a monomial stands for an integer. -/
def isInteger (v : View) (k : Nat) : Bool := (v.monomials.getD k []).all (·.sortOf = .int)

/-- The formula `form ≤ bound`. -/
def splitFormula (v : View) (s : Lattice.Split) : Term :=
  let p : Polynomial := s.form.map fun (k, c) => (v.monomials.getD k [], (c : Rat))
  .app .le (Term.ofIntegerPolynomial p) (.int s.bound)

/-- A split that makes products of integers integers. -/
def furtherSplit? (v : View) : Option Move :=
  (Lattice.split? v.monomials.size v.isInteger (v.rows.map Prod.snd) v.values).map fun s =>
    .split (v.splitFormula s) true

/-- What to do when the pinned formulas are settled and the bounds have a solution. -/
def step (v : View) : Move :=
  let witnesses := v.missingWitnesses
  let divisions := v.missingDivisions
  if !witnesses.isEmpty then .witnesses witnesses
  else if !divisions.isEmpty then .laws divisions
  else
    let count := v.monomials.size
    let isProduct := fun k => 1 < (v.monomials.getD k []).length
    let isIntAtom := fun k => v.isInteger k && !isProduct k
    let rows := v.rows.map Prod.snd
    match Lattice.split? count isIntAtom rows v.values with
    | some s => .split (v.splitFormula s) true
    | none =>
      let laws := v.coincidences
      if !laws.isEmpty then .laws laws
      else
        let (c, good) := v.bestCandidate v.valuation
        if good then .candidate c
        else
          match v.repairReads? with
          | some m => m
          | none =>
            match v.checkProducts with
            | .conflict literals r => .conflict literals r
            | .values w f =>
              let (d, good) := w.bestCandidate f
              if good then .candidate d else ((w.repair? d).or (v.repair? c)).getD .stuck
            | .respected => ((v.repair? c).or v.furtherSplit?).getD .stuck
            | .unknown => (v.repair? c).getD .stuck

end View

end Discharge
