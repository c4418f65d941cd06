import Discharge.Search.Candidate
import Discharge.Search.Nonlinear.Equations
import Discharge.Search.Nonlinear.Line
import Discharge.Search.Nonlinear.Polynomials

/-!
# Solutions and sample points

`System.solve` looks for values of unknowns that meet conditions. It gives one unknown after the other a value: for each
part of the line into which the projection of all polynomials cuts it a sample, and the cuts themselves. A cut that is
not rational becomes an equation. What is left in the end has finitely many solutions.
-/

namespace Discharge

/-! ## Solutions of equations

Equations that leave only finitely many values to their unknowns are solved in one step: the remainders of
polynomials make up a space of finite dimension, some combination of the unknowns takes different values at different
solutions, and the unknowns are polynomials in it. `Equations.solutions?` gives the real roots of the polynomial of
least degree that this combination annihilates, with the values of the unknowns there.
-/

/-- Values of unknowns as polynomials in a root. -/
structure Solution where
  root : Option Root
  values : Array Datum
deriving Inhabited

namespace Solution

/-- The root; zero if there is none. -/
def rootValue (s : Solution) : Root := s.root.getD ⟨[0, 1], 0, 0⟩

/-- The value of a polynomial. -/
def evaluate (s : Solution) (p : MultiPolynomial) : Datum :=
  let r := s.rootValue
  p.foldl (fun q (m, c) =>
    q.add r (m.zipIdx.foldl (fun v (e, i) =>
      (List.range e).foldl (fun v _ => v.mul r (s.values.getD i (.number 0))) v) (.number c))) (.number 0)

/-- The sign of a polynomial. -/
def sign (s : Solution) (p : MultiPolynomial) : Int := (s.evaluate p).sign s.rootValue

/-- The solution with a divisor of the root's polynomial that still vanishes there. -/
def withDivisor (s : Solution) (r : Root) (g : List Rat) : Solution :=
  let r := { r with coefficients := Univariate.primitive g }
  { root := some r
    values := s.values.map fun d =>
      match d with
      | .algebraic p => .ofPolynomial r p
      | d => d }

/-- The solution with a divisor of the root's polynomial such that a polynomial which vanishes at the root is a multiple
of it. -/
def vanishing (s : Solution) (q : List Rat) : Solution :=
  match s.root with
  | none => s
  | some r => if r.isRootOf q then s.withDivisor r (Univariate.gcd r.coefficients q) else s

/-- The solution in which rational values are given as such, and equal values by the same polynomials. -/
def simplified (s : Solution) : Solution :=
  match s.root with
  | none => s
  | some r =>
    let s := { s with root := some (Root.narrow (mkRat 1 (Nat.pow 10 12)) 400 r) }
    let s := s.values.foldl (fun (s : Solution) d =>
      match s.root, d with
      | some r, .algebraic p =>
        match Datum.rationalValue? r p (Datum.annihilator r p) with
        | some q => s.vanishing (Univariate.sub p [q])
        | none => s
      | _, _ => s) s
    s.values.foldl (fun (s : Solution) d =>
      s.values.foldl (fun (s : Solution) e => s.vanishing (Univariate.sub d.coefficients e.coefficients)) s) s

end Solution

/-- Remainders as combinations of powers: rows with different leading monomials, each with the combination that it
is. -/
abbrev PowerRows := List (MultiPolynomial × List Rat)

namespace PowerRows

/-- What is left of a polynomial after the rows have been taken off, and the combination that has been taken. -/
def reduce (rows : PowerRows) (p : MultiPolynomial) : MultiPolynomial × List Rat :=
  rows.foldl (fun (rest, taken) (row, source) =>
    match row with
    | (m, c) :: _ =>
      match rest.find? (·.1 == m) with
      | some (_, d) =>
        (rest.sub (row.scale (d / c)), Univariate.add taken (Univariate.scale (d / c) source))
      | none => (rest, taken)
    | [] => (rest, taken)) (p, [])

/-- Adds powers of an element until one is a combination of those before; gives the polynomial that it is a root of.
Rows are kept so that each is reduced by those before it. -/
def powers (es : Equations) (x : MultiPolynomial) : Nat → MultiPolynomial → List Rat → PowerRows →
    Option (PowerRows × List Rat)
  | 0, _, _, _ => none
  | fuel + 1, power, unit, rows =>
    let (rest, taken) := rows.reduce power
    let combination := Univariate.sub unit taken
    if rest.isEmpty then some (rows, combination)
    else powers es x fuel (es.remainder (power.mul x)) (0 :: unit) (rows ++ [(rest, combination)])

end PowerRows

namespace Equations

/-- Whether each of some unknowns has only finitely many values. -/
def isFinite (es : Equations) (unknowns : List Nat) : Bool :=
  es.isComplete && unknowns.all fun i => es.basis.any fun b =>
    match b.poly with
    | (m, _) :: _ => m.unknowns == [i]
    | [] => false

/-- The most solutions that are looked for. -/
def solutionLimit : Nat := 24

/-- The polynomial of least degree that annihilates an unknown. -/
def minimal? (es : Equations) (x : MultiPolynomial) : Option (PowerRows × List Rat) :=
  PowerRows.powers es x (solutionLimit + 1) (.const 1) [1] []

/-- Equations with the polynomials of unknowns that have simple roots added, so that no solution is counted more
than once. -/
def simplified (es : Equations) (unknowns : List Nat) : Equations :=
  let further := unknowns.filterMap fun i =>
    match es.minimal? (.unknown i) with
    | some (_, p) =>
      let q := Univariate.squareFree p
      if q.length < (Univariate.trim p).length then some (MultiPolynomial.ofUnivariate i q) else none
    | none => none
  if further.isEmpty then es
  else .ofPolynomials (fun _ => .real) (es.solved.map (·.equation.poly) ++ es.basis.map (·.poly) ++ further)

/-- Combinations of unknowns that may take different values at different solutions. -/
def generators (unknowns : List Nat) : List MultiPolynomial :=
  let weighted := fun (weights : Nat → Rat) =>
    MultiPolynomial.sum (unknowns.mapIdx fun k i => (MultiPolynomial.unknown i).scale (weights k))
  unknowns.map MultiPolynomial.unknown ++
    (if unknowns.length = 1 then []
    else (List.range 6).map fun (k : Nat) => weighted fun j => (Nat.pow (k + 1) j : Rat))

/-- The unknowns as polynomials in a combination of them, with the polynomial that annihilates it. -/
def parametrization? (es : Equations) (unknowns all : List Nat) : Option (List Rat × List (Nat × List Rat)) :=
  (generators unknowns).findSome? fun x =>
    match es.minimal? x with
    | none => none
    | some (rows, p) =>
      let values := all.mapM fun i =>
        let (rest, taken) := PowerRows.reduce rows (es.remainder (.unknown i))
        if rest.isEmpty then some (i, taken) else none
      values.map fun values => (p, values)

/-- The solutions in real numbers of equations with finitely many of them. `count` is the number of all unknowns. -/
def solutions? (es : Equations) (count : Nat) (unknowns : List Nat) : Option (List Solution) :=
  if !es.isFinite unknowns then none
  else
    let es := es.simplified unknowns
    if es.isContradictory then some []
    else
      let left := unknowns.filter fun i => es.solved.all (·.unknown ≠ i)
      match es.parametrization? left (left ++ es.solved.map (·.unknown)) with
      | none => none
      | some (p, values) =>
        some ((Roots.all p).map fun x =>
          let datum := fun (q : List Rat) =>
            match x with
            | .inl a => .number (Univariate.evaluate q a)
            | .inr r => Datum.ofPolynomial r q
          { root := match x with
              | .inl _ => none
              | .inr r => some r
            values := ((List.range count).map fun i =>
              ((values.find? (·.1 == i)).map fun v => datum v.2).getD (.number 0)).toArray })

end Equations

/-! ## Sample points -/

/-- Conditions on polynomials, with the consequences of the equations among them. -/
structure System where
  count : Nat
  isInteger : Nat → Bool
  equations : Equations
  conditions : List (MultiPolynomial × SignCondition)

namespace System

/-- The system of all conditions. -/
def ofConditions (count : Nat) (isInteger : Nat → Bool) (cs : List (MultiPolynomial × SignCondition)) :
    System :=
  let es := Equations.ofPolynomials (fun i => if isInteger i then .integer else .real) (cs.filterMap fun (p, sign) =>
    if sign = .zero then some p else none)
  let others := cs.filter fun (_, sign) => sign ≠ .zero
  ⟨count, isInteger, es, others.map fun (p, sign) => (es.remainder p, sign)⟩

/-- The system with further conditions. -/
def assume (s : System) (cs : List (MultiPolynomial × SignCondition)) : System :=
  let old := s.equations.solved.map (·.equation.poly) ++ s.equations.basis.map (·.poly)
  ofConditions s.count s.isInteger (old.map (fun p => (p, .zero)) ++ s.conditions ++ cs)

/-- Whether conditions that have become numbers do not hold. -/
def isContradictory (s : System) : Bool :=
  s.equations.isContradictory ||
    (s.conditions.any fun (p, sign) =>
      match p.constant? with
      | some k => !sign.admits (Univariate.signOf k)
      | none => false) ||
    s.equations.solved.any fun e =>
      s.isInteger e.unknown &&
        match e.value.constant? with
        | some k => k.den ≠ 1
        | none => false

/-- The unknowns without a value that anything is said of, or that other values depend on. -/
def openUnknowns (s : System) : List Nat :=
  let ps := s.equations.basis.map (·.poly) ++ s.conditions.map Prod.fst ++ s.equations.solved.map (·.value)
  ((ps.flatMap MultiPolynomial.unknowns).eraseDups).mergeSort (· ≤ ·)

/-- Whether a solution meets all conditions, and gives integers to unknowns that stand for integers. -/
def accepts (s : System) (x : Solution) : Bool :=
  (s.conditions.all fun (p, sign) => sign.admits (x.sign p)) &&
    (List.range s.count).all fun i =>
      !s.isInteger i ||
        match x.values.getD i default with
        | .number q => q.den = 1
        | _ => false

/-- The conditions on one unknown alone. -/
def line (s : System) (i : Nat) : List LineCondition :=
  (s.equations.basis.map (fun b => (b.poly, SignCondition.zero)) ++ s.conditions).filterMap fun (p, sign) =>
    if p.unknowns = [i] then some ⟨p.toUnivariate i, sign, none⟩ else none

/-- Integers of each part between cuts, with a bounded number of them. -/
def integersBetween : List Int → List Int
  | a :: b :: rest =>
    let first := (List.range (min 30 (b - a).toNat)).map fun (k : Nat) => a + 1 + k
    let last := if b - a ≤ 30 then [] else (List.range 10).map fun (k : Nat) => b - k
    first ++ last ++ integersBetween (b :: rest)
  | _ => []

/-- Integers near the cuts. -/
def integerSamples (cuts : List Int) : List Int :=
  let all :=
    match cuts, cuts.getLast? with
    | first :: _, some last =>
      ((List.range 12).map fun (k : Nat) => first - k) ++ integersBetween cuts ++
        (List.range 12).map fun (k : Nat) => last + 1 + k
    | _, _ => (List.range 25).map fun (k : Nat) => (k : Int) - 12
  all.mergeSort fun a b => a.natAbs ≤ b.natAbs

/-- The order in which samples are tried: rationals with small denominators first. -/
def isSimpler : LinePoint → LinePoint → Bool
  | .inl a, .inl b => a.den < b.den || (a.den = b.den && a.num.natAbs ≤ b.num.natAbs)
  | .inl _, .inr _ => true
  | .inr _, .inl _ => false
  | .inr a, .inr b => a.coefficients.length ≤ b.coefficients.length

/-- Points to try for an unknown. -/
def samples (s : System) (i : Nat) : List LinePoint :=
  let cs := s.line i
  let ps := s.equations.basis.map (·.poly) ++ s.conditions.map Prod.fst
  let cuts := cs.map (·.poly) ++ MultiPolynomial.projectTo i (s.count + 1) ps
  let all :=
    if s.isInteger i then (integerSamples (Line.cuts cuts)).map fun (k : Int) => .inl k
    else Line.parts cuts
  (all.filter fun x => cs.all (Line.holdsAt x)).mergeSort isSimpler

/-- The system in which an unknown has a value. -/
def assign (s : System) (i : Nat) : LinePoint → System
  | .inl q => s.assume [((MultiPolynomial.unknown i).sub (.const q), .zero)]
  | .inr r =>
    let x := MultiPolynomial.unknown i
    s.assume [(.ofUnivariate i r.coefficients, .zero), (x.sub (.const r.low), .positive),
      ((MultiPolynomial.const r.high).sub x, .positive)]

/-- The smallest of some weighted numbers. -/
def lightest (weight : Nat → Nat) (is : List Nat) : Option Nat :=
  (is.foldl (fun (best : Option (Nat × Nat)) i =>
    match best with
    | some (_, w) => if weight i < w then some (i, weight i) else best
    | none => some (i, weight i)) none).map Prod.fst

/-- An unknown to sample next, if not all have finitely many values: an integer with few samples first, and none that
has an equation of its own. -/
def nextUnknown? (s : System) (unknowns : List Nat) : Option Nat :=
  let free :=
    if s.equations.isFinite unknowns then []
    else unknowns.filter fun i => !s.equations.basis.any fun b => b.poly.unknowns == [i]
  let degree := fun (i : Nat) =>
    (s.equations.basis.map (·.poly) ++ s.conditions.map Prod.fst).foldl (fun n p => n + p.degreeIn i) 0
  match free.filter s.isInteger with
  | [] => lightest (fun i => 1000 - degree i) free
  | [i] => some i
  | integers => lightest (fun i => (s.samples i).length) (integers.take 3)

/-- Tries systems one after the other. Numbers of steps that are left are handed on. -/
def firstOf (run : Nat → System → Option Solution × Nat) : Nat → List System → Option Solution × Nat
  | budget, [] => (none, budget)
  | budget, s :: rest =>
    if budget = 0 then (none, 0)
    else
      match run budget s with
      | (some x, left) => (some x, left)
      | (none, left) => firstOf run left rest

/-- Looks for a solution. The first number bounds the unknowns that are sampled, the second the systems that are looked
at. -/
def solveFrom : Nat → Nat → System → Option Solution × Nat
  | 0, budget, _ => (none, budget)
  | depth + 1, budget, s =>
    let budget := budget - 1
    if s.isContradictory then (none, budget)
    else
      let unknowns := s.openUnknowns
      match s.nextUnknown? unknowns with
      | some i => firstOf (solveFrom depth) budget ((s.samples i).map (s.assign i))
      | none =>
        match s.equations.solutions? s.count unknowns with
        | some xs => (xs.find? s.accepts, budget)
        | none => (none, budget)

/-- Looks for a solution among a number of systems. -/
def solve (s : System) (budget : Nat) : Option Solution := (solveFrom (s.count + 2) budget s).1

end System

end Discharge
