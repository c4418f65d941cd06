import Discharge.Search.Lattice
import Discharge.Search.Nonlinear.Certificate
import Discharge.Search.Nonlinear.Samples

/-!
# Analysis of polynomial problems

`Case.analyse` refutes a case or finds values that meet all its conditions. It looks for a refutation by conditions on
one unknown, by products of conditions, and for sample points; where that is not enough it distinguishes further
cases: whether a number vanishes that is neither positive nor negative, the values of an integer or its remainders, and
the sides of a cut at which the signs of polynomials change.
-/

namespace Discharge

/-- What has been found out about a case. -/
inductive Finding where
  | refuted (r : Refutation)
  | solved (x : Solution)
  | unknown
deriving Inhabited

namespace Finding

/-- The finding of a refutation, if there is one. -/
def ofRefutation? (r : Option Refutation) : Option Finding := r.map .refuted

end Finding

namespace Case

/-- The conditions of a case as a system. -/
def system (c : Case) : System :=
  .ofConditions c.problem.atoms.size c.isInteger (c.problem.conditions.map fun d => (d.poly, d.sign))

/-- A solution among a number of sample points. -/
def sample? (c : Case) (budget : Nat) : Option Finding :=
  match c.system.solve budget with
  | some x =>
    if c.problem.conditions.all fun d => d.sign.admits (x.sign d.poly) then some (.solved x) else none
  | none => none

/-- The degree of the conditions. -/
def degree (c : Case) : Nat :=
  let d := c.equations.basis.foldl (fun d b => max d b.poly.degree) 1
  c.conditions.foldl (fun d e => max d e.remainder.degree) d

/-- The refutation by sums of conditions. -/
def linear? (c : Case) : Option Refutation := c.certificate? ⟨c.degree, 0, 0, 0, 1, 400⟩

/-- The numbers of two conditions that bound the same polynomial from both sides, with a factor of the second that makes
their sum zero. -/
def squeeze? (c : Case) : Option (Nat × Nat × Rat) :=
  let isBound := fun (d : CaseCondition) =>
    (d.sign = .nonneg || d.sign = .positive) && !d.remainder.isEmpty && d.remainder.constant?.isNone
  let leading := fun (p : MultiPolynomial) => ((p.head?).map Prod.snd).getD 1
  (List.range c.conditions.size).findSome? fun i =>
    let a := c.conditions.getD i default
    if !isBound a then none
    else
      (List.range i).findSome? fun j =>
        let b := c.conditions.getD j default
        let factor := -(leading a.remainder / leading b.remainder)
        if isBound b && 0 < factor && (a.remainder.add (b.remainder.scale factor)).isEmpty then some (i, j, factor)
        else none

/-- The formula that a polynomial vanishes. -/
def vanishes (c : Case) (p : MultiPolynomial) : Term :=
  let t := c.problem.term p
  .app .eq t (Term.zeroOf t.sortOf)

/-- The most values of an integer that are looked at one by one. -/
def rangeLimit : Nat := 60

/-- The values that the conditions on an integer alone leave, if they are few. -/
def range? (c : Case) (i : Nat) : Option (List Int) :=
  let cs := c.line i
  match Line.cuts (cs.map (·.poly)) with
  | [] => none
  | first :: rest =>
    let last := rest.getLastD first
    let holds := fun (k : Int) => cs.all (Line.holdsAt (.inl k))
    if holds first || holds (last + 1) || rangeLimit < (last - first).toNat then none
    else
      some (((List.range (last - first).toNat).map fun (k : Nat) => first + 1 + k).filter holds)

/-- The integer with the fewest values. -/
def smallestRange? (c : Case) : Option (Nat × List Int) :=
  (c.unknowns.filter c.isInteger).foldl (fun best i =>
    match c.range? i, best with
    | some ks, some (_, ls) => if ks.length < ls.length then some (i, ks) else best
    | some ks, none => some (i, ks)
    | none, _ => best) none

/-- The polynomials of a case. -/
def polynomials (c : Case) : List MultiPolynomial :=
  c.equations.basis.map (·.poly) ++ c.conditions.toList.map (·.remainder)

/-- The projection of a case to one unknown, without the conditions on this unknown alone. -/
def projection (c : Case) (i : Nat) : List (List Rat) :=
  let own := (c.line i).map fun d => Univariate.primitive d.poly
  (MultiPolynomial.projectTo i (c.problem.atoms.size + 1) c.polynomials).filter fun p =>
    let p := Univariate.primitive p
    !own.contains p && !own.contains (Univariate.scale (-1) p)

/-- A leading coefficient in several unknowns of which it is not known whether it is positive, negative or zero, as two
terms to compare. -/
def openCoefficient? (c : Case) : Option (Term × Term) :=
  c.polynomials.findSome? fun p =>
    p.unknowns.findSome? fun i =>
      let q := (p.leadingIn i).primitive
      if q.unknowns.length < 2 || 2 < q.degree then none
      else
        let t := c.problem.term q
        let zero := Term.zeroOf t.sortOf
        let isKnown := c.conditions.any fun e => e.literal == .app .lt t zero || e.literal == .app .lt zero t
        if isKnown then none else some (t, zero)

/-- A divisor of which it is not known whether it is positive, negative or zero, as two terms to compare. -/
def openDenominator? (c : Case) : Option (Term × Term) :=
  (List.range c.problem.atoms.size).findSome? fun i =>
    match c.divisor? i with
    | some (b, q) =>
      let isKnown := q.constant?.isSome || c.conditions.any fun d =>
        (d.sign = .positive || d.sign = .nonneg) && d.remainder.primitive == q
      if isKnown then none else some (b, Term.zeroOf b.sortOf)
    | none => none

/-- A cut between integers with possible values on both sides. -/
def integerCut? (c : Case) : Option (Nat × Int) :=
  (c.unknowns.filter c.isInteger).findSome? fun i =>
    let cs := c.line i
    let isPossible := fun (k : Int) => cs.all (Line.holdsAt (.inl k))
    let all := Line.cuts (cs.map (·.poly))
    let below := fun (t : Int) => isPossible t || all.any fun u => u < t && isPossible u
    let above := fun (t : Int) => isPossible (t + 1) || all.any fun u => t < u && isPossible (u + 1)
    let good := (Line.cuts (c.projection i)).filter fun t => below t && above t
    (good.mergeSort fun a b => a.natAbs ≤ b.natAbs).head?.map fun t => (i, t)

/-- A cut between reals with possible values on both sides, as a polynomial in one unknown. -/
def realCut? (c : Case) : Option (Nat × List Rat) :=
  (c.unknowns.filter fun i => !c.isInteger i).findSome? fun i =>
    let cs := c.line i
    let further := c.projection i
    let polys := cs.map (·.poly) ++ further
    let parts := Line.parts polys
    let isPossible := fun (x : LinePoint) => cs.all (Line.holdsAt x)
    -- the roots stand at the odd places
    let roots := parts.zipIdx.filterMap fun (x, k) =>
      if k % 2 = 1 && further.any (fun p => Line.signAt p x = 0) then some (x, k) else none
    let good := roots.filter fun (_, k) => (parts.take k).any isPossible && (parts.drop (k + 1)).any isPossible
    let sorted := good.mergeSort fun a b => System.isSimpler a.1 b.1
    sorted.head?.map fun (x, _) => (i, Line.factorAt x polys)

/-- The equations by which integers are equal to polynomials whose coefficients are no integers. -/
def fractionalEquations (c : Case) : List MultiPolynomial :=
  (c.equations.solved.filter fun e =>
    c.isInteger e.unknown && e.value.any fun (_, q) => q.den ≠ 1).map fun e =>
      (MultiPolynomial.unknown e.unknown).sub e.value

/-- A form of monomials that has to be an integer, and a bound that it cannot have for its value, as a formula. -/
def latticeCut? (c : Case) : Option Term :=
  let isIntegral := fun (p : MultiPolynomial) => p.unknowns.all c.isInteger
  let equations := (c.fractionalEquations ++ c.equations.basis.map (·.poly)).filter isIntegral
  let bounds := (c.conditions.toList.filter fun d => d.sign ≠ .nonzero && isIntegral d.remainder).map (·.remainder)
  if equations.isEmpty && bounds.isEmpty then none
  else
    let generator := fun (p : MultiPolynomial) => (⟨[], [], p, false⟩ : Generator)
    let s : MomentSystem := (equations.flatMap fun p => [p, p.scale (-1)]).foldl
      (fun s p => s.add (generator p)) { fuel := 400 }
    match (bounds.foldl (fun s p => s.add (generator p)) s).solve with
    | (_, false) => none
    | (s, true) =>
      let all := (equations ++ bounds).flatMap fun p => (p.map Prod.fst).filter fun m => !m.isEmpty
      let monomials := all.eraseDups.toArray
      let solution := s.tableau.solution
      let values := monomials.map fun m => s.valueOf solution [(m, 1)]
      let row := fun (relation : Relation) (p : MultiPolynomial) =>
        (⟨p.filterMap fun (m, q) => if m.isEmpty then none else some (monomials.idxOf m, q),
          p.foldl (fun s (m, q) => if m.isEmpty then s + q else s) 0, relation⟩ : Row)
      let rows := equations.map (row .zero) ++ bounds.map (row .nonneg)
      match Lattice.cut? monomials.size (fun _ => true) rows values with
      | none => none
      | some split =>
        let form : MultiPolynomial := .sum (split.form.map fun (k, q) => [(monomials.getD k [], (q : Rat))])
        some (.app .le (c.problem.term form) (.int split.bound))

/-- The numbers for which the remainders of unknowns are looked at: coefficients of unknowns that occur only by
themselves. With each of them the unknowns that occur in other monomials. -/
def moduli (c : Case) : List (Nat × List Nat) :=
  let all := (c.fractionalEquations ++ c.polynomials).filter fun p => p.unknowns.all c.isInteger
  (all.flatMap fun p =>
    let p := p.primitive
    p.filterMap fun (m, q) =>
      match m.unknowns with
      | [i] =>
        let modulus := q.num.natAbs
        if m.exponent i = 1 && 2 ≤ modulus && modulus ≤ 16 &&
            p.all (fun (n, _) => n == m || n.exponent i = 0) then
          let others := (p.filter fun (_, d) => d.num % (modulus : Int) ≠ 0).flatMap fun (n, _) => n.unknowns
          if others.isEmpty || p.degree < 2 then none else some (modulus, others.eraseDups)
        else none
      | _ => none).eraseDups

/-- The law of a division by a number with its parts: the identity and the bounds of the remainder. -/
def divisionParts (a : Term) (m : Nat) : List Term :=
  let q := Term.app .idiv a (.int m)
  let r := Term.app .mod a (.int m)
  [.app .eq a (.app .add (.app .mul (.int m) q) r), .app .le (.int 0) r, .app .lt r (.int m)]

/-- The case with quotient and remainder of an unknown by a number. -/
def divide (c : Case) (i m : Nat) : Case :=
  let a := c.atom i
  let further := [Term.app .idiv a (.int m), .app .mod a (.int m)].filter fun t => !c.problem.atoms.contains t
  let p := { c.problem with atoms := c.problem.atoms ++ further.toArray }
  ({ c with problem := p } : Case).assumeAll (divisionParts a m)

/-- The refutation of a case from one of the case with quotient and remainder. -/
def withDivision (c : Case) (i m : Nat) (r : Refutation) : Option Refutation :=
  let a := c.atom i
  let l := Law.division a (.int m)
  l.formula?.map fun f =>
    .law l ((divisionParts a m).foldr (fun literal rest => .split literal rest (.clash f)) r)

/-- The refutations that are found soon without a distinction of cases. -/
def direct? (c : Case) : Option Refutation :=
  c.immediate?.or <| (c.unknowns.findSome? c.refuteLine?).or <| c.linear?.or <|
    c.certificate? ⟨max 2 c.degree, 60, 8, 8, 12, 150⟩

/-- Further refutations and solutions, with more work. -/
def further? (c : Case) : Option Finding :=
  let d := max 2 c.degree
  (Finding.ofRefutation? (c.certificate? ⟨d, 200, 16, 16, 40, 400⟩)).or <|
  (c.sample? 150).or <|
  Finding.ofRefutation? (c.certificate? ⟨d + 2, 200, 16, 16, 40, 400⟩)

/-- A distinction of two cases. -/
def distinguish (run : Nat → Case → Finding × Nat) (budget : Nat) (c : Case) (literal : Term)
    (no : Nat → Finding × Nat) : Finding × Nat :=
  match run budget (c.assume literal) with
  | (.solved x, left) => (.solved x, left)
  | (.refuted r, left) =>
    match no left with
    | (.refuted s, left) => (.refuted (.split literal r s), left)
    | other => other
  | (.unknown, left) =>
    match no left with
    | (.solved x, left) => (.solved x, left)
    | (_, left) => (.unknown, left)

/-- A distinction of the cases that a literal holds and that it does not. -/
def distinguishBoth (run : Nat → Case → Finding × Nat) (budget : Nat) (c : Case) (literal : Term) :
    Finding × Nat :=
  c.distinguish run budget literal fun left => run left (c.assume (.not literal))

/-- Looks at the values of an integer one after the other. There is no further value. -/
def enumerate (run : Nat → Case → Finding × Nat) (i : Nat) : Nat → Case → List Int → Finding × Nat
  | budget, c, [] =>
    match c.refuteLine? i with
    | some r => (.refuted r, budget)
    | none => (.unknown, budget)
  | budget, c, k :: ks =>
    let f := Term.app .eq (c.atom i) (.int k)
    c.distinguish run budget f fun left => enumerate run i left (c.assume (.not f)) ks

/-- The cases that two terms are less, greater or equal. -/
def distinguishOrder (run : Nat → Case → Finding × Nat) (budget : Nat) (c : Case) (a b : Term) :
    Finding × Nat :=
  match (Law.trichotomy a b).formula? with
  | none => (.unknown, budget)
  | some f =>
    let finding := c.distinguish run budget (.app .lt a b) fun left =>
      c.distinguish run left (.app .lt b a) fun left =>
        c.distinguish run left (.app .eq a b) fun left => (.refuted (.clash f), left)
    match finding with
    | (.refuted r, left) => (.refuted (.law (.trichotomy a b) r), left)
    | other => other

/-- Goes on with quotient and remainder of an unknown. -/
def distinguishRemainders (run : Nat → Case → Finding × Nat) (budget : Nat) (c : Case) (i m : Nat) :
    Finding × Nat :=
  match run budget (c.divide i m) with
  | (.refuted r, left) => (((c.withDivision i m r).map .refuted).getD .unknown, left)
  | other => other

/-- Terms that differ, without anything being said of which one is greater. -/
def openDifference? (c : Case) : Option (Term × Term) :=
  c.conditions.toList.findSome? fun d =>
    match d.literal with
    | .not (.app .eq a b) =>
      let isKnown := c.conditions.any fun e => e.literal == .app .lt a b || e.literal == .app .lt b a
      if d.sign = .nonzero && !isKnown then some (a, b) else none
    | _ => none

/-- The distinction of cases to make. -/
def branch (run : Nat → Case → Finding × Nat) (budget : Nat) (c : Case) : Finding × Nat :=
  match c.moduli with
  | (m, i :: _) :: _ =>
    match c.range? i with
    | some ks => enumerate run i budget c ks
    | none => c.distinguishRemainders run budget i m
  | _ =>
  match c.latticeCut? with
  | some f => c.distinguishBoth run budget f
  | none =>
  match c.smallestRange? with
  | some (i, ks) => enumerate run i budget c ks
  | none =>
  match c.openDifference? with
  | some (a, b) => c.distinguishOrder run budget a b
  | none =>
  match c.openCoefficient? with
  | some (a, b) => c.distinguishOrder run budget a b
  | none =>
  match c.integerCut? with
  | some (i, t) => c.distinguishBoth run budget (c.atMost i t)
  | none =>
  match c.realCut? with
  | some (i, g) => c.distinguishOrder run budget (c.problem.term (.ofUnivariate i g)) (.real 0)
  | none => (.unknown, budget)

/-- Refutes a case or finds a solution. The first number bounds the depth of distinctions, the second the number of
cases, of which those left are given back. -/
def analyse : Nat → Nat → Case → Finding × Nat
  | 0, budget, _ => (.unknown, budget)
  | _ + 1, 0, _ => (.unknown, 0)
  | depth + 1, budget + 1, c =>
    match c.squeeze? with
    | some (i, j, factor) =>
      let a := c.conditions.getD i default
      let b := c.conditions.getD j default
      if a.sign = .positive || b.sign = .positive then
        match c.sum? [⟨1, [i], []⟩, ⟨factor, [j], []⟩] with
        | some r => (.refuted r, budget)
        | none => (.unknown, budget)
      else
        let f := c.vanishes a.remainder.primitive
        c.distinguish (analyse depth) budget f fun left =>
          let no := c.assume (.not f)
          let scale := (no.conditions.getD no.lastCondition default).remainder
          match no.sum? [⟨1, [i, j], []⟩, ⟨factorOf a.remainder scale factor, [no.lastCondition], []⟩] with
          | some r => (.refuted r, left)
          | none => (.unknown, left)
    | none =>
      match c.direct?, c.openDenominator? with
      | some r, _ => (.refuted r, budget)
      | none, some (a, b) => c.distinguishOrder (analyse depth) budget a b
      | none, none =>
        match c.sample? 30 with
        | some finding => (finding, budget)
        | none =>
          if c.unknowns.any c.isInteger then
            match c.branch (analyse depth) budget with
            | (.unknown, left) => ((c.further?).getD .unknown, left)
            | other => other
          else
            match c.further? with
            | some finding => (finding, budget)
            | none => c.branch (analyse depth) budget
where
  /-- The multiple of the square of one polynomial that is the square of another one over a factor. -/
  factorOf (p q : MultiPolynomial) (factor : Rat) : Rat :=
    match p, q with
    | (_, a) :: _, (_, b) :: _ => a / b * (a / b) / factor
    | _, _ => 0
end Case

end Discharge
