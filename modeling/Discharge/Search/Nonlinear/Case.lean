import Discharge.Search.Nonlinear.Equations
import Discharge.Decision.Polynomial
import Discharge.Search.View
import Discharge.Decision.Refutation

/-!
# Problems and their cases

A `Case` is a problem with the consequences of its equations, modulo which the polynomials of the other conditions
are reduced. It is refuted by a sum of products of its conditions (`Case.sum?`), or by a case distinction, in which
each further case assumes a literal (`Case.assume`).
-/

namespace Discharge

/-! ## Polynomial problems

Literals that say something of the signs of polynomials, over numbered atoms. A `Problem` is a list of such
conditions; `View.problems` gives those that products link together, one for each group of atoms.
-/

/-- What may be said of the sign of a polynomial. -/
inductive SignCondition where
  | zero
  | nonzero
  | nonneg
  | positive
deriving DecidableEq, Inhabited

namespace SignCondition

/-- Whether a sign meets the condition. -/
def admits (c : SignCondition) (sign : Int) : Bool :=
  match c with
  | .zero => sign = 0
  | .nonzero => sign ≠ 0
  | .nonneg => 0 ≤ sign
  | .positive => 0 < sign

/-- What a relation says. -/
def ofRelation : Relation → SignCondition
  | .zero => .zero
  | .nonneg => .nonneg
  | .positive => .positive

end SignCondition

/-- A literal and what it says of a polynomial. -/
structure PolynomialLiteral where
  literal : Term
  poly : MultiPolynomial
  sign : SignCondition
deriving Inhabited

/-- Conditions on numbered atoms. -/
structure Problem where
  atoms : Array Term
  conditions : List PolynomialLiteral
deriving Inhabited

namespace Problem

/-- What a literal says of a polynomial in atoms. -/
def statement? (literal : Term) : Option (Polynomial × SignCondition) :=
  match literal.constraint? with
  | some c => some (c.poly, .ofRelation c.relation)
  | none =>
    match literal with
    | .not (.app .eq a b) =>
      if a.sortOf.isArithmetic then some (a.polynomial.sub b.polynomial, .nonzero) else none
    | _ => none

/-- The conditions that literals state. -/
def ofLiterals (atoms : List Term) (literals : List Term) : Problem where
  atoms := atoms.toArray
  conditions := literals.filterMap fun t => do
    let (p, sign) ← statement? t
    let q ← p.numbered? atoms
    some ⟨t, q, sign⟩

/-- Whether an atom stands for an integer. -/
def isInteger (p : Problem) (i : Nat) : Bool := (p.atoms.getD i default).sortOf = .int

/-- The problem with a further literal about the same atoms. -/
def assume (p : Problem) (literal : Term) : Problem :=
  { p with conditions := p.conditions ++ (ofLiterals p.atoms.toList [literal]).conditions }

/-- The real or integer term of a polynomial in the atoms. -/
def term (p : Problem) (q : MultiPolynomial) : Term :=
  let monomial := fun (m : Exponents) =>
    m.zipIdx.flatMap fun (e, i) => List.replicate e (p.atoms.getD i default)
  let q : Polynomial := q.map fun (m, c) => (monomial m, c)
  Term.ofPolynomial (Term.sortOfPolynomial q) q

end Problem

namespace View

/-- Groups of atoms and the literals about them, such that no literal is about atoms of two groups. -/
def groups (literals : List (Term × List Term)) : List (List Term × List Term) :=
  literals.foldl (fun (gs : List (List Term × List Term)) (t, atoms) =>
    let meets := fun (g : List Term × List Term) => g.1.any atoms.contains
    let merged := (gs.filter meets).foldl (fun (g : List Term × List Term) h => (g.1 ++ h.1, g.2 ++ h.2))
      (([] : List Term), ([] : List Term))
    let more := atoms.filter fun a => !merged.1.contains a
    gs.filter (fun g => !meets g) ++ [(merged.1 ++ more, merged.2 ++ [t])]) []

/-- The problems that the literals of a view state, as far as products occur in them. -/
def problems (v : View) : List Problem :=
  let literals := v.literals.filterMap fun (t, holds) =>
    let literal := if holds then t else .not t
    (Problem.statement? literal).map fun (p, _) => (literal, State.distinctTerms (p.flatMap Prod.fst))
  ((groups literals).map fun (atoms, ls) => Problem.ofLiterals atoms ls).filter fun p =>
    p.conditions.any fun c => c.poly.any fun (m, _) => 1 < m.degree

end View

/-! ## Cases -/

/-- A condition that is no equation. -/
structure CaseCondition where
  literal : Term
  poly : MultiPolynomial
  sign : SignCondition
  /-- The remainder of the polynomial modulo the equations. -/
  remainder : MultiPolynomial
deriving Inhabited

namespace CaseCondition

/-- The polynomial that is positive, or not negative: that of the condition, or its square if it is not to vanish. -/
def signed (c : CaseCondition) : MultiPolynomial := if c.sign = .nonzero then c.poly.mul c.poly else c.poly

/-- The remainder of the polynomial that is positive, or not negative. -/
def signedRemainder (c : CaseCondition) : MultiPolynomial :=
  if c.sign = .nonzero then c.remainder.mul c.remainder else c.remainder

end CaseCondition

/-- A problem with the consequences of its equations. -/
structure Case where
  problem : Problem
  equations : Equations
  conditions : Array CaseCondition
deriving Inhabited

/-- A multiple of a product of conditions, given by their numbers, and of squares. -/
structure Product where
  multiplier : Rat
  factors : List Nat
  squares : List MultiPolynomial := []
deriving Inhabited

namespace Case

/-- The conditions of a problem that are no equations, reduced modulo the equations. -/
def reducedConditions (p : Problem) (es : Equations) : Array CaseCondition :=
  ((p.conditions.filter (·.sign ≠ .zero)).map fun c =>
    ⟨c.literal, c.poly, c.sign, es.remainder c.poly⟩).toArray

/-- What an unknown of a problem stands for. -/
def kind (p : Problem) (i : Nat) : UnknownKind :=
  match p.atoms.getD i default with
  | .app .rdiv _ _ => .quotient
  | .app .idiv _ _ => .part
  | .app .mod _ _ => .part
  | t => if t.sortOf = .int then .integer else .real

/-- The case that a problem states. -/
def ofProblem (p : Problem) : Case :=
  let es := Equations.ofList (kind p) (p.conditions.filterMap fun c =>
    if c.sign = .zero then some c.poly else none)
  ⟨p, es, reducedConditions p es⟩

/-- The case with a further literal. -/
def assume (c : Case) (literal : Term) : Case :=
  let p := c.problem.assume literal
  match p.conditions.getLast? with
  | some d =>
    if p.conditions.length = c.problem.conditions.length then c
    else if d.sign = .zero then ofProblem p
    else
      { c with
        problem := p
        conditions := c.conditions.push ⟨d.literal, d.poly, d.sign, c.equations.remainder d.poly⟩ }
  | none => c

/-- The case with literals taken in one after the other. -/
def assumeAll (c : Case) (literals : List Term) : Case := literals.foldl assume c

/-- Whether an atom stands for an integer. -/
def isInteger (c : Case) (i : Nat) : Bool := c.problem.isInteger i

/-- The unknowns that the reduced conditions and the unsolved equations are about, ascending. -/
def unknowns (c : Case) : List Nat :=
  let occurring := c.equations.basis.flatMap (·.poly.unknowns) ++
    c.conditions.toList.flatMap (·.remainder.unknowns)
  occurring.eraseDups.mergeSort (· ≤ ·)

/-- Whether a product of conditions and squares is known to be positive. -/
def isPositive (c : Case) (p : Product) : Bool :=
  p.squares.isEmpty && p.factors.all fun i => (c.conditions.getD i default).sign ≠ .nonneg

/-- The polynomial of a product. -/
def polynomial (c : Case) (p : Product) : MultiPolynomial :=
  let q := p.factors.foldl (fun q i => q.mul (c.conditions.getD i default).signed) (.const p.multiplier)
  p.squares.foldl (fun q s => q.mul (s.mul s)) q

/-- The refutation by products whose sum is a negative number modulo the equations, or zero although one of them is
positive. -/
def sum? (c : Case) (products : List Product) : Option Refutation :=
  let used := products.filter (·.multiplier ≠ 0)
  let total := MultiPolynomial.sum (used.map c.polynomial)
  let (rest, taken) := c.equations.reduce total
  match rest.constant? with
  | none => none
  | some k =>
    if k < 0 || (k = 0 && used.any c.isPositive) then
      let summands := used.map fun p =>
        (⟨.const p.multiplier, p.factors.map fun i => (c.conditions.getD i default).literal, p.squares⟩ : Summand)
      let equalities := (c.problem.conditions.filter (·.sign = .zero)).zipIdx.map fun (e, j) =>
        (⟨(taken.multipliers.getD j []).scale (-1), [e.literal], []⟩ : Summand)
      some (.sum c.problem.atoms.toList (summands ++ equalities.filter fun s => !s.multiplier.isEmpty))
    else none

/-- The refutation by contradictory equations or by a condition that is false modulo the equations. -/
def immediate? (c : Case) : Option Refutation :=
  if c.equations.isContradictory then
    -- the equations combine to one, so that they also combine to minus one
    match c.equations.basis.find? fun b => b.poly.constant?.any (· ≠ 0) with
    | some b =>
      match b.poly.constant? with
      | some k =>
        let equalities := (c.problem.conditions.filter (·.sign = .zero)).zipIdx.map fun (e, j) =>
          (⟨(b.multipliers.getD j []).scale (-1 / k), [e.literal], []⟩ : Summand)
        some (.sum c.problem.atoms.toList (equalities.filter fun s => !s.multiplier.isEmpty))
      | none => none
    | none => none
  else
    (List.range c.conditions.size).findSome? fun i =>
      let d := c.conditions.getD i default
      match d.remainder.constant? with
      | some k =>
        let sign : Int := if 0 < k then 1 else if k < 0 then -1 else 0
        if d.sign.admits sign then none else c.sum? [⟨1, [i], []⟩]
      | none => none

end Case

namespace Refutation

/-- A refutation of the cases that a literal holds and that it does not. -/
def cases (literal : Term) (yes no : Option Refutation) : Option Refutation :=
  match yes, no with
  | some r, some s => some (.split literal r s)
  | _, _ => none

/-- The literals of the sums in a refutation. -/
def literals : Refutation → List Term
  | .clash _ => []
  | .sum _ summands => summands.flatMap (·.literals)
  | .split _ yes no => literals yes ++ literals no
  | .cut _ proof rest => literals proof ++ literals rest
  | .law _ rest => literals rest
  | .witness _ _ rest => literals rest

end Refutation

end Discharge
