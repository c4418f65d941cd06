import Discharge.Decision.Law

/-!
# Refutations

A `Refutation` shows that no assignment makes all formulas of a collection true. It is a tree: its inner
nodes add a formula, a law, a witness or a proved disjunction to the collection, or split on a formula
and its negation; each leaf finds a formula of the collection that the others make false, or products of
constraints that contradict each other.

`Refutation.check` tests each step on its own, so that nothing has to be known of how a refutation was
found.
-/

namespace Discharge

/-! ## Combinations of constraints

A product of polynomials that are not negative is not negative, it is positive if they all are, and it is
zero if one of them is. A `Summand` is such a product of constraints and squares; its sign follows from
those of its factors. Summands whose sum is a negative number contradict each other, and so do summands
with sum zero of which one is positive.
-/

namespace Polynomial

/-- The monomial over numbered atoms. -/
def exponents? (atoms : List Term) : Monomial → Option Exponents
  | [] => some []
  | t :: m =>
    let i := atoms.idxOf t
    if i < atoms.length then (exponents? atoms m).map (Exponents.single i).mul else none

/-- The polynomial over numbered atoms. -/
def numbered? (atoms : List Term) : Polynomial → Option MultiPolynomial
  | [] => some []
  | (m, c) :: p =>
    match exponents? atoms m, numbered? atoms p with
    | some n, some q => some (MultiPolynomial.add [(n, c)] q)
    | _, _ => none

end Polynomial

/-- A product of constraints and squares with a multiplier. -/
structure Summand where
  multiplier : MultiPolynomial
  literals : List Term
  squares : List MultiPolynomial
deriving Inhabited

/-- What is known of the sign of a polynomial. -/
structure Signed where
  poly : MultiPolynomial
  relation : Relation

namespace Signed

/-- The sign of a product. -/
def mul (a b : Signed) : Signed where
  poly := a.poly.mul b.poly
  relation :=
    match a.relation, b.relation with
    | .zero, _ => .zero
    | _, .zero => .zero
    | .positive, .positive => .positive
    | _, _ => .nonneg

/-- A square. -/
def square (p : MultiPolynomial) : Signed := ⟨p.mul p, .nonneg⟩

/-- What a literal says of a polynomial: a constraint, or that the square of a difference is positive. -/
def ofLiteral? (atoms : List Term) (t : Term) : Option Signed :=
  match t.constraint? with
  | some c => (c.poly.numbered? atoms).map fun p => ⟨p, c.relation⟩
  | none =>
    match t with
    | .not (.app .eq a b) =>
      if a.sortOf.isArithmetic then
        ((a.polynomial.sub b.polynomial).numbered? atoms).map fun p => ⟨p.mul p, .positive⟩
      else none
    | _ => none

/-- Multiplication by a polynomial, which has to be a positive number unless the product is zero. -/
def multiply? (p : MultiPolynomial) (a : Signed) : Option Signed :=
  match a.relation with
  | .zero => some ⟨p.mul a.poly, .zero⟩
  | relation =>
    match p.constant? with
    | some c => if 0 < c then some ⟨a.poly.scale c, relation⟩ else none
    | none => none

end Signed

namespace Summand

/-- The product of the assumed literals of a list. -/
def product? (atoms : List Term) (assumed : Assumptions) : List Term → Option Signed
  | [] => some ⟨.const 1, .positive⟩
  | t :: ts =>
    if assumed.contains t then
      match Signed.ofLiteral? atoms t, product? atoms assumed ts with
      | some a, some b => some (a.mul b)
      | _, _ => none
    else none

/-- The value of a summand, with its sign. -/
def signed? (atoms : List Term) (assumed : Assumptions) (s : Summand) : Option Signed :=
  match product? atoms assumed s.literals with
  | some a => (s.squares.foldl (fun b p => b.mul (.square p)) a).multiply? s.multiplier
  | none => none

/-- The sum of summands, and whether one of them is positive. -/
def sum? (atoms : List Term) (assumed : Assumptions) :
    List Summand → Option (MultiPolynomial × Bool)
  | [] => some ([], false)
  | s :: rest =>
    match s.signed? atoms assumed, sum? atoms assumed rest with
    | some a, some (p, strict) => some (a.poly.add p, strict || a.relation = .positive)
    | _, _ => none

/-- Whether summands contradict each other. -/
def contradict (atoms : List Term) (assumed : Assumptions) (summands : List Summand) : Bool :=
  match sum? atoms assumed summands with
  | some (p, strict) =>
    match p.constant? with
    | some c => c < 0 || (c = 0 && strict)
    | none => false
  | none => false

end Summand

/-! ## Steps and their check -/

/-- Arguments that a collection of formulas cannot all hold. -/
inductive Refutation where
  /-- The negation of this formula of the collection is one too, or others make it false. -/
  | clash (formula : Term)
  /-- Products of constraints, over numbered atoms, contradict each other. -/
  | sum (atoms : List Term) (summands : List Summand)
  /-- A formula holds or its negation does. -/
  | split (formula : Term) (yes no : Refutation)
  /-- One of some literals holds, since `proof` refutes that all are false. -/
  | cut (literals : List Term) (proof rest : Refutation)
  /-- A law holds. -/
  | law (l : Law) (rest : Refutation)
  /-- Some value of a new constant makes a witness's formula true. -/
  | witness (name : String) (w : Witness) (rest : Refutation)
deriving Inhabited

namespace Term

/-- Whether a constant of the name occurs. -/
def mentions (name : String) : Term → Bool
  | .int _ => false
  | .real _ => false
  | .bool _ => false
  | .const n _ => n == name
  | .bound _ => false
  | .neg a => mentions name a
  | .not a => mentions name a
  | .toReal a => mentions name a
  | .app _ a b => mentions name a || mentions name b
  | .store a i v => mentions name a || mentions name i || mentions name v
  | .quantified _ _ body => mentions name body

/-- Whether the term is a well-sorted formula without free bound numbers. -/
def isFormula (t : Term) : Bool := t.check? 0 == some .bool

/-- The negation, without a double one. -/
def opposite : Term → Term
  | .not a => a
  | t => .not t

/-- The disjunction of formulas. -/
def disjunction : List Term → Term
  | [] => .bool false
  | [t] => t
  | t :: ts => .app .or t (disjunction ts)

end Term

namespace Witness

/-- Whether a constant of the name occurs in the terms that the witness is about. -/
def mentions (name : String) : Witness → Bool
  | .sample quantified => quantified.mentions name
  | .difference a b => a.mentions name || b.mentions name
  | .floor a => a.mentions name

end Witness

namespace Refutation

/-- Whether the refutation shows that the assumed formulas cannot all hold. -/
def check (assumed : Assumptions) : Refutation → Bool
  | .clash formula =>
    assumed.contains formula &&
      (assumed.contains formula.opposite || formula.partsTruth assumed == some false)
  | .sum atoms summands => Summand.contradict atoms assumed summands
  | .split formula yes no =>
    formula.isFormula && check (assumed.insert (.not formula)) no &&
      check (assumed.insert formula) yes
  | .cut literals proof rest =>
    literals.all Term.isFormula && check (assumed.insertAll (literals.map Term.opposite)) proof &&
      check (assumed.insert (Term.disjunction literals)) rest
  | .law l rest =>
    match l.formula? with
    | some f => f.isFormula && check (assumed.insert f) rest
    | none => false
  | .witness name w rest =>
    match w.formula? (.const name .int) with
    | some f =>
      f.isFormula && !w.mentions name && !assumed.formulas.any (·.mentions name) &&
        check (assumed.insert f) rest
    | none => false

end Refutation

end Discharge
