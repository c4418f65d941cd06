import Discharge.CounterModel.Basic
import Discharge.Decision.Algebraic
import Discharge.Decision.Law

/-!
# Models

A `Model` describes assignments of values to constants and to divisions by zero: integers, rationals, truth
values, polynomials in one root that all share, and arrays that are constant piece by piece outside a finite
table. `Model.facts` says so in formulas. If `Model.isConsistent`, there is an assignment that makes all of them
true; no other constants are restricted.

`Model.assignments` writes the values of the constants that are no arrays.
-/

namespace Discharge

/-- A value of a basic sort. -/
inductive Scalar where
  | int (n : Int)
  | real (q : Rat)
  | bool (b : Bool)
  | algebraic (a : Algebraic)
deriving DecidableEq, Inhabited

namespace Scalar

/-- The value of a polynomial, as a term. -/
def polynomialTerm (x : Term) : List Rat → Term
  | [] => .real 0
  | [c] => .real c
  | c :: cs => .app .add (.real c) (.app .mul x (polynomialTerm x cs))

/-- The term of a value, where a term stands for the root that algebraic values are made of. -/
def term (root : Term) : Scalar → Term
  | .int n => .int n
  | .real q => .real q
  | .bool b => .bool b
  | .algebraic a => polynomialTerm root a.coefficients

/-- The sort of a value. -/
def sort : Scalar → BasicSort
  | .int _ => .int
  | .real _ => .real
  | .bool _ => .bool
  | .algebraic _ => .real

/-- The text of a rational in lowest terms. -/
def ratText (q : Rat) : String :=
  if q.den = 1 then toString q.num else toString q.num ++ "/" ++ toString q.den

/-- The text of a value. -/
def text (root : Root) : Scalar → String
  | .int n => toString n
  | .real q => ratText q
  | .bool b => if b then "True" else "False"
  | .algebraic a => (a.enclosure root).text

/-- Whether an algebraic value is known well enough. -/
def isKnown (root : Root) : Scalar → Bool
  | .algebraic a => a.isIrrational root
  | _ => true

/-- An enclosure of a real value. -/
def enclosure (root : Root) : Scalar → Enclosure
  | .int n => .point n
  | .real q => .point q
  | .bool _ => .point 0
  | .algebraic a => a.enclosure root

end Scalar

/-- The values of a function of the integers: those of a finite table, and for other integers the value of the
first step that is above them, or a default. Without a default other integers are not restricted. -/
structure ValueTable where
  entries : List (Int × Scalar)
  steps : List (Int × Scalar) := []
  default : Option Scalar
deriving DecidableEq, Inhabited

namespace ValueTable

/-- That a term of a basic sort has a value. -/
def readFact (root : Term) (read : Term) (x : Scalar) : Term :=
  match x with
  | .bool true => read
  | .bool false => .not read
  | x => .app .eq read (x.term root)

/-- That a formula holds of the bound number, unless the number is in the table. -/
def outside (t : ValueTable) (f : Term) : Term :=
  .quantified .all ["index"]
    (t.entries.foldr (fun entry t => .app .or (.app .eq (.bound 0) (.int entry.1)) t) f)

/-- That the bound number is below a bound, or a formula holds. -/
def unlessBelow (bound : Option Int) (f : Term) : Term :=
  match bound with
  | some b => .app .or (.app .lt (.bound 0) (.int b)) f
  | none => f

/-- The formula about a place outside the table, in the piece that ends at a step or has no end. `previous` is
the end of the piece before. -/
def pieceFact (t : ValueTable) (root : Term) (read : Term → Term) (previous : Option Int)
    (stop : Option Int) (x : Scalar) : Term :=
  let f := readFact root (read (.bound 0)) x
  t.outside (unlessBelow previous
    (match stop with
      | some b => .app .or (.app .le (.int b) (.bound 0)) f
      | none => f))

/-- The formulas about the places outside the table, after the end of a piece. -/
def piecesFrom (t : ValueTable) (root : Term) (read : Term → Term) :
    Option Int → List (Int × Scalar) → List Term
  | previous, [] =>
    match t.default with
    | some x => [t.pieceFact root read previous none x]
    | none => []
  | previous, (b, x) :: steps =>
    t.pieceFact root read previous (some b) x :: piecesFrom t root read (some b) steps

/-- What the table says of a function, given by how it is read. -/
def facts (t : ValueTable) (root : Term) (read : Term → Term) : List Term :=
  t.piecesFrom root read none t.steps ++
    t.entries.map fun (i, x) => readFact root (read (.int i)) x

/-- Whether all values are of a sort and known, no place has two values, and the steps ascend. -/
def isConsistent (t : ValueTable) (root : Root) (s : BasicSort) : Bool :=
  let values := t.entries.map Prod.snd ++ t.steps.map Prod.snd ++ t.default.toList
  values.all (fun x => x.sort = s && x.isKnown root) && (t.entries.map Prod.fst).Nodup &&
    (t.steps.map Prod.fst).Pairwise (· < ·)

end ValueTable

/-- Values of constants, and of divisions by zero by their dividends. -/
structure Model where
  scalars : List (String × Scalar) := []
  /-- The root that algebraic values are made of, with the name of a constant that stands for it. -/
  root : Option (String × Root) := none
  arrays : List (String × BasicSort × ValueTable) := []
  integerQuotients : ValueTable := ⟨[], [], none⟩
  remainders : ValueTable := ⟨[], [], none⟩
  realQuotients : List (Scalar × Scalar) := []
  /-- The result of dividing other integers by zero among the reals. -/
  realQuotient : Option Scalar := none
deriving Inhabited

namespace Model

/-- The term that stands for the root. -/
def rootTerm (m : Model) : Term :=
  match m.root with
  | some (name, _) => .const name .real
  | none => .real 0

/-- The root; zero if there is none. -/
def rootValue (m : Model) : Root := (m.root.map Prod.snd).getD ⟨[0, 1], 0, 0⟩

/-- That a constant has a value. -/
def scalarFact (root : Term) (name : String) (x : Scalar) : Term :=
  ValueTable.readFact root (.const name (.basic x.sort)) x

/-- What is said of the root. -/
def rootFacts (name : String) (r : Root) : List Term :=
  let x := Term.const name .real
  [.app .eq (Scalar.polynomialTerm x r.coefficients) (.real 0), .app .lt (.real r.low) x,
    .app .lt x (.real r.high)]

/-- What is said of the division of integers by zero among the reals, if it has a default. -/
def realQuotientFacts (m : Model) : List Term :=
  match m.realQuotient with
  | none => []
  | some x =>
    let place := Term.toReal (.bound 0)
    [.quantified .all ["index"]
      (m.realQuotients.foldr (fun entry t => .app .or (.app .eq place (entry.1.term m.rootTerm)) t)
        (ValueTable.readFact m.rootTerm (.app .rdiv place (.real 0)) x))]

/-- What the model says. -/
def facts (m : Model) : List Term :=
  (match m.root with
    | some (name, r) => rootFacts name r
    | none => []) ++
  m.scalars.map (fun (name, x) => scalarFact m.rootTerm name x) ++
  m.arrays.flatMap (fun (name, s, t) => t.facts m.rootTerm (.app .select (.const name (.array s)))) ++
  m.integerQuotients.facts m.rootTerm (fun i => .app .idiv i (.int 0)) ++
  m.remainders.facts m.rootTerm (fun i => .app .mod i (.int 0)) ++
  m.realQuotients.map (fun (a, x) =>
    .app .eq (.app .rdiv (a.term m.rootTerm) (.real 0)) (x.term m.rootTerm)) ++
  m.realQuotientFacts

/-- Whether the values of a list are known to differ from each other. -/
def areApart (root : Root) (xs : List Scalar) : Bool :=
  xs.Pairwise fun a b => (a.enclosure root).isApart (b.enclosure root)

/-- Whether there is an assignment as the model says: nothing is given two values, and the root exists. -/
def isConsistent (m : Model) : Bool :=
  let root := m.rootValue
  (m.root.all fun (_, r) => r.isIsolated) &&
  (m.scalars.map (fun p => (p.1, p.2.sort)) ++
    m.root.toList.map (fun p => (p.1, BasicSort.real))).Nodup &&
  m.scalars.all (fun p => p.2.isKnown root) &&
  (m.arrays.map (fun (name, s, _) => (name, s))).Nodup &&
  m.arrays.all (fun (_, s, t) => t.isConsistent root s) &&
  m.integerQuotients.isConsistent root .int && m.remainders.isConsistent root .int &&
  m.realQuotients.all (fun (a, x) => a.sort = .real && x.sort = .real && a.isKnown root &&
    x.isKnown root) &&
  (m.realQuotient.all fun x => x.sort = .real && x.isKnown root) &&
  areApart root (m.realQuotients.map Prod.fst)

/-- The texts of the values of constants that are no arrays. Arrays are left out although they have
values too: an integer, a real or a truth value is written in one way, but an array in many, which differ
in the value taken as the common one and in the order of the exceptions. -/
def assignments (m : Model) : Assignments :=
  .ofList (m.scalars.map fun (name, x) => (name, x.text m.rootValue))

end Model

end Discharge
