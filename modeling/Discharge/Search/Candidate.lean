import Discharge.Decision.Model
import Discharge.Search.Roots
import Discharge.Search.View

/-!
# Candidates for models

A `Candidate` gives values to constants and to divisions by zero; every term without quantifiers has a value under
it. Numbers are rationals or polynomials in one root that all share. Candidates are made from values of atoms and
from what is read from arrays; whether the values fit together is found out by evaluating.
-/

namespace Discharge

/-- A number or a truth value. -/
inductive Datum where
  | number (q : Rat)
  /-- The value of a polynomial, of degree above zero and below that of the root's own one. -/
  | algebraic (p : List Rat)
  | truth (b : Bool)
deriving DecidableEq, Inhabited, Hashable

namespace Datum

/-- A number as a polynomial in the root. -/
def coefficients : Datum → List Rat
  | .number q => [q]
  | .algebraic p => p
  | .truth _ => []

/-- The value of a polynomial at a root. -/
def ofPolynomial (r : Root) (p : List Rat) : Datum :=
  match Univariate.remainder p r.coefficients with
  | [] => .number 0
  | [c] => .number c
  | p => .algebraic p

/-- Addition. -/
def add (r : Root) : Datum → Datum → Datum
  | .number a, .number b => .number (a + b)
  | a, b => ofPolynomial r (Univariate.add a.coefficients b.coefficients)

/-- Multiplication. -/
def mul (r : Root) : Datum → Datum → Datum
  | .number a, .number b => .number (a * b)
  | a, b => ofPolynomial r (Univariate.mul a.coefficients b.coefficients)

/-- Negation. -/
def neg : Datum → Datum
  | .number a => .number (-a)
  | .algebraic p => .algebraic (Univariate.scale (-1) p)
  | .truth b => .truth b

/-- The sign of a number. -/
def sign (r : Root) : Datum → Int
  | .number q => if 0 < q then 1 else if q < 0 then -1 else 0
  | .algebraic p => r.sign p
  | .truth _ => 0

/-- The sign of a difference. -/
def compare (r : Root) (a b : Datum) : Int := (a.add r b.neg).sign r

/-- Whether two data are equal. -/
def same (r : Root) : Datum → Datum → Bool
  | .truth a, .truth b => a == b
  | .number a, .number b => a == b
  | .truth _, _ => false
  | _, .truth _ => false
  | a, b => a.compare r b = 0

/-- The quotient of two numbers, of which the second is not zero. -/
def divide? (r : Root) : Datum → Datum → Option Datum
  | .number a, .number b => some (.number (a / b))
  | a, .number b => some (a.mul r (.number (1 / b)))
  | a, b => (Univariate.inverse? b.coefficients r.coefficients).map fun p => a.mul r (ofPolynomial r p)

/-- The rational that a datum is. -/
def rational? : Datum → Option Rat
  | .number q => some q
  | _ => none

end Datum

/-- The values of a function of the integers: those of a table, and for other integers the value of the first step
that is above them, or a default. -/
structure DatumTable where
  entries : List (Int × Datum)
  steps : List (Int × Datum)
  default : Datum
deriving DecidableEq, Inhabited

namespace DatumTable

/-- The value at an integer. -/
def read (t : DatumTable) (i : Int) : Datum :=
  match t.entries.find? (·.1 == i) with
  | some e => e.2
  | none => ((t.steps.find? (i < ·.1)).map Prod.snd).getD t.default

/-- The table with another value at an integer. -/
def write (t : DatumTable) (i : Int) (x : Datum) : DatumTable :=
  { t with entries := (i, x) :: t.entries.filter (·.1 != i) }

/-- Integers of which one lies in every piece of two tables. -/
def places (s t : DatumTable) : List Int :=
  let keys := (s.entries ++ t.entries).map Prod.fst
  let bounds := (s.steps ++ t.steps).map Prod.fst
  let least := (keys ++ bounds).foldl min 0
  let greatest := (keys ++ bounds).foldl max 0
  let starts : List Int := [least - keys.length - 1, greatest + 1] ++ bounds
  keys ++ starts.flatMap fun (b : Int) => (List.range (keys.length + 1)).map fun k => b + Int.ofNat k

/-- An integer at which two tables differ. -/
def difference? (r : Root) (s t : DatumTable) : Option Int :=
  (s.places t).find? fun i => !(s.read i).same r (t.read i)

end DatumTable

/-- Values of terms. -/
inductive Value where
  | datum (d : Datum)
  | array (t : DatumTable)
deriving DecidableEq, Inhabited

namespace Value

/-- A number as a value. -/
def number (q : Rat) : Value := .datum (.number q)

/-- A truth value as a value. -/
def truth (b : Bool) : Value := .datum (.truth b)

/-- The truth value that a value is. -/
def truth? : Value → Option Bool
  | .datum (.truth b) => some b
  | _ => none

/-- The integer that a value is. -/
def integer? : Value → Option Int
  | .datum (.number q) => if q.den = 1 then some q.num else none
  | _ => none

/-- Whether two values are equal; arrays are equal if they hold the same everywhere. -/
def same (r : Root) : Value → Value → Bool
  | .datum a, .datum b => a.same r b
  | .array s, .array t => (s.difference? r t).isNone
  | _, _ => false

/-- The datum of a sort that nothing is known of. -/
def basicDatum : BasicSort → Datum
  | .bool => .truth false
  | _ => .number 0

/-- The value of a constant that nothing is known of. -/
def ofSort : TermSort → Value
  | .basic s => .datum (basicDatum s)
  | .array s => .array ⟨[], [], basicDatum s⟩

end Value

/-- Values of constants and of divisions by zero. -/
structure Candidate where
  /-- The root that numbers are polynomials in. -/
  root : Option Root
  constants : List ((String × TermSort) × Value)
  integerQuotients : DatumTable
  remainders : DatumTable
  realQuotients : List (Datum × Datum)
  realQuotient : Datum
deriving Inhabited

namespace Candidate

/-- The root; zero if there is none. -/
def rootValue (c : Candidate) : Root := c.root.getD ⟨[0, 1], 0, 0⟩

/-- The value of a constant. -/
def constant (c : Candidate) (name : String) (s : TermSort) : Value :=
  ((c.constants.find? fun p => p.1.1 == name && p.1.2 == s).map Prod.snd).getD (.ofSort s)

/-- The result of a real division by zero. -/
def realByZero (c : Candidate) (a : Datum) : Datum :=
  ((c.realQuotients.find? (·.1.same c.rootValue a)).map Prod.snd).getD c.realQuotient

/-- The value of an operator on numbers. -/
def arithmetic (c : Candidate) (op : TermOp) (a b : Datum) : Option Datum :=
  let r := c.rootValue
  match op with
  | .add => some (a.add r b)
  | .sub => some (a.add r b.neg)
  | .mul => some (a.mul r b)
  | .rdiv => if b.sign r = 0 then some (c.realByZero a) else a.divide? r b
  | .idiv =>
    match a, b with
    | .number a, .number b =>
      some (if b = 0 then c.integerQuotients.read a.floor else .number (a.num / b.num : Int))
    | _, _ => none
  | .mod =>
    match a, b with
    | .number a, .number b =>
      some (if b = 0 then c.remainders.read a.floor else .number (a.num % b.num : Int))
    | _, _ => none
  | op => (Term.compareZero? op (a.compare r b)).map Datum.truth

/-- The value of an operator. Truth values may be known in part. -/
def apply (c : Candidate) (op : TermOp) (a b : Option Value) : Option Value :=
  match op with
  | .and => (Term.andTruth (a.bind Value.truth?) (b.bind Value.truth?)).map Value.truth
  | .or => (Term.orTruth (a.bind Value.truth?) (b.bind Value.truth?)).map Value.truth
  | .implies =>
    (Term.orTruth ((a.bind Value.truth?).map (!·)) (b.bind Value.truth?)).map Value.truth
  | .eq =>
    match a, b with
    | some x, some y => some (.truth (x.same c.rootValue y))
    | _, _ => none
  | .select =>
    match a, b.bind Value.integer? with
    | some (.array t), some i => some (.datum (t.read i))
    | _, _ => none
  | op =>
    match a, b with
    | some (.datum x), some (.datum y) => (c.arithmetic op x y).map Value.datum
    | _, _ => none

/-- The value of a term. `quantified` gives the truth of quantifiers that bind no outer number, and
`bound` the values of bound numbers. -/
def value (c : Candidate) (quantified : Term → Option Bool) (bound : List Int) :
    Term → Option Value
  | .int n => some (.number n)
  | .real q => some (.number q)
  | .bool b => some (.truth b)
  | .const name s => some (c.constant name s)
  | .bound i => (bound[i]?).map fun n => .number n
  | .neg a =>
    match value c quantified bound a with
    | some (.datum x) => some (.datum x.neg)
    | _ => none
  | .not a => ((value c quantified bound a).bind Value.truth?).map fun b => .truth !b
  | .toReal a => value c quantified bound a
  | .app op a b => c.apply op (value c quantified bound a) (value c quantified bound b)
  | .store a i x =>
    match value c quantified bound a, (value c quantified bound i).bind Value.integer?,
      value c quantified bound x with
    | some (.array t), some i, some (.datum x) => some (.array (t.write i x))
    | _, _, _ => none
  | .quantified kind names body =>
    if bound.isEmpty then (quantified (.quantified kind names body)).map .truth else none

/-- The integer that the value of a term is. -/
def integer? (c : Candidate) (t : Term) : Option Int :=
  (c.value (fun _ => none) [] t).bind Value.integer?

/-- The candidate with a value for each division by zero among some terms that it says nothing of. -/
def complete (c : Candidate) (terms : List Term) : Candidate :=
  terms.foldl (fun (c : Candidate) t =>
    match t with
    | .app op a b =>
      match c.value (fun _ => none) [] a, c.value (fun _ => none) [] b with
      | some (.datum x), some (.datum (.number 0)) =>
        let further := fun (t : DatumTable) =>
          match x with
          | .number q =>
            if t.entries.any (·.1 == q.floor) then t
            else { t with entries := t.entries ++ [(q.floor, t.read q.floor)] }
          | _ => t
        match op with
        | .rdiv =>
          if c.realQuotients.any (·.1.same c.rootValue x) then c
          else { c with realQuotients := c.realQuotients ++ [(x, c.realQuotient)] }
        | .idiv => { c with integerQuotients := further c.integerQuotients }
        | .mod => { c with remainders := further c.remainders }
        | _ => c
      | _, _ => c
    | _ => c) c

end Candidate

namespace Datum

/-- The polynomials in the powers of a value `q` modulo `p`, and what combines them to zero: a row for each power,
with the combination of powers that it is. -/
def relation (p q : List Rat) : Nat → List Rat → List Rat → List (List Rat × List Rat) →
    Option (List Rat)
  | 0, _, _, _ => none
  | fuel + 1, power, unit, rows =>
    let (rest, combination) := rows.foldl (fun (rest, combination) (row, source) =>
      let d := row.length
      let c := rest.getD (d - 1) 0
      if c = 0 then (rest, combination)
      else
        let k := c / Univariate.leading row
        (Univariate.sub rest (Univariate.scale k row), Univariate.sub combination (Univariate.scale k source)))
      (power, unit)
    let rest := Univariate.trim rest
    if rest.isEmpty then some combination
    else
      let rows := (rows ++ [(rest, combination)]).mergeSort fun a b => b.1.length ≤ a.1.length
      relation p q fuel (Univariate.remainder (Univariate.mul power q) p) (0 :: unit) rows

/-- A polynomial with integer coefficients that has the value of `q` at a root as a root. -/
def annihilator (r : Root) (q : List Rat) : List Rat :=
  let p := r.coefficients
  match relation p q (p.length + 1) [1] [1] [] with
  | some a => Univariate.primitive a
  | none => []

/-- A rational root of a polynomial near the value of `q` at a root, if it is that value. -/
def rationalValue? (r : Root) (q annihilator : List Rat) : Option Rat :=
  let lead := (Univariate.leading annihilator).abs
  if lead = 0 then none
  else
    let e := (⟨r.low, r.high⟩ : Enclosure).evaluate q
    let k := ((e.low + e.high) / 2 * lead + 1 / 2).floor
    let guess : Rat := (k : Rat) / lead
    if r.isRootOf (Univariate.sub q [guess]) then some guess else none

/-- A datum as a scalar of a sort. The interval of the root is narrow. -/
def scalar (r : Root) (s : BasicSort) (d : Datum) : Scalar :=
  match s, d with
  | .int, .number q => .int q.floor
  | .real, .number q => .real q
  | .real, .algebraic p =>
    let a := annihilator r p
    match rationalValue? r p a with
    | some q => .real q
    | none => .algebraic ⟨p, a, Univariate.quotient (Univariate.compose a p) r.coefficients⟩
  | .bool, .truth b => .bool b
  | .int, _ => .int 0
  | .real, _ => .real 0
  | .bool, _ => .bool false

end Datum

namespace Candidate

/-- A table of scalars, without entries that say again what holds outside the table. -/
def valueTable (r : Root) (s : BasicSort) (t : DatumTable) (hasDefault : Bool) : ValueTable where
  entries :=
    (t.entries.filter fun (i, x) => !hasDefault || { t with entries := [] }.read i ≠ x).map fun (i, x) =>
      (i, x.scalar r s)
  steps := if hasDefault then t.steps.map fun (b, x) => (b, x.scalar r s) else []
  default := if hasDefault then some (t.default.scalar r s) else none

/-- The width of the interval of a root in a model. -/
def rootWidth : Rat := mkRat 1 (Nat.pow 10 30)

/-- Narrows the interval of the root until the decimals of its values are fixed. -/
def narrowed (values : List (List Rat)) : Nat → Root → Root
  | 0, r => r
  | fuel + 1, r =>
    if values.all fun p => ((⟨r.low, r.high⟩ : Enclosure).evaluate p).fixesDecimals then r
    else narrowed values fuel r.halve

/-- The model of a candidate, restricted to some of its constants. `rootName` is the name of a constant that stands
for the root. `defaults` says whether the results of all divisions by zero are told, or those of the tables
only. -/
def model (c : Candidate) (rootName : String) (defaults : Bool) (keep : String → Bool) : Model :=
  let kept := c.constants.filter fun ((name, _), _) => keep name
  let data := (kept.flatMap fun (_, x) =>
      match x with
      | .datum d => [d]
      | .array t => t.default :: (t.entries ++ t.steps).map Prod.snd) ++
    c.realQuotients.flatMap fun (a, x) => [a, x]
  let algebraic := data.filterMap fun d =>
    match d with
    | .algebraic p => some p
    | _ => none
  let r := (Root.narrow rootWidth 2000 c.rootValue)
  let r := if algebraic.isEmpty then r else narrowed algebraic 200 r
  { scalars := kept.filterMap fun ((name, s), x) =>
      match s, x with
      | .basic s, .datum d => some (name, d.scalar r s)
      | _, _ => none
    root := if algebraic.isEmpty then none else some (rootName, r)
    arrays := kept.filterMap fun ((name, s), x) =>
      match s, x with
      | .array s, .array t => some (name, s, valueTable r s t true)
      | _, _ => none
    integerQuotients := valueTable r .int c.integerQuotients defaults
    remainders := valueTable r .int c.remainders defaults
    realQuotients := c.realQuotients.map fun (a, x) => (a.scalar r .real, x.scalar r .real)
    realQuotient := if defaults then some (c.realQuotient.scalar r .real) else none }

end Candidate

/-- Values of terms from which a candidate is made. -/
structure Valuation where
  root : Option Root
  number : Term → Datum

namespace View

/-- The values of the solution. -/
def valuation (v : View) : Valuation := ⟨none, fun t => .number (v.number t)⟩

/-- The table of an array constant: what its reads give. -/
def entries (v : View) (f : Valuation) (array : Term) (element : BasicSort) : List (Int × Datum) :=
  v.parts.foldl (fun es p =>
    match p with
    | .app .select a i =>
      if a = array then
        match f.number i with
        | .number q =>
          let key := q.floor
          if es.any (·.1 == key) then es
          else if element = .bool then
            match v.truth? p with
            | some b => es ++ [(key, .truth b)]
            | none => es
          else if (v.monomial? [p]).isSome then es ++ [(key, f.number p)]
          else es
        | _ => es
      else es
    | _ => es) []

/-- The divisions by zero, by their dividends. -/
def byZero (v : View) (f : Valuation) (op : TermOp) : List (Datum × Datum) :=
  v.parts.foldl (fun es p =>
    match p with
    | .app o a b =>
      if o = op && f.number b = .number 0 then
        let key := f.number a
        if es.any (·.1 == key) then es else es ++ [(key, f.number p)]
      else es
    | _ => es) []

/-- The divisions of integers by zero, by their dividends. -/
def integersByZero (v : View) (f : Valuation) (op : TermOp) : List (Int × Datum) :=
  (v.byZero f op).filterMap fun (a, x) => a.rational?.map fun q => (q.floor, x)

/-- A scalar as a datum. -/
def datumOf : Scalar → Datum
  | .int n => .number n
  | .real q => .number q
  | .bool t => .truth t
  | .algebraic a => .algebraic a.coefficients

/-- The table of a function that the assumptions describe. -/
def knownTable? (v : View) (f : KnownFunction) : Option DatumTable :=
  (v.known.find? (·.function == f)).map fun k =>
    let entry := fun (e : Int × Scalar) => (e.1, datumOf e.2)
    ⟨k.table.entries.map entry, k.table.steps.map entry,
      (k.table.default.map datumOf).getD (.number 0)⟩

/-- How an array goes on outside its table: steps and a default. -/
abbrev Filling := BasicSort → List (Int × Datum) → List (Int × Datum) × Datum

/-- The candidate of a valuation for some constants. -/
def candidate (v : View) (f : Valuation) (constants : List (String × TermSort)) (filling : Filling) :
    Candidate :=
  let table := fun (function : KnownFunction) (s : BasicSort) (entries : List (Int × Datum)) =>
    match v.knownTable? function with
    | some t => t
    | none =>
      let (steps, default) := filling s entries
      (⟨entries, steps, default⟩ : DatumTable)
  let realQuotients := v.byZero f .rdiv
  let integral := realQuotients.filterMap fun (a, x) => a.rational?.map fun q => (q.floor, x)
  { root := f.root
    constants := constants.map fun (name, sort) =>
      let t := Term.const name sort
      ((name, sort),
        match sort with
        | .basic .bool => .truth ((v.truth? t).getD false)
        | .basic _ => .datum (f.number t)
        | .array e => .array (table (.array name e) e (v.entries f t e)))
    integerQuotients := table (.byZero .idiv) .int (v.integersByZero f .idiv)
    remainders := table (.byZero .mod) .int (v.integersByZero f .mod)
    realQuotients := realQuotients
    realQuotient := (table (.byZero .rdiv) .real integral).default }

end View

end Discharge
