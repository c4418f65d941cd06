import Discharge.Search.Nonlinear.Case
import Discharge.Search.Nonlinear.Polynomials
import Discharge.Search.Tableau

/-!
# Certificates

A conjunction of conditions is refuted by products of them, and of squares, that add up to a negative number.
`Case.certificate?` looks for such a sum among products of a bounded degree. It solves a linear system in which
each monomial is a variable, and each product says of its monomials that their combination is not negative. As
long as the system has a solution it is given further products that are negative in the solution.
-/

namespace Discharge

/-- A product of conditions and squares. -/
structure Generator where
  /-- The numbers of the conditions. -/
  factors : List Nat
  squares : List MultiPolynomial
  /-- The product, reduced modulo equations. -/
  poly : MultiPolynomial
  isPositive : Bool
deriving Inhabited

/-- A linear system over monomials. -/
structure MomentSystem where
  tableau : Tableau := .empty
  numbers : Std.HashMap Exponents Nat := ∅
  generators : Array Generator := #[]
  /-- The multiples of generators that contradict each other. -/
  conflict : Option (List (Nat × Rat)) := none
  /-- The number of steps that are left. -/
  fuel : Nat
deriving Inhabited

namespace MomentSystem

/-- The variable of a monomial, which is added if it is new. -/
def addMonomial (s : MomentSystem) (m : Exponents) : MomentSystem × Nat :=
  match s.numbers[m]? with
  | some v => (s, v)
  | none =>
    let v := s.tableau.size
    ({ s with tableau := s.tableau.addVariable, numbers := s.numbers.insert m v }, v)

/-- The form of a polynomial without its constant, and the constant. -/
def addForm (s : MomentSystem) (p : MultiPolynomial) : MomentSystem × List (Nat × Rat) × Rat :=
  p.foldl (fun (s, form, constant) (m, c) =>
    if m.isEmpty then (s, form, constant + c)
    else
      let (s, v) := s.addMonomial m
      (s, State.insertCoefficient v c form, constant)) (s, [], 0)

/-- Adds a generator. -/
def add (s : MomentSystem) (g : Generator) : MomentSystem :=
  let k := s.generators.size
  let s := { s with generators := s.generators.push g }
  let (s, form, constant) := s.addForm g.poly
  let strict : Rat := if g.isPositive then 1 else 0
  match form with
  | [] =>
    if constant < 0 || (constant = 0 && g.isPositive) then { s with conflict := some [(k, 1)] } else s
  | (v, c) :: rest =>
    let (t, u, factor) :=
      if rest.isEmpty then (s.tableau, v, c)
      else (s.tableau.addForm form.toArray, s.tableau.size, 1)
    let (t, conflict) :=
      if 0 < factor then t.raise u ⟨⟨-constant / factor, strict⟩, k, 1 / factor⟩
      else t.lower u ⟨⟨-constant / factor, -strict⟩, k, -1 / factor⟩
    { s with tableau := t, conflict := s.conflict.or conflict }

/-- Looks for a solution; gives whether there is one. -/
def solve (s : MomentSystem) : MomentSystem × Bool :=
  if s.conflict.isSome then (s, false)
  else
    match s.tableau.solve State.sparseLimit s.fuel with
    | (t, .feasible, fuel) => ({ s with tableau := t, fuel := fuel }, true)
    | (t, .conflict c, fuel) => ({ s with tableau := t, fuel := fuel, conflict := some c }, false)
    | (t, .unknown, fuel) => ({ s with tableau := t, fuel := fuel }, false)

/-- The value of a polynomial in a solution; monomials that do not occur count as zero. -/
def valueOf (s : MomentSystem) (solution : Array Rat) (p : MultiPolynomial) : Rat :=
  p.foldl (fun q (m, c) =>
    if m.isEmpty then q + c
    else
      match s.numbers[m]? with
      | some v => q + Fraction.mul c (solution.getD v 0)
      | none => q) 0

end MomentSystem

namespace Moments

/-- The value of a bilinear form. -/
def form (matrix : List (List Rat)) (v w : List Rat) : Rat :=
  (matrix.zip v).foldl (fun q (row, c) =>
    if c = 0 then q else q + c * (row.zip w).foldl (fun q (d, e) => if e = 0 then q else q + d * e) 0) 0

/-- A combination of vectors whose square is negative. The vectors after the first are made orthogonal
to it, unless its own square is not positive. -/
def negative? (matrix : List (List Rat)) : Nat → List (List Rat) → Option (List Rat)
  | 0, _ => none
  | _, [] => none
  | fuel + 1, v :: vs =>
    let square := form matrix v v
    if square < 0 then some v
    else if square = 0 then
      match vs.find? fun w => form matrix v w ≠ 0 with
      | some w =>
        let c := -(form matrix w w + 1) / (2 * form matrix v w)
        some (Univariate.add w (v.map (c * ·)))
      | none => negative? matrix fuel vs
    else
      negative? matrix fuel (vs.map fun w =>
        let c := -(form matrix v w) / square
        if c = 0 then w else Univariate.add w (v.map (c * ·)))

/-- A vector near to one with a negative square, with small integers if there is one. -/
def rounded? (matrix : List (List Rat)) (v : List Rat) : Option (List Rat) :=
  let size := v.foldl (fun m c => if m < c.abs then c.abs else m) 0
  if size = 0 then none
  else
    ((List.range 24).map (· + 1) ++ [60, 360, 2520]).findSome? fun (k : Nat) =>
      let w := v.map fun c => (((c / size * (k : Rat) + 1 / 2).floor : Int) : Rat)
      if form matrix w w < 0 then some w else none

/-- A number near a rational. -/
def approximate (q : Rat) : Float :=
  let shift : Int := q.den.log2
  let cut := Nat.pow 2 (shift - 50).toNat
  Float.ofInt (q.num / cut) / Float.ofNat (q.den / cut)

/-- The rational that a number is, to nine places. -/
def exact (x : Float) : Rat :=
  let n := (x * 1000000000).round
  ((if n < 0 then -(n.abs.toUInt64.toNat : Int) else (n.toUInt64.toNat : Int)) : Rat) / 1000000000

/-- The product of a matrix with a vector. -/
def image (matrix : List (List Float)) (v : List Float) : List Float :=
  matrix.map fun row => (row.zip v).foldl (fun s (a, b) => s + a * b) 0

/-- Multiplies a vector with a matrix again and again, keeping its greatest entry at one. -/
def iterate (matrix : List (List Float)) : Nat → List Float → List Float
  | 0, v => v
  | fuel + 1, v =>
    let w := image matrix v
    let size := w.foldl (fun m c => max m c.abs) 0
    iterate matrix fuel (if size == 0 then w else w.map (· / size))

/-- A vector near the one whose square is least among those of its length. -/
def lowest (matrix : List (List Rat)) : List Rat :=
  let rows := matrix.map fun row => row.map approximate
  let bound := rows.foldl (fun m row => max m (row.foldl (fun s c => s + c.abs) 0)) 0
  let shifted := rows.mapIdx fun i row => row.mapIdx fun j c => if i == j then bound - c else -c
  let start := rows.mapIdx fun i _ => 1 + Float.ofNat (i * i % 7) / 10
  (iterate shifted 200 start).map exact

/-- The unit vectors. -/
def units (count : Nat) : List (List Rat) :=
  (List.range count).map fun i => (List.range count).map fun j => if i = j then (1 : Rat) else 0

/-- Vectors of one or two entries with a negative square. -/
def sparseNegatives (matrix : List (List Rat)) : List (List Rat) :=
  let rows := (matrix.map List.toArray).toArray
  let count := rows.size
  let entry := fun (i j : Nat) => (rows.getD i #[]).getD j 0
  let vector := fun (cs : List (Nat × Rat)) =>
    (List.range count).map fun i => ((cs.find? (·.1 == i)).map Prod.snd).getD 0
  let singles := (List.range count).filterMap fun i =>
    if entry i i < 0 then some (vector [(i, 1)]) else none
  if !singles.isEmpty then singles
  else
    (List.range count).flatMap fun j => (List.range j).filterMap fun i =>
      let c : Rat := if 0 < entry i j then -1 else 1
      if entry i i + 2 * c * entry i j + entry j j < 0 then some (vector [(i, 1), (j, c)]) else none

/-- A vector with a negative square, if there is one. -/
def negative (matrix : List (List Rat)) : Option (List Rat) :=
  (rounded? matrix (lowest matrix)).or
    ((negative? matrix matrix.length (units matrix.length)).bind (rounded? matrix))

end Moments

namespace Case

/-- A product of conditions, given by their numbers. -/
def product (c : Case) (factors : List Nat) : Generator where
  factors := factors
  squares := []
  poly := factors.foldl (fun q i => c.equations.remainder (q.mul (c.conditions.getD i default).signedRemainder))
    (.const 1)
  isPositive := factors.all fun i => (c.conditions.getD i default).sign ≠ .nonneg

/-- The monomials up to a degree in some unknowns. -/
def monomialsUpTo (unknowns : List Nat) : Nat → List Exponents
  | 0 => [[]]
  | d + 1 =>
    let lower := monomialsUpTo unknowns d
    let top := lower.filter fun m => m.degree = d
    (lower ++ top.flatMap fun m => unknowns.map fun i => m.mul (.single i)).eraseDups

/-- The polynomials whose combinations are squared: monomials up to a degree, reduced modulo the equations. -/
def squareBasis (c : Case) (degree : Nat) : List (MultiPolynomial × MultiPolynomial) :=
  let es := c.equations
  let unknowns := c.unknowns
  let all := (monomialsUpTo unknowns degree).map fun m =>
    (([(m, 1)] : MultiPolynomial), es.remainder [(m, 1)])
  all.foldl (fun (kept : List (MultiPolynomial × MultiPolynomial)) b =>
    if b.2.isEmpty || kept.any (·.2 == b.2) then kept else kept ++ [b]) []

/-- What squares a certificate may use together with a generator: a basis and its products with the generator. -/
structure SquareSource where
  generator : Generator
  basis : List (MultiPolynomial × MultiPolynomial)
  products : List (List MultiPolynomial)

/-- The product of a generator with the square of a combination of a basis. -/
def squareProduct (es : Equations) (source : SquareSource) (v : List Rat) : Generator :=
  let combine := fun (f : MultiPolynomial × MultiPolynomial → MultiPolynomial) =>
    ((source.basis.zip v).foldl (fun (q : MultiPolynomial) (b, c) => q.add ((f b).scale c)) [])
  let square := combine Prod.snd
  { factors := source.generator.factors
    squares := source.generator.squares ++ [combine Prod.fst]
    poly := es.remainder (source.generator.poly.mul (square.mul square))
    isPositive := false }

/-- Products with squares that are negative in a solution: those of sparse combinations, else another one. -/
def negativeSquares (es : Equations) (s : MomentSystem) (solution : Array Rat)
    (sources : List SquareSource) : List Generator :=
  let matrices := sources.map fun source =>
    (source, source.products.map fun row => row.map (s.valueOf solution))
  let sparse := matrices.flatMap fun (source, matrix) =>
    (Moments.sparseNegatives matrix).map fun v => (source, v)
  if !sparse.isEmpty then (sparse.take 8).map fun (source, v) => squareProduct es source v
  else
    (matrices.findSome? fun (source, matrix) =>
      (Moments.negative matrix).map fun v => squareProduct es source v).toList

/-- Adds products that are negative in solutions until the system has no solution. -/
def saturate (es : Equations) (products : List Generator) (sources : List SquareSource) :
    Nat → MomentSystem → MomentSystem
  | 0, s => s
  | rounds + 1, s =>
    match s.solve with
    | (s, false) => s
    | (s, true) =>
      let solution := s.tableau.solution
      let violated := products.filter fun g =>
        let x := s.valueOf solution g.poly
        x < 0 || (x = 0 && g.isPositive)
      let more :=
        if !violated.isEmpty then violated.take 8 else negativeSquares es s solution sources
      if more.isEmpty then s else saturate es products sources rounds (more.foldl .add s)

/-- How far certificates are looked for. -/
structure CertificateLimits where
  /-- The degree of monomials. -/
  degree : Nat
  /-- The number of products of conditions. -/
  products : Nat
  /-- The number of polynomials that are combined to a square. -/
  basis : Nat
  /-- The number of products that squares are multiplied by. -/
  sources : Nat
  rounds : Nat
  /-- The number of steps to solutions of linear systems. -/
  pivots : Nat

/-- The products of a number of conditions, by their numbers in ascending order, of which the first one is at
least a number. -/
def multisets (count : Nat) : Nat → Nat → List (List Nat)
  | 0, _ => [[]]
  | size + 1, least =>
    (List.range (count - least)).flatMap fun k =>
      (multisets count size (least + k)).map fun f => (least + k) :: f

/-- Products of two or more conditions, small ones first, until a number or a size is reached. -/
def productsUpTo (count limit : Nat) : Nat → List (List Nat)
  | 0 => []
  | size + 1 =>
    let smaller := productsUpTo count limit size
    if size = 0 || limit ≤ smaller.length then smaller
    else smaller ++ (multisets count (size + 1) 0).take (limit - smaller.length)

/-- The squares that may be used together with a generator: those of combinations of basis polynomials whose
products with the generator are small. -/
def squareSource? (es : Equations) (isSmall : MultiPolynomial → Bool) (size : Nat)
    (basis : List (MultiPolynomial × MultiPolynomial)) (g : Generator) : Option SquareSource :=
  let product := fun (b c : MultiPolynomial × MultiPolynomial) => es.remainder (g.poly.mul (b.2.mul c.2))
  let kept := basis.foldl (fun (kept : List (MultiPolynomial × MultiPolynomial)) b =>
    if kept.length < size && isSmall (product b b) && kept.all (fun c => isSmall (product b c)) then kept ++ [b]
    else kept) []
  if kept.isEmpty then none
  else some ⟨g, kept, kept.map fun b => kept.map (product b)⟩

/-- The divisor of an unknown that is a quotient, reduced modulo the equations; a multiple without a common divisor of
its coefficients. -/
def divisor? (c : Case) (i : Nat) : Option (Term × MultiPolynomial) :=
  match c.problem.atoms.getD i default with
  | .app .rdiv _ b =>
    (b.polynomial.numbered? c.problem.atoms.toList).map fun p => (b, (c.equations.remainder p).primitive)
  | _ => none

/-- The polynomials that an unknown may be multiplied by to replace it by other ones: its divisor, or its coefficient in
an equation that is linear in it. -/
def denominators (c : Case) (i : Nat) : List MultiPolynomial :=
  match c.divisor? i with
  | some (_, q) => [q]
  | none =>
    c.equations.basis.filterMap fun b =>
      if b.poly.degreeIn i = 1 then some (b.poly.leadingIn i).primitive else none

/-- The number of a positive condition that an unknown of a polynomial can be multiplied by to replace it by other
ones. -/
def denominator? (c : Case) (p : MultiPolynomial) : Option Nat :=
  p.unknowns.findSome? fun i =>
    (c.denominators i).findSome? fun q =>
      (List.range c.conditions.size).find? fun k =>
        let d := c.conditions.getD k default
        d.sign = .positive && d.remainder.constant?.isNone && d.remainder.primitive == q

/-- Multiplies a product by denominators as long as there are some. -/
def cleared (c : Case) : Nat → Generator → Generator
  | 0, g => g
  | fuel + 1, g =>
    match c.denominator? g.poly with
    | some k => cleared c fuel (c.product (k :: g.factors))
    | none => g

/-- A refutation by products of conditions and squares. -/
def certificate? (c : Case) (limits : CertificateLimits) : Option Refutation :=
  let count := c.conditions.size
  let own := (List.range count).map fun i => c.product [i]
  let singles := own ++ (own.map (c.cleared 6)).filter fun g => 1 < g.factors.length
  let degree := singles.foldl (fun d g => max d g.poly.degree) limits.degree
  let isSmall := fun (q : MultiPolynomial) => q.degree ≤ degree
  let products := (productsUpTo count limits.products (min degree 6)).map c.product
  let one : Generator := ⟨[], [], .const 1, true⟩
  let basis := c.squareBasis (degree / 2)
  let sources := ((one :: singles ++ products.filter fun g => g.factors.length ≤ 2).take
    limits.sources).filterMap (squareSource? c.equations isSmall limits.basis basis)
  let products := products.filter fun g => isSmall g.poly
  let s := saturate c.equations products sources limits.rounds
    (singles.foldl MomentSystem.add { fuel := limits.pivots })
  match s.conflict with
  | some combination =>
    c.sum? (combination.map fun (k, q) =>
      let g := s.generators.getD k default
      ⟨q, g.factors, g.squares⟩)
  | none => none

end Case

end Discharge
