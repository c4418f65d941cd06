import Discharge.Search.Nonlinear.Polynomials

/-!
# Consequences of equations

The polynomials that vanish because some given ones do. Each is kept as a combination of the given ones
(`Combination`). Equations that are linear in an unknown with a number as its coefficient are solved for that
unknown; the others are completed to a Gröbner basis as far as that is not too much work. `Equations.reduce` takes
the remainder of a polynomial modulo all of them.
-/

namespace Discharge

/-- A sum of multiples of given polynomials. -/
structure Combination where
  poly : MultiPolynomial
  /-- The multipliers, by the number of the given polynomial. -/
  multipliers : Array MultiPolynomial
deriving Inhabited

namespace Combination

/-- Addition. -/
def add (a b : Combination) : Combination where
  poly := a.poly.add b.poly
  multipliers := a.multipliers.mapIdx fun i p => p.add (b.multipliers.getD i [])

/-- Multiplication by a polynomial. -/
def mul (p : MultiPolynomial) (a : Combination) : Combination where
  poly := p.mul a.poly
  multipliers := a.multipliers.map fun q => if q.isEmpty then q else p.mul q

/-- Multiplication by a number. -/
def scale (c : Rat) (a : Combination) : Combination where
  poly := a.poly.scale c
  multipliers := a.multipliers.map fun q => q.scale c

/-- Zero as a combination. -/
def zero (count : Nat) : Combination := ⟨[], Array.replicate count []⟩

/-- The multiple with leading coefficient one. -/
def monic (a : Combination) : Combination :=
  match a.poly with
  | (_, c) :: _ => if c = 1 then a else a.scale (1 / c)
  | [] => a

end Combination

/-- What an unknown stands for: `part` is the quotient of integers or the remainder, `quotient` a quotient of reals. The
equation that a quotient of reals comes from is not solved for other unknowns. -/
inductive UnknownKind where
  | real
  | integer
  | part
  | quotient
deriving DecidableEq

/-- An equation that has been solved for an unknown. -/
structure Solved where
  unknown : Nat
  /-- What the unknown is equal to. -/
  value : MultiPolynomial
  /-- The unknown less its value. -/
  equation : Combination
deriving Inhabited

/-- Consequences of given equations. -/
structure Equations where
  /-- The number of given equations. -/
  count : Nat
  solved : List Solved
  /-- Polynomials with leading coefficient one. -/
  basis : List Combination
  /-- Whether the basis has been completed. -/
  isComplete : Bool
deriving Inhabited

namespace Equations

/-- The remainder of a polynomial after putting in the values of solved unknowns, and what was taken off. -/
def substituteAll (es : Equations) (p : MultiPolynomial) : MultiPolynomial × Combination :=
  es.solved.foldl (fun (p, taken) s =>
    if p.hasUnknown s.unknown then
      let (r, q) := p.substitute s.unknown s.value
      (r, taken.add (s.equation.mul q))
    else (p, taken)) (p, .zero es.count)

/-- The remainder of a polynomial modulo a basis, and what was taken off. -/
def divideBy (basis : List Combination) :
    Nat → MultiPolynomial → MultiPolynomial → Combination → MultiPolynomial × Combination
  | 0, p, rest, taken => (rest.add p, taken)
  | _ + 1, [], rest, taken => (rest, taken)
  | fuel + 1, (m, c) :: p, rest, taken =>
    let step := basis.findSome? fun b =>
      match b.poly with
      | (n, _) :: _ => (m.quotient? n).map fun k => (k, b)
      | [] => none
    match step with
    | none => divideBy basis fuel p (rest.add [(m, c)]) taken
    | some (k, b) =>
      divideBy basis fuel (MultiPolynomial.sub ((m, c) :: p) (b.poly.mulMonomial k c)) rest
        (taken.add (b.mul [(k, c)]))

/-- The most steps of a division. -/
def divisionLimit : Nat := 2000

/-- The remainder of a polynomial, and what was taken off. -/
def reduce (es : Equations) (p : MultiPolynomial) : MultiPolynomial × Combination :=
  let (p, taken) := es.substituteAll p
  if es.basis.isEmpty then (p, taken) else divideBy es.basis divisionLimit p [] taken

/-- The remainder of a polynomial. -/
def remainder (es : Equations) (p : MultiPolynomial) : MultiPolynomial := (es.reduce p).1

/-- The remainder of a consequence, as one. -/
def reduceCombination (es : Equations) (a : Combination) : Combination :=
  let (r, taken) := es.reduce a.poly
  { (a.add (taken.scale (-1))) with poly := r }

/-- The unknowns that occur in a polynomial only with a number as their coefficient. A polynomial with a product of a
quotient has none. -/
def linearUnknowns (kind : Nat → UnknownKind) (p : MultiPolynomial) : List (Nat × Rat) :=
  if p.any fun (m, _) => 1 < m.degree && m.unknowns.any fun i => kind i = .quotient then []
  else
    p.filterMap fun (m, c) =>
      match m.unknowns with
      | [i] =>
        if m.exponent i = 1 && p.all (fun (n, _) => n == m || n.exponent i = 0) then some (i, c) else none
      | _ => none

/-- An unknown to solve a polynomial for. The first choice is one that stands for no integer, the next one whose value
has integer coefficients; others only if `others` says so. -/
def linearUnknown? (kind : Nat → UnknownKind) (others : Bool) (p : MultiPolynomial) : Option (Nat × Rat) :=
  let choices := linearUnknowns kind p
  let isWhole := fun (c : Rat) => p.all fun (_, d) => (d / c).den = 1
  (choices.find? fun (i, _) => kind i = .real || kind i = .quotient).or <|
    (choices.find? fun (i, c) => kind i = .integer && isWhole c).or <|
    (choices.find? fun (_, c) => isWhole c).or <|
      if others then choices.head? else none

/-- Adds an equation solved for an unknown. -/
def addSolved (es : Equations) (i : Nat) (c : Rat) (a : Combination) : Equations :=
  let equation := a.scale (1 / c)
  let value := (MultiPolynomial.unknown i).sub equation.poly
  let s : Solved := ⟨i, value, equation⟩
  let others := es.solved.map fun t =>
    if t.value.hasUnknown i then
      let (r, q) := t.value.substitute i value
      -- `x - t` is `x - r` less `q` times `i - value`
      { t with
        value := r
        equation := { (t.equation.add (equation.mul q)) with
          poly := (MultiPolynomial.unknown t.unknown).sub r } }
    else t
  { es with solved := s :: others }

/-- Solves equations for unknowns as long as there is one to be solved; the others are left. -/
def solveLinear (kind : Nat → UnknownKind) : Nat → Equations → List Combination →
    Equations × List Combination
  | 0, es, rest => (es, rest)
  | fuel + 1, es, rest =>
    let rest := (rest.map es.reduceCombination).filter fun a => !a.poly.isEmpty
    let find := fun (others : Bool) =>
      rest.findSome? fun a => (linearUnknown? kind others a.poly).map fun x => (a, x)
    match (find false).or (find true) with
    | none => (es, rest)
    | some (a, i, c) => solveLinear kind fuel (es.addSolved i c a) rest

/-- The combination of two polynomials in which their leading monomials cancel. -/
def cancel (a b : Combination) : Option Combination :=
  match a.poly, b.poly with
  | (m, _) :: _, (n, _) :: _ =>
    if m.isCoprime n then none
    else
      let l := m.lcm n
      match l.quotient? m, l.quotient? n with
      | some k, some j => some ((a.mul [(k, 1)]).add (b.mul [(j, -1)]))
      | _, _ => none
  | _, _ => none

/-- The degree in which the leading monomials of two polynomials cancel. -/
def cancelDegree (a b : Combination) : Nat :=
  match a.poly, b.poly with
  | (m, _) :: _, (n, _) :: _ => (m.lcm n).degree
  | _, _ => 0

/-- Whether the leading monomial of a polynomial is a multiple of that of another one. -/
def isCovered (a b : Combination) : Bool :=
  match a.poly, b.poly with
  | (m, _) :: _, (n, _) :: _ => (m.quotient? n).isSome
  | _, _ => false

/-- Completes a basis by remainders of cancelling combinations, those of low degree first. Gives whether nothing is
left to do. -/
def complete : Nat → List Combination → List (Combination × Combination) → List Combination × Bool
  | 0, basis, pairs => (basis, pairs.isEmpty)
  | fuel + 1, basis, pairs =>
    let next := pairs.foldl (fun (best : Option (Nat × Combination × Combination)) (a, b) =>
      let d := cancelDegree a b
      match best with
      | some (e, _) => if d < e then some (d, a, b) else best
      | none => some (d, a, b)) none
    match next with
    | none => (basis, true)
    | some (_, a, b) =>
      let pairs := pairs.filter fun (c, d) => !(c.poly == a.poly && d.poly == b.poly)
      match cancel a b with
      | none => complete fuel basis pairs
      | some s =>
        let (r, taken) := divideBy basis divisionLimit s.poly [] (.zero s.multipliers.size)
        let s : Combination := { (s.add (taken.scale (-1))) with poly := r }
        if r.isEmpty then complete fuel basis pairs
        else
          let s := s.monic
          match s.poly with
          | [([], _)] => ([s], true)
          | _ =>
            let kept := basis.filter fun b => !isCovered b s
            let dropped := basis.filter fun b => isCovered b s
            let pairs := pairs ++ kept.map (fun b => (b, s)) ++ dropped.map (fun b => (b, s))
            complete fuel (kept ++ [s]) pairs

/-- The number of steps that are made to complete a basis. -/
def completionLimit : Nat := 60

/-- The polynomials of a list with their remainders modulo those before them, without zeros. -/
def interreduced (count : Nat) (ps : List Combination) : List Combination :=
  (ps.mergeSort fun a b => a.poly.degree ≤ b.poly.degree).foldl (fun (basis : List Combination) a =>
    let (r, taken) := divideBy basis divisionLimit a.poly [] (.zero count)
    if r.isEmpty then basis
    else basis ++ [({ (a.add (taken.scale (-1))) with poly := r } : Combination).monic]) []

/-- Solves equations for unknowns and completes the others to a basis, until no unknown can be solved for. -/
def settle (kind : Nat → UnknownKind) : Nat → Equations → List Combination → Equations
  | 0, es, rest => { es with basis := rest, isComplete := false }
  | fuel + 1, es, rest =>
    let (es, rest) := solveLinear kind (rest.length + 1) es rest
    let start := interreduced es.count rest
    let pairs := start.zipIdx.flatMap fun (a, i) => (start.drop (i + 1)).map fun b => (a, b)
    let (basis, isComplete) := complete completionLimit start pairs
    if basis.any fun b => !(linearUnknowns kind b.poly).isEmpty then settle kind fuel es basis
    else { es with basis := basis, isComplete := isComplete }

/-- The consequences of given equations. Unknowns that stand for no integers are solved for first. -/
def ofList (kind : Nat → UnknownKind) (ps : List MultiPolynomial) : Equations :=
  let count := ps.length
  settle kind 5 ⟨count, [], [], true⟩ (ps.mapIdx fun i p =>
    ⟨p, (Array.replicate count []).setIfInBounds i (MultiPolynomial.const 1)⟩)

/-- The consequences of given equations, without what they are combined from. -/
def ofPolynomials (kind : Nat → UnknownKind) (ps : List MultiPolynomial) : Equations :=
  settle kind 5 ⟨0, [], [], true⟩ (ps.map fun p => ⟨p, #[]⟩)

/-- Whether the equations contradict each other. -/
def isContradictory (es : Equations) : Bool :=
  es.basis.any fun b => b.poly.constant?.any (· ≠ 0)

end Equations

end Discharge
