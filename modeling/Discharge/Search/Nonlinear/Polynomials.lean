import Discharge.Decision.Polynomial
import Discharge.Search.Roots

/-!
# Polynomials in several unknowns

Further operations on polynomials in numbered unknowns: division with remainder, the view of a polynomial as one
in a single unknown whose coefficients are polynomials in the others, and substitution.
-/

namespace Discharge

/-! ## Division and substitution -/

namespace Exponents

/-- The exponent of an unknown. -/
def exponent (m : Exponents) (i : Nat) : Nat := m.getD i 0

/-- Drops zeros at the end. -/
def trim (m : Exponents) : Exponents := (m.reverse.dropWhile (· == 0)).reverse

/-- The monomial with another exponent of an unknown. -/
def withExponent : Exponents → Nat → Nat → Exponents
  | m, i, e =>
    let padded := m ++ List.replicate (i + 1 - m.length) 0
    trim (List.set padded i e)

/-- The quotient of two monomials, if it is one. -/
def quotient? : Exponents → Exponents → Option Exponents
  | m, [] => some m
  | [], _ :: _ => none
  | d :: m, e :: n =>
    if d < e then none
    else (quotient? m n).map fun q => if q.isEmpty && d = e then [] else (d - e) :: q

/-- The least common multiple. -/
def lcm : Exponents → Exponents → Exponents
  | m, [] => m
  | [], n => n
  | d :: m, e :: n => max d e :: lcm m n

/-- Whether two monomials have no unknown in common. -/
def isCoprime (m n : Exponents) : Bool := (m.zip n).all fun (d, e) => d = 0 || e = 0

/-- The unknowns of a monomial. -/
def unknowns (m : Exponents) : List Nat :=
  (m.zipIdx.filter fun (e, _) => e ≠ 0).map Prod.snd

end Exponents

namespace MultiPolynomial

/-- The total degree. -/
def degree (p : MultiPolynomial) : Nat :=
  match p with
  | [] => 0
  | (m, _) :: _ => m.degree

/-- The unknowns of a polynomial, ascending. -/
def unknowns (p : MultiPolynomial) : List Nat :=
  let size := p.foldl (fun n (m, _) => max n m.length) 0
  (List.range size).filter fun i => p.any fun (m, _) => m.exponent i ≠ 0

/-- The highest exponent of an unknown. -/
def degreeIn (i : Nat) (p : MultiPolynomial) : Nat := p.foldl (fun d (m, _) => max d (m.exponent i)) 0

/-- Whether an unknown occurs. -/
def hasUnknown (i : Nat) (p : MultiPolynomial) : Bool := p.any fun (m, _) => m.exponent i ≠ 0

/-- A sum of polynomials. -/
def sum (ps : List MultiPolynomial) : MultiPolynomial := ps.foldl add []

/-- The coefficients of the powers of an unknown, by rising powers. -/
def coefficientsIn (i : Nat) (p : MultiPolynomial) : Array MultiPolynomial :=
  let empty : Array MultiPolynomial := Array.replicate (p.degreeIn i + 1) []
  p.foldr (fun (m, c) (cs : Array MultiPolynomial) =>
    cs.modify (m.exponent i) (add [(m.withExponent i 0, c)])) empty

/-- The polynomial with a power of an unknown as a factor. -/
def shiftIn (i k : Nat) (p : MultiPolynomial) : MultiPolynomial :=
  p.mulMonomial (Exponents.withExponent [] i k) 1

/-- The polynomial with another one in the place of an unknown, and the quotient of the difference by the
difference of the two. -/
def substitute (p : MultiPolynomial) (i : Nat) (h : MultiPolynomial) : MultiPolynomial × MultiPolynomial :=
  let cs := (p.coefficientsIn i).toList
  -- the remainder and the quotient of a division by `x - h`
  cs.reverse.foldl (fun (pair : MultiPolynomial × MultiPolynomial) c =>
    (c.add (pair.1.mul h), (pair.2.shiftIn i 1).add pair.1)) ([], [])

/-- The coefficients by rising powers of a polynomial in a single unknown. -/
def toUnivariate (i : Nat) (p : MultiPolynomial) : List Rat :=
  (List.range (p.degreeIn i + 1)).map fun k =>
    ((p.find? fun (m, _) => m.exponent i = k).map Prod.snd).getD 0

/-- The polynomial in a single unknown with some coefficients by rising powers. -/
def ofUnivariate (i : Nat) (p : List Rat) : MultiPolynomial :=
  sum (p.mapIdx fun k c => if c = 0 then [] else [(Exponents.withExponent [] i k, c)])

/-- The multiple with integer coefficients that have no common divisor and of which the first is positive. -/
def primitive (p : MultiPolynomial) : MultiPolynomial :=
  let l : Nat := p.foldl (fun l (_, c) => Nat.lcm l c.den) 1
  let g : Nat := p.foldl (fun g (_, c) => Nat.gcd g (c * (l : Rat)).num.natAbs) 0
  match p with
  | [] => []
  | (_, c) :: _ =>
    let s : Rat := (l : Rat) / (if g = 0 then 1 else (g : Rat))
    p.scale (if c < 0 then -s else s)

/-- The quotient of two polynomials, if it is one. -/
def divide? (d : MultiPolynomial) : Nat → MultiPolynomial → Option MultiPolynomial
  | 0, _ => none
  | fuel + 1, p =>
    match p, d with
    | [], _ => some []
    | _, [] => none
    | (m, c) :: _, (n, e) :: _ =>
      match m.quotient? n with
      | none => none
      | some k =>
        (divide? d fuel (p.sub (d.mulMonomial k (c / e)))).map fun q => add [(k, c / e)] q

end MultiPolynomial

/-! ## Projections

Over a part of the other unknowns in which no resultant of two polynomials vanishes, and no discriminant and no
leading coefficient, the roots of the polynomials in one unknown keep their number and their order.
`MultiPolynomial.project` gives these resultants, discriminants and leading coefficients.
-/

namespace MultiPolynomial

/-- The monomial that divides a polynomial. -/
def content (p : MultiPolynomial) : Exponents :=
  let meet := fun (m n : Exponents) => Exponents.trim ((m.zip n).map fun (d, e) => min d e)
  match p with
  | [] => []
  | (m, _) :: rest => rest.foldl (fun n (k, _) => meet n k) m

/-- The unknowns that divide a polynomial, and the polynomial without them. -/
def factors (p : MultiPolynomial) : List MultiPolynomial :=
  let m := p.content
  let rest := p.filterMap fun (n, c) => (n.quotient? m).map fun k => (Exponents.trim k, c)
  m.unknowns.map unknown ++ [primitive rest]

/-- The determinant of a matrix by elimination without fractions. `pivot` is the last pivot; `sign` is negative after
an odd number of exchanges. -/
def determinantFrom (limit : Nat) : Nat → MultiPolynomial → Rat → List (List MultiPolynomial) →
    Option MultiPolynomial
  | 0, _, _, _ => none
  | _ + 1, _, sign, [] => some (const sign)
  | fuel + 1, pivot, sign, rows =>
    match rows.findIdx? fun row => !(row.headD []).isEmpty with
    | none => some []
    | some k =>
      let row := rows.getD k []
      let others := rows.eraseIdx k
      let sign := if k % 2 = 0 then sign else -sign
      match row, others with
      | [], _ => none
      | a :: _, [] => some (a.scale sign)
      | a :: rest, others =>
        let next := others.mapM fun other =>
          match other with
          | [] => none
          | b :: entries =>
            (rest.zip entries).mapM fun (x, y) =>
              let q := (a.mul y).sub (b.mul x)
              if limit < q.length then none
              else if pivot.constant? == some 1 then some q
              else divide? pivot 4000 q
        match next with
        | some next => determinantFrom limit fuel a sign next
        | none => none

/-- The determinant of a matrix, unless it needs a polynomial with more monomials than a limit. -/
def determinant (limit : Nat) (rows : List (List MultiPolynomial)) : Option MultiPolynomial :=
  determinantFrom limit (rows.length + 1) (const 1) 1 rows

/-- The resultant of two polynomials with respect to an unknown that occurs in both. -/
def resultant (limit : Nat) (i : Nat) (p q : MultiPolynomial) : Option MultiPolynomial :=
  let a := (p.coefficientsIn i).toList.reverse
  let b := (q.coefficientsIn i).toList.reverse
  let m := a.length - 1
  let n := b.length - 1
  let row := fun (cs : List MultiPolynomial) (k width : Nat) =>
    List.replicate k [] ++ cs ++ List.replicate (width - k - cs.length) []
  if 8 < m + n then none
  else
    determinant limit
      ((List.range n).map (fun k => row a k (m + n)) ++ (List.range m).map fun k => row b k (m + n))

/-- The derivative with respect to an unknown. -/
def derivative (i : Nat) (p : MultiPolynomial) : MultiPolynomial :=
  sum (p.map fun (m, c) =>
    let e := m.exponent i
    if e = 0 then [] else [(m.withExponent i (e - 1), c * e)])

/-- The coefficient of the highest power of an unknown. -/
def leadingIn (i : Nat) (p : MultiPolynomial) : MultiPolynomial := ((p.coefficientsIn i).back?).getD []

/-- The most monomials of a polynomial in a projection. -/
def projectionLimit : Nat := 40

/-- Polynomials without constants, repetitions and monomials as factors. -/
def normalized (ps : List MultiPolynomial) : List MultiPolynomial :=
  ((ps.flatMap factors).filter fun p => p.constant?.isNone).eraseDups

/-- The projection of polynomials along an unknown. What is too large is left out. -/
def project (i : Nat) (ps : List MultiPolynomial) : List MultiPolynomial :=
  let ps := normalized ps
  let about := ps.filter (·.hasUnknown i)
  let others := ps.filter fun p => !p.hasUnknown i
  let leading := about.map (leadingIn i)
  let discriminants := about.filterMap fun p =>
    if p.degreeIn i < 2 then none else resultant projectionLimit i p (p.derivative i)
  let resultants := about.zipIdx.flatMap fun (p, k) =>
    (about.drop (k + 1)).filterMap fun q => resultant projectionLimit i p q
  normalized (others ++ leading ++ discriminants ++ resultants)

/-- The projection of polynomials to one unknown: the others are eliminated, those of low degree first. -/
def projectTo (i : Nat) : Nat → List MultiPolynomial → List (List Rat)
  | 0, _ => []
  | fuel + 1, ps =>
    let others := (ps.flatMap unknowns).eraseDups.filter (· ≠ i)
    let best := others.foldl (fun (best : Option (Nat × Nat)) j =>
      let weight := ps.foldl (fun n p => n + p.degreeIn j) 0
      match best with
      | some (_, w) => if weight < w then some (j, weight) else best
      | none => some (j, weight)) none
    match best with
    | some (j, _) =>
      let next := project j ps
      if 40 < next.length then (next.filter fun p => p.unknowns == [i]).map (toUnivariate i)
      else projectTo i fuel next
    | none => (ps.filter fun p => p.hasUnknown i && p.degreeIn i ≤ 24).map (toUnivariate i)

end MultiPolynomial

end Discharge
