import Discharge.Logic.Term

/-!
# Polynomials over terms

The arithmetic part of a term as a polynomial with rational coefficients. Its atoms are the terms
that arithmetic does not take apart: constants, array reads, divisions by something that is not a
number, and remainders. Widening an integer to a real does not change its value and leaves no trace.

Two further forms serve the search: the terms of a polynomial, and polynomials whose unknowns are
numbered instead of being terms.
-/

namespace Discharge

/-! ## Polynomials -/

/-- A product of atoms, in any order; the empty product is one. -/
abbrev Monomial := List Term

/-- A sum of monomials with their coefficients. No two of them are the same up to order, and no
coefficient is zero. -/
abbrev Polynomial := List (Monomial × Rat)

namespace Polynomial

/-- A number. -/
def const (q : Rat) : Polynomial := if q = 0 then [] else [([], q)]

/-- An atom. -/
def atom (t : Term) : Polynomial := [([t], 1)]

/-- Adds a multiple of a monomial. -/
def addMonomial (m : Monomial) (c : Rat) : Polynomial → Polynomial
  | [] => if c = 0 then [] else [(m, c)]
  | (n, d) :: p =>
    if m.isPerm n then (if c + d = 0 then p else (n, c + d) :: p)
    else (n, d) :: addMonomial m c p

/-- Addition. -/
def add : Polynomial → Polynomial → Polynomial
  | [], q => q
  | (m, c) :: p, q => addMonomial m c (add p q)

/-- Multiplication by a number. -/
def scale (c : Rat) (p : Polynomial) : Polynomial :=
  if c = 0 then [] else p.map fun (m, d) => (m, c * d)

/-- Negation. -/
def neg (p : Polynomial) : Polynomial := scale (-1) p

/-- Subtraction. -/
def sub (p q : Polynomial) : Polynomial := add p (neg q)

/-- Multiplication by a multiple of a monomial. -/
def mulMonomial (m : Monomial) (c : Rat) : Polynomial → Polynomial
  | [] => []
  | (n, d) :: p => addMonomial (m ++ n) (c * d) (mulMonomial m c p)

/-- Multiplication. -/
def mul : Polynomial → Polynomial → Polynomial
  | [], _ => []
  | (m, c) :: p, q => add (mulMonomial m c q) (mul p q)

/-- The value of a polynomial without atoms. -/
def constant? : Polynomial → Option Rat
  | [] => some 0
  | [([], c)] => some c
  | _ => none

end Polynomial

namespace Term

/-- Division or remainder of two numbers, if both are integers and the divisor is not zero. The
remainder is never negative. -/
def divideNumbers? (op : TermOp) (a b : Rat) : Option Rat :=
  if a.den = 1 && b.den = 1 && b ≠ 0 then
    match op with
    | .idiv => some (a.num / b.num : Int)
    | .mod => some (a.num % b.num : Int)
    | _ => none
  else none

/-- The polynomial of an arithmetic term. -/
def polynomial : Term → Polynomial
  | .int n => .const n
  | .real q => .const q
  | .neg a => .neg (polynomial a)
  | .toReal a => polynomial a
  | .app .add a b => .add (polynomial a) (polynomial b)
  | .app .sub a b => .sub (polynomial a) (polynomial b)
  | .app .mul a b => .mul (polynomial a) (polynomial b)
  | .app .rdiv a b =>
    match (polynomial b).constant? with
    | some c => if c = 0 then .atom (.app .rdiv a b) else .scale (1 / c) (polynomial a)
    | none => .atom (.app .rdiv a b)
  | .app .idiv a b =>
    match (polynomial a).constant?, (polynomial b).constant? with
    | some c, some d =>
      match divideNumbers? .idiv c d with
      | some q => .const q
      | none => .atom (.app .idiv a b)
    | _, _ => .atom (.app .idiv a b)
  | .app .mod a b =>
    match (polynomial a).constant?, (polynomial b).constant? with
    | some c, some d =>
      match divideNumbers? .mod c d with
      | some q => .const q
      | none => .atom (.app .mod a b)
    | _, _ => .atom (.app .mod a b)
  | t => .atom t

end Term

/-! ## Terms of polynomials

Terms that have a given polynomial, among the integers if its coefficients and atoms are integers.
-/

namespace Term

/-- A number as a term of an arithmetic sort; its whole part among the integers. -/
def numeral (s : TermSort) (q : Rat) : Term := if s = .int then .int q.floor else .real q

/-- The product of the atoms of a monomial, as a term of a sort. -/
def ofMonomial (s : TermSort) : Monomial → Term
  | [] => numeral s 1
  | [a] => a.coerce s
  | a :: m => .app .mul (a.coerce s) (ofMonomial s m)

/-- A sum of two terms, without zeros. -/
def plus (a b : Term) : Term :=
  match a, b with
  | .int 0, b => b
  | a, .int 0 => a
  | a, b => .app .add a b

/-- The integer term of a polynomial with integer coefficients and integer atoms. -/
def ofIntegerPolynomial (p : Polynomial) : Term :=
  p.foldl (fun t (m, c) =>
    let part :=
      if m.isEmpty then .int c.num
      else if c = 1 then ofMonomial .int m
      else .app .mul (.int c.num) (ofMonomial .int m)
    plus t part) (.int 0)

/-- The real term of a polynomial. -/
def ofRealPolynomial (p : Polynomial) : Term :=
  p.foldl (fun t (m, c) =>
    let part := m.foldl (fun t a =>
      .app .mul t (if a.sortOf = .int then .toReal a else a)) (.real c)
    .app .add t part) (.real 0)

/-- The sort of a polynomial as a term: real if a coefficient is no integer or an atom is real. -/
def sortOfPolynomial (p : Polynomial) : TermSort :=
  if p.all fun (m, c) => c.den = 1 && m.all (·.sortOf = .int) then .int else .real

/-- The term of a polynomial. -/
def ofPolynomial (s : TermSort) (p : Polynomial) : Term :=
  if s = .int then ofIntegerPolynomial p else ofRealPolynomial p

end Term

/-! ## Polynomials in numbered unknowns

Polynomials with rational coefficients whose unknowns are numbered from zero. Monomials are lists of
exponents; those of a polynomial descend by total degree, and between monomials of one degree by their
first exponent that differs.
-/

/-- A monomial: the exponents of the unknowns in order. Exponents that are left out at the end are
zero, and the last one that is listed is not. -/
abbrev Exponents := List Nat

/-- A sum of monomials with coefficients that are not zero, in descending order. -/
abbrev MultiPolynomial := List (Exponents × Rat)

namespace Exponents

/-- The product of two monomials. -/
def mul : Exponents → Exponents → Exponents
  | [], n => n
  | m, [] => m
  | d :: m, e :: n => (d + e) :: mul m n

/-- The sum of the exponents. -/
def degree (m : Exponents) : Nat := m.foldl (· + ·) 0

/-- The order by the first exponent that differs. -/
def compareLex : Exponents → Exponents → Ordering
  | [], [] => .eq
  | [], e :: n => if e = 0 then compareLex [] n else .lt
  | d :: m, [] => if d = 0 then compareLex m [] else .gt
  | d :: m, e :: n => if d = e then compareLex m n else if d < e then .lt else .gt

/-- The order by degree, then by the first exponent that differs. -/
def compare (m n : Exponents) : Ordering :=
  let d := m.degree
  let e := n.degree
  if d = e then compareLex m n else if d < e then .lt else .gt

/-- The monomial of an unknown. -/
def single : Nat → Exponents
  | 0 => [1]
  | i + 1 => 0 :: single i

end Exponents

namespace MultiPolynomial

/-- A number. -/
def const (c : Rat) : MultiPolynomial := if c = 0 then [] else [([], c)]

/-- An unknown. -/
def unknown (i : Nat) : MultiPolynomial := [(.single i, 1)]

/-- Addition. -/
def add : MultiPolynomial → MultiPolynomial → MultiPolynomial
  | [], q => q
  | p, [] => p
  | (m, c) :: p, (n, d) :: q =>
    match m.compare n with
    | .gt => (m, c) :: add p ((n, d) :: q)
    | .lt => (n, d) :: add ((m, c) :: p) q
    | .eq => if c + d = 0 then add p q else (m, c + d) :: add p q
termination_by p q => p.length + q.length

/-- Multiplication by a number. -/
def scale (c : Rat) (p : MultiPolynomial) : MultiPolynomial :=
  if c = 0 then [] else p.map fun (m, d) => (m, c * d)

/-- Multiplication by a multiple of a monomial. -/
def mulMonomial (m : Exponents) (c : Rat) (p : MultiPolynomial) : MultiPolynomial :=
  if c = 0 then [] else p.map fun (n, d) => (m.mul n, c * d)

/-- Multiplication. -/
def mul : MultiPolynomial → MultiPolynomial → MultiPolynomial
  | [], _ => []
  | (m, c) :: p, q => add (mulMonomial m c q) (mul p q)

/-- Subtraction. -/
def sub (p q : MultiPolynomial) : MultiPolynomial := add p (scale (-1) q)

/-- The value of a polynomial without unknowns. -/
def constant? : MultiPolynomial → Option Rat
  | [] => some 0
  | [([], c)] => some c
  | _ => none

end MultiPolynomial

end Discharge
