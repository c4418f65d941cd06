/-!
# Algebraic numbers

A `Root` is a real at which a polynomial with rational coefficients vanishes, given by an interval at whose ends
the polynomial has opposite signs. An `Algebraic` is the value of a polynomial at such a root. If it comes with
a polynomial with integer coefficients that it annihilates, and no rational root of that polynomial lies near
it, then it is irrational (`Algebraic.isIrrational`), and is written with ten decimals.

Polynomials in one unknown are lists of coefficients by rising powers.
-/

namespace Discharge

namespace Univariate

/-- The value of a polynomial. -/
def evaluate : List Rat → Rat → Rat
  | [], _ => 0
  | c :: cs, x => c + x * evaluate cs x

/-- Addition. -/
def add : List Rat → List Rat → List Rat
  | [], q => q
  | p, [] => p
  | a :: p, b :: q => (a + b) :: add p q

/-- Multiplication by a number. -/
def scale (c : Rat) (p : List Rat) : List Rat := p.map (c * ·)

/-- Multiplication. -/
def mul : List Rat → List Rat → List Rat
  | [], _ => []
  | a :: p, q => add (scale a q) (0 :: mul p q)

/-- The polynomial at the value of another one. -/
def compose : List Rat → List Rat → List Rat
  | [], _ => []
  | c :: cs, q => add [c] (mul q (compose cs q))

/-- Whether all coefficients are zero. -/
def isZero (p : List Rat) : Bool := p.all (· == 0)

end Univariate

/-- A real number: the polynomial changes its sign between the two ends, and the number is a root of it between
them. -/
structure Root where
  coefficients : List Rat
  low : Rat
  high : Rat
deriving DecidableEq, Inhabited

namespace Root

/-- Whether the polynomial changes its sign between the ends. -/
def isIsolated (r : Root) : Bool :=
  r.low < r.high &&
    Univariate.evaluate r.coefficients r.low * Univariate.evaluate r.coefficients r.high < 0

end Root

/-- The numbers between two ends. -/
structure Enclosure where
  low : Rat
  high : Rat
deriving DecidableEq, Inhabited

namespace Enclosure

/-- A single number. -/
def point (q : Rat) : Enclosure := ⟨q, q⟩

/-- The sums of two numbers. -/
def add (a b : Enclosure) : Enclosure := ⟨a.low + b.low, a.high + b.high⟩

/-- The smaller of two numbers. -/
def smaller (p q : Rat) : Rat := if p ≤ q then p else q

/-- The larger of two numbers. -/
def larger (p q : Rat) : Rat := if p ≤ q then q else p

/-- The products of two numbers lie between the products of the ends. -/
def mul (a b : Enclosure) : Enclosure :=
  let products := [a.low * b.low, a.low * b.high, a.high * b.low, a.high * b.high]
  ⟨products.foldl smaller (a.low * b.low), products.foldl larger (a.low * b.low)⟩

/-- An enclosure of the values of a polynomial. -/
def evaluate (x : Enclosure) : List Rat → Enclosure
  | [] => point 0
  | c :: cs => (point c).add (x.mul (x.evaluate cs))

/-- Whether two enclosures have no number in common. -/
def isApart (a b : Enclosure) : Bool := a.high < b.low || b.high < a.low

/-- The number that ten decimals of a rational spell, the rest being cut off. -/
def tenDecimals (q : Rat) : Int := Int.tdiv (q.num * (Nat.pow 10 10 : Nat)) q.den

/-- Whether the numbers have the same sign and the same ten decimals. -/
def fixesDecimals (a : Enclosure) : Bool :=
  0 < a.low * a.high && tenDecimals a.low = tenDecimals a.high

/-- Ten decimals, then a question mark. -/
def text (a : Enclosure) : String :=
  let n := (tenDecimals a.low).natAbs
  let digits := Nat.toDigits 10 (n % Nat.pow 10 10)
  (if a.low < 0 then "-" else "") ++ toString (n / Nat.pow 10 10) ++ "." ++
    String.ofList (List.replicate (10 - digits.length) '0' ++ digits) ++ "?"

end Enclosure

/-- The value of a polynomial at a root. It is a root of the annihilator, because the annihilator of the
polynomial is a multiple of the root's own polynomial, by the quotient. -/
structure Algebraic where
  coefficients : List Rat
  annihilator : List Rat
  quotient : List Rat
deriving DecidableEq, Inhabited

namespace Algebraic

/-- An enclosure of the number. -/
def enclosure (r : Root) (a : Algebraic) : Enclosure :=
  (⟨r.low, r.high⟩ : Enclosure).evaluate a.coefficients

/-- Whether the number is a root of the annihilator. -/
def isAnnihilated (r : Root) (a : Algebraic) : Bool :=
  Univariate.isZero (Univariate.add (Univariate.compose a.annihilator a.coefficients)
    (Univariate.scale (-1) (Univariate.mul r.coefficients a.quotient)))

/-- Whether a polynomial with integer coefficients has no rational root in an enclosure. The denominator of such
a root divides the leading coefficient. -/
def hasNoRationalRoot (p : List Rat) (e : Enclosure) : Bool :=
  match p.getLast? with
  | none => false
  | some lead =>
    let first := (e.low * lead.abs).ceil
    let last := (e.high * lead.abs).floor
    lead ≠ 0 && p.all (·.den = 1) && last - first < 4 &&
      (List.range (last - first + 1).toNat).all fun k =>
        Univariate.evaluate p (((first + k : Int) : Rat) / lead.abs) ≠ 0

/-- Whether the number is shown to be irrational, and its ten decimals are known. -/
def isIrrational (r : Root) (a : Algebraic) : Bool :=
  a.isAnnihilated r && hasNoRationalRoot a.annihilator (a.enclosure r) &&
    (a.enclosure r).fixesDecimals

end Algebraic

end Discharge
