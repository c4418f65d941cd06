import Discharge.Decision.Algebraic

/-!
# Real roots

The real roots of a polynomial in one unknown, each as a rational or as an isolating interval. Roots are counted
by the sign changes of a Sturm chain and separated by halving. `Root.sign` gives the sign of another polynomial at a
root.
-/

namespace Discharge

namespace Univariate

/-- Drops zero coefficients of the highest powers. -/
def trim (p : List Rat) : List Rat := (p.reverse.dropWhile (· == 0)).reverse

/-- The coefficient of the highest power. -/
def leading (p : List Rat) : Rat := p.getLast?.getD 0

/-- Subtraction. -/
def sub (p q : List Rat) : List Rat := add p (scale (-1) q)

/-- Quotient and remainder of a division. -/
def divide (d : List Rat) : Nat → List Rat → List Rat × List Rat
  | 0, p => ([], p)
  | fuel + 1, p =>
    let p := trim p
    if p.length < d.length || d.isEmpty then ([], p)
    else
      let c := leading p / leading d
      let shift := List.replicate (p.length - d.length) 0
      let rest := (sub p (shift ++ scale c d)).dropLast
      let (q, r) := divide d fuel rest
      (add (shift ++ [c]) q, r)

/-- The quotient of a division. -/
def quotient (p d : List Rat) : List Rat := trim (divide (trim d) (p.length + 1) p).1

/-- The remainder of a division. -/
def remainder (p d : List Rat) : List Rat := trim (divide (trim d) (p.length + 1) p).2

/-- The multiple with integer coefficients that have no common divisor. -/
def primitive (p : List Rat) : List Rat :=
  let p := trim p
  let l : Nat := p.foldl (fun l c => Nat.lcm l c.den) 1
  let g : Nat := p.foldl (fun g c => Nat.gcd g (c * (l : Rat)).num.natAbs) 0
  if g = 0 then p else scale ((l : Rat) / (g : Rat)) p

/-- A positive multiple of the remainder of a division; the coefficients of both polynomials are integers. -/
def pseudoRemainder (d : List Rat) : Nat → List Rat → List Rat
  | 0, p => p
  | fuel + 1, p =>
    let p := trim p
    if p.length < d.length || d.isEmpty then p
    else
      let lead := leading d
      let c := if lead < 0 then -leading p else leading p
      let shift := List.replicate (p.length - d.length) 0
      pseudoRemainder d fuel (sub (scale lead.abs p) (shift ++ scale c d)).dropLast

/-- The greatest common divisor, up to a factor. -/
def gcdFrom : Nat → List Rat → List Rat → List Rat
  | 0, p, _ => p
  | fuel + 1, p, q =>
    if q.isEmpty then p else gcdFrom fuel q (primitive (pseudoRemainder q (p.length + 1) p))

/-- The greatest common divisor, up to a factor. -/
def gcd (p q : List Rat) : List Rat := gcdFrom (p.length + q.length + 1) (primitive p) (primitive q)

/-- The derivative. -/
def derivative (p : List Rat) : List Rat :=
  (p.mapIdx fun i c => (i : Rat) * c).drop 1

/-- The polynomial with the same roots, each of them simple. -/
def squareFree (p : List Rat) : List Rat :=
  let p := trim p
  let g := gcd p (derivative p)
  primitive (if g.length ≤ 1 then p else quotient p g)

/-- The sign of a rational. -/
def signOf (q : Rat) : Int := if 0 < q then 1 else if q < 0 then -1 else 0

/-- The sign of the value of a polynomial. Integer coefficients are multiplied by powers of the denominator. -/
def signAt (p : List Rat) (x : Rat) : Int :=
  if p.all (·.den = 1) then
    (p.reverse.foldl (fun (s : Int × Int) c => (s.1 * x.num + c.num * s.2, s.2 * (x.den : Int))) (0, 1)).1.sign
  else signOf (evaluate p x)

/-- The inverse of a polynomial modulo another one that has no factor in common with it: `s` and `t` are what
`p` and `q` are multiples of it by. -/
def inverseFrom : Nat → List Rat → List Rat → List Rat → List Rat → Option (List Rat)
  | 0, _, _, _, _ => none
  | fuel + 1, p, s, q, t =>
    if q.isEmpty then
      match p with
      | [c] => if c = 0 then none else some (scale (1 / c) s)
      | _ => none
    else
      let (k, r) := divide q (p.length + 1) p
      inverseFrom fuel q t (trim r) (trim (sub s (mul k t)))

/-- The inverse of a polynomial modulo another one, if they have no factor in common. -/
def inverse? (p modulus : List Rat) : Option (List Rat) :=
  (inverseFrom (p.length + modulus.length + 2) (trim p) [1] (trim modulus) []).map (remainder · modulus)

end Univariate

namespace Roots

open Univariate

/-- The Sturm chain after two neighbouring members. -/
def chain : Nat → List Rat → List Rat → List (List Rat)
  | 0, _, _ => []
  | fuel + 1, p, q =>
    if q.isEmpty then []
    else
      q :: chain fuel q (scale (-1) (primitive (pseudoRemainder q (p.length + 1) p)))

/-- The Sturm chain of a polynomial. -/
def sturm (p : List Rat) : List (List Rat) :=
  let p := primitive p
  p :: chain (p.length + 1) p (primitive (derivative p))

/-- The number of sign changes of a chain at a point. -/
def variations (c : List (List Rat)) (x : Rat) : Nat :=
  let signs := (c.map fun p => signAt p x).filter (· ≠ 0)
  ((signs.zip (signs.drop 1)).filter fun (a, b) => a ≠ b).length

/-- The number of roots above `low` and not above `high`. -/
def count (c : List (List Rat)) (low high : Rat) : Nat := variations c low - variations c high

/-- A power of two whose negation is below all roots and that is above them. -/
def bound (p : List Rat) : Rat :=
  let b := p.foldl (fun m c => let a := (c / leading p).abs; if m < a then a else m) 0 + 1
  (Nat.pow 2 (Nat.log2 b.ceil.toNat + 1) : Rat)

/-- Halves an interval with one root, at whose upper end there is none. A rational root is recognised where it is
the only one in the interval whose denominator divides the leading coefficient `lead`, which is an integer. -/
def refine (p : List Rat) (lead : Rat) : Nat → Rat → Rat → Rat ⊕ Root
  | 0, low, high => .inr ⟨p, low, high⟩
  | fuel + 1, low, high =>
    let middle := (low + high) / 2
    let guess : Rat := ((middle * lead + 1 / 2).floor : Int) / lead
    if (high - low) * lead < 1 then
      if low < guess && guess < high && signAt p guess = 0 then .inl guess else .inr ⟨p, low, high⟩
    else
      let s := signAt p middle
      if s = 0 then .inl middle
      else if signAt p low = s then refine p lead fuel middle high
      else refine p lead fuel low middle

/-- The roots in an interval at whose ends there is none, in ascending order. -/
def within (p : List Rat) (c : List (List Rat)) : Nat → Rat → Rat → List (Rat ⊕ Root)
  | 0, _, _ => []
  | fuel + 1, low, high =>
    match count c low high with
    | 0 => []
    | 1 => [refine p (leading p).abs 2000 low high]
    | _ =>
      let middle := (low + high) / 2
      if signAt p middle ≠ 0 then within p c fuel low middle ++ within p c fuel middle high
      else
        -- a rational root: leave it out of intervals on both sides
        let q := quotient p [-middle, 1]
        let d := sturm q
        within q d fuel low middle ++ [.inl middle] ++ within q d fuel middle high

/-- The real roots of a polynomial that is not constant. -/
def all (p : List Rat) : List (Rat ⊕ Root) :=
  let p := squareFree p
  if p.length ≤ 1 then []
  else
    let b := bound p
    within p (sturm p) 400 (-b) b

end Roots

namespace Root

open Univariate

/-- The root in the lower or upper half of its interval. -/
def halve (r : Root) : Root :=
  let middle := (r.low + r.high) / 2
  let s := signAt r.coefficients middle
  if s = 0 then
    -- a rational root stays inside
    let step := (r.high - r.low) / 4
    { r with low := middle - step, high := middle + step }
  else if signAt r.coefficients r.low = s then { r with low := middle }
  else { r with high := middle }

/-- The root in an interval that is narrower than a width. -/
def narrow (width : Rat) : Nat → Root → Root
  | 0, r => r
  | fuel + 1, r => if r.high - r.low < width then r else narrow width fuel r.halve

/-- Whether a polynomial vanishes at the root. -/
def isRootOf (r : Root) (q : List Rat) : Bool :=
  let q := remainder q r.coefficients
  if q.isEmpty then true
  else
    let g := gcd q r.coefficients
    1 < g.length && signAt g r.low * signAt g r.high < 0

/-- The sign of a polynomial that does not vanish at the root, which is approached meanwhile. -/
def signFrom (q : List Rat) : Nat → Root → Int
  | 0, _ => 0
  | fuel + 1, r =>
    let e := (⟨r.low, r.high⟩ : Enclosure).evaluate q
    if 0 < e.low then 1 else if e.high < 0 then -1 else signFrom q fuel r.halve

/-- The sign of a polynomial at the root. -/
def sign (r : Root) (q : List Rat) : Int := if r.isRootOf q then 0 else signFrom q 2000 r

end Root

end Discharge
