import Discharge.Search.Nonlinear.Case

/-!
# Conditions on one unknown

The conditions on one unknown cut the line at the roots of their polynomials; in each part the signs are constant.
`Line.points` gives a point of each part in which all conditions hold. If there is none, `Case.refuteLine?` refutes
each part: there a condition is violated by a polynomial of one sign, and this polynomial is a sum of products of
the differences from the ends of the part, by its coefficients in the basis of Bernstein.
-/

namespace Discharge

/-- A condition on a polynomial in one unknown. -/
structure LineCondition where
  poly : List Rat
  sign : SignCondition
  /-- The number of the condition in its case; an equation has none. -/
  source : Option Nat
deriving Inhabited

/-- A point of the line. -/
abbrev LinePoint := Rat ⊕ Root

namespace Univariate

/-- The polynomial at `a + b x`. -/
def shift (p : List Rat) (a b : Rat) : List Rat := (compose p [a, b]).take p.length

/-- The binomial coefficients of an exponent. -/
def binomials : Nat → List Nat
  | 0 => [1]
  | n + 1 =>
    let row := binomials n
    List.zipWith (· + ·) (0 :: row) (row ++ [0])

/-- The coefficients in the basis of Bernstein over the unit interval. -/
def bernstein (p : List Rat) : List Rat :=
  let n := p.length - 1
  let top := (binomials n).toArray
  (List.range (n + 1)).map fun k =>
    let row := (binomials k).toArray
    (List.range (k + 1)).foldl (fun s j =>
      s + ((row.getD j 0 : Nat) : Rat) / ((top.getD j 1 : Nat) : Rat) * p.getD j 0) 0

/-- The rational with the least denominator between two positive ones, or on an end. -/
def simplestPositive : Nat → Rat → Rat → Rat
  | 0, a, _ => a
  | fuel + 1, a, b =>
    if a.ceil ≤ b then a.ceil
    else
      let f : Rat := a.floor
      f + 1 / simplestPositive fuel (1 / (b - f)) (1 / (a - f))

/-- The rational with the least denominator between two others, or on an end. -/
def simplest (a b : Rat) : Rat :=
  if a ≤ 0 && 0 ≤ b then 0
  else if b < 0 then -simplestPositive 200 (-b) (-a)
  else simplestPositive 200 a b

end Univariate

namespace Line

open Univariate

/-- The sign of a polynomial at a point. -/
def signAt (p : List Rat) : LinePoint → Int
  | .inl q => Univariate.signAt p q
  | .inr r => r.sign p

/-- Whether a condition holds at a point. -/
def holdsAt (x : LinePoint) (c : LineCondition) : Bool := c.sign.admits (signAt c.poly x)

/-- The lower end of an interval that holds a point. -/
def lower : LinePoint → Rat
  | .inl q => q
  | .inr r => r.low

/-- The upper end of an interval that holds a point. -/
def upper : LinePoint → Rat
  | .inl q => q
  | .inr r => r.high

/-- The point in a narrower interval. -/
def tighten : LinePoint → LinePoint
  | .inl q => .inl q
  | .inr r => .inr r.halve

/-- Two different points in intervals that are apart. -/
def apart : Nat → LinePoint → LinePoint → LinePoint × LinePoint
  | 0, a, b => (a, b)
  | fuel + 1, a, b =>
    if upper a < lower b || upper b < lower a then (a, b) else apart fuel (tighten a) (tighten b)

/-- Inserts a point into others, which ascend and are in intervals that are apart. It is none of them. -/
def insert (x : LinePoint) : List LinePoint → List LinePoint
  | [] => [x]
  | y :: ys =>
    let (a, b) := if upper x < lower y || upper y < lower x then (x, y) else apart 400 x y
    if upper a < lower b then a :: b :: ys else b :: insert a ys

/-- A simple rational between two points. -/
def between (a b : LinePoint) : Rat :=
  let u := upper a
  let l := lower b
  simplest ((2 * u + l) / 3) ((u + 2 * l) / 3)

/-- Takes the common divisors of a polynomial with those of a list apart, and gives what is left of it. -/
def refine (p : List Rat) : List (List Rat) → List (List Rat) × List Rat
  | [] => ([], p)
  | q :: qs =>
    let g := gcd p q
    if g.length ≤ 1 then
      let (rest, p) := refine p qs
      (q :: rest, p)
    else
      let (rest, p) := refine (quotient p g) qs
      let other := primitive (quotient q g)
      (if other.length ≤ 1 then (g :: rest, p) else (g :: other :: rest, p))

/-- Polynomials with simple roots, no two of them with a common one, that have the roots of all polynomials in a
list. -/
def coprime (ps : List (List Rat)) : List (List Rat) :=
  ps.foldl (fun qs p =>
    let (qs, rest) := refine (squareFree p) qs
    if rest.length ≤ 1 then qs else primitive rest :: qs) []

/-- The roots of all polynomials in a list, ascending. -/
def rootsOf (ps : List (List Rat)) : List LinePoint :=
  ((coprime ps).flatMap Roots.all).foldl (fun xs x => insert x xs) []

/-- The roots of all conditions, ascending. -/
def roots (cs : List LineCondition) : List LinePoint := rootsOf (cs.map (·.poly))

/-- Rationals before the first of some points, between neighbouring ones, and after the last. -/
def separators (ps : List LinePoint) : List Rat :=
  match ps, ps.getLast? with
  | first :: rest, some last =>
    ((((lower first).ceil - 1 : Int) : Rat) :: (ps.zip rest).map fun (a, b) => between a b) ++
      [(((upper last).floor + 1 : Int) : Rat)]
  | _, _ => [0]

/-- A point of each part into which the roots of polynomials cut the line. -/
def parts (polys : List (List Rat)) : List LinePoint :=
  let ps := rootsOf polys
  let ss := separators ps
  (ss.zip (ps.map some ++ [none])).flatMap fun (s, p) => .inl s :: p.toList

/-- The whole part of an irrational point. -/
def floorFrom : Nat → Root → Int
  | 0, r => r.low.floor
  | fuel + 1, r => if r.low.floor = r.high.floor then r.low.floor else floorFrom fuel r.halve

/-- The integers after which the signs of polynomials may change: the whole parts of their roots, and what comes
before a root that is an integer. -/
def cuts (polys : List (List Rat)) : List Int :=
  let all := (rootsOf polys).flatMap fun x =>
    match x with
    | .inl q => if q.den = 1 then [q.num - 1, q.num] else [q.floor]
    | .inr r => [floorFrom 400 r]
  all.eraseDups.mergeSort (· ≤ ·)

/-- An integer of each part of the integers. -/
def integerParts (polys : List (List Rat)) : List Int :=
  match cuts polys with
  | [] => [0]
  | k :: ks => k :: (k :: ks).map (· + 1)

/-- A point of each part of the line, or of the integers, in which all conditions hold. -/
def points (isInt : Bool) (cs : List LineCondition) : List LinePoint :=
  let polys := cs.map (·.poly)
  let all := if isInt then (integerParts polys).map fun (k : Int) => .inl k else parts polys
  all.filter fun x => cs.all (holdsAt x)

/-- Drops conditions as long as those that are left have no common point. -/
def essential (isInt : Bool) : List LineCondition → List LineCondition → List LineCondition
  | kept, [] => kept
  | kept, c :: rest =>
    if (points isInt (kept ++ rest)).isEmpty then essential isInt kept rest else essential isInt (kept ++ [c]) rest

/-- A divisor of `g` that still vanishes at a point, and that divides each polynomial as often as this one vanishes
there. -/
def factorFrom (x : LinePoint) : Nat → List Rat → List (List Rat) → List Rat
  | 0, g, _ => g
  | _, g, [] => g
  | fuel + 1, g, p :: ps =>
    if signAt p x ≠ 0 then factorFrom x fuel g ps
    else
      let d := gcd g p
      factorFrom x fuel d (quotient p d :: ps)

/-- A polynomial with a simple root at a point, powers of which are divisors of polynomials as often as these
vanish there. -/
def factorAt (x : LinePoint) (ps : List (List Rat)) : List Rat :=
  match x with
  | .inl q => primitive [-q, 1]
  | .inr r =>
    let fuel := ps.length + ps.foldl (fun n p => n + p.length) 0
    let once := factorFrom x fuel (squareFree r.coefficients) ps
    let twice := factorFrom x fuel once ps
    primitive (factorFrom x fuel twice ps)

/-- How often a factor divides a polynomial, and what is left. -/
def divideOut (g : List Rat) : Nat → List Rat → Nat × List Rat
  | 0, p => (0, p)
  | fuel + 1, p =>
    if (remainder p g).isEmpty then
      let (m, h) := divideOut g fuel (quotient p g)
      (m + 1, h)
    else (0, p)

end Line

namespace Case

open Univariate

/-- The conditions on one unknown alone. -/
def line (c : Case) (i : Nat) : List LineCondition :=
  let equations := c.equations.basis.filterMap fun b =>
    if b.poly.unknowns = [i] then some ⟨b.poly.toUnivariate i, .zero, none⟩ else none
  let others := (List.range c.conditions.size).filterMap fun k =>
    let d := c.conditions.getD k default
    if d.remainder.unknowns = [i] then some ⟨d.remainder.toUnivariate i, d.sign, some k⟩ else none
  equations ++ others

/-- The term of an unknown. -/
def atom (c : Case) (i : Nat) : Term := c.problem.atoms.getD i default

/-- A number of the sort of an unknown. -/
def numeral (c : Case) (i : Nat) (q : Rat) : Term := Term.numeral (c.atom i).sortOf q

/-- The formula that an unknown is at most a number. -/
def atMost (c : Case) (i : Nat) (q : Rat) : Term := .app .le (c.atom i) (c.numeral i q)

/-- The cases that two terms are less, greater or equal. -/
def trichotomy (c : Case) (a b : Term) (less greater equal : Case → Option Refutation) : Option Refutation := do
  let f ← (Law.trichotomy a b).formula?
  let r ← less (c.assume (.app .lt a b))
  let s ← greater (c.assume (.app .lt b a))
  let t ← equal (c.assume (.app .eq a b))
  some (.law (.trichotomy a b) (.split (.app .lt a b) r (.split (.app .lt b a) s (.split (.app .eq a b) t (.clash f)))))

/-- The number of the condition that has been assumed last. -/
def lastCondition (c : Case) : Nat := c.conditions.size - 1

/-- An end of a part of the line: where it is, and the number of the condition that says so. -/
abbrev End := Rat × Nat

/-- What a polynomial that is positive in a part of the line is multiplied by to contradict a condition: the number
of the condition, unless it is an equation, and conditions that are factors. -/
structure Closing where
  condition : Option Nat
  factors : List Nat

/-- The refutation of a part by the coefficients of a positive polynomial; each comes with its factors. -/
def close? (c : Case) (closing : Closing) (terms : List (Rat × List Nat)) : Option Refutation :=
  c.sum? ((closing.condition.toList.map fun k => ⟨1, [k], []⟩) ++
    terms.map fun (q, factors) => ⟨q, closing.factors ++ factors, []⟩)

/-- Where the part after a number begins. -/
def next (c : Case) (i : Nat) (q : Rat) : Rat := if c.isInteger i then ((q.floor + 1 : Int) : Rat) else q

/-- A number between two others, or an integer that is not below the first and is below the second. -/
def middle (c : Case) (i : Nat) (low high : Rat) : Rat :=
  if c.isInteger i then ((((low + high) / 2).floor : Int) : Rat)
  else simplest (low + (high - low) / 3) (high - (high - low) / 3)

/-- Refutes that an integer has the only value between two ends. -/
def refutePoint? (c : Case) (i : Nat) (low high : End) : Option Refutation :=
  let f := Term.app .eq (c.atom i) (c.numeral i low.1)
  let no := c.assume (.not f)
  Refutation.cases f (c.assume f).immediate?
    (no.sum? [⟨1, [low.2, high.2], []⟩, ⟨1, [no.lastCondition], []⟩])

/-- Refutes a part between two ends, in which a polynomial is positive. -/
def refuteBetween? (i : Nat) (closing : Closing) (h : List Rat) :
    Nat → Case → End → End → Option Refutation
  | 0, _, _, _ => none
  | fuel + 1, c, low, high =>
    if low.1 = high.1 then c.refutePoint? i low high
    else
      let width := high.1 - low.1
      let n := h.length - 1
      let coefficients := bernstein (shift h low.1 width)
      let least := coefficients.foldl (fun m c => if c < m then c else m) (coefficients.headD 0)
      if 0 < least then
        let scale := 1 / width ^ n
        let terms := (coefficients.zip (binomials n)).mapIdx fun k (b, m) =>
          ((b - least) * (m : Rat) * scale, List.replicate k low.2 ++ List.replicate (n - k) high.2)
        c.close? closing ((least, []) :: terms)
      else
        let q := c.middle i low.1 high.1
        let f := c.atMost i q
        let yes := c.assume f
        let no := c.assume (.not f)
        Refutation.cases f (refuteBetween? i closing h fuel yes low (q, yes.lastCondition))
          (refuteBetween? i closing h fuel no (no.next i q, no.lastCondition) high)

/-- Refutes a part with one end, in which a polynomial is positive. `up` says whether the part is above its end. -/
def refuteBeyond? (i : Nat) (closing : Closing) (h : List Rat) (up : Bool) :
    Nat → Case → End → Option Refutation
  | 0, _, _ => none
  | fuel + 1, c, a =>
    let coefficients := shift h a.1 (if up then 1 else -1)
    if coefficients.all (0 ≤ ·) && 0 < coefficients.headD 0 then
      c.close? closing (coefficients.mapIdx fun k q => (q, List.replicate k a.2))
    else
      let step : Rat := ((a.1.abs + 1).ceil : Int)
      let q : Rat := if up then ((a.1 + step).ceil : Int) else ((a.1 - step).floor : Int)
      let f := c.atMost i q
      let below := c.assume f
      let above := c.assume (.not f)
      let ends : End × End := ((q, below.lastCondition), (c.next i q, above.lastCondition))
      if up then
        Refutation.cases f (refuteBetween? i closing h 60 below a ends.1)
          (refuteBeyond? i closing h up fuel above ends.2)
      else
        Refutation.cases f (refuteBeyond? i closing h up fuel below ends.1)
          (refuteBetween? i closing h 60 above ends.2 a)

/-- The closing by a condition with a polynomial of one sign at a point, and the polynomial that is positive. -/
def closingAt (x : LinePoint) (d : LineCondition) : Closing × List Rat :=
  let h := if 0 < Line.signAt d.poly x then d.poly else scale (-1) d.poly
  (⟨if d.sign = .zero then none else d.source, []⟩, h)

/-- Refutes one side of the point at which a factor vanishes, given that the factor has a sign there. `x` is a point
of this side, at which a condition is violated. -/
def refuteSide? (i : Nat) (g : List Rat) (cs : List LineCondition) (x : Rat) (c : Case) (low high : End) :
    Option Refutation :=
  match cs.find? fun d => !Line.holdsAt (.inl x) d with
  | none => none
  | some d =>
    let (m, h) := Line.divideOut g d.poly.length d.poly
    let h := if 0 < evaluate h x then h else scale (-1) h
    let closing : Closing :=
      ⟨if d.sign = .zero then none else d.source, List.replicate m c.lastCondition⟩
    refuteBetween? i closing h 60 c low high

/-- Refutes a part between two ends with one root in it. -/
def refuteAround? (i : Nat) (cs : List LineCondition) (root : LinePoint) (c : Case) (low high : End) :
    Option Refutation :=
  match cs.find? fun d => Line.signAt d.poly root ≠ 0 && !Line.holdsAt root d with
  | some d =>
    let (closing, h) := closingAt root d
    refuteBetween? i closing h 60 c low high
  | none =>
    let g := Line.factorAt root (cs.map (·.poly))
    let isRising := evaluate g low.1 < 0
    let side := fun (x : Rat) (c : Case) => refuteSide? i g cs x c low high
    c.trichotomy (c.problem.term (.ofUnivariate i g)) (.real 0)
      (side (if isRising then low.1 else high.1)) (side (if isRising then high.1 else low.1)) immediate?

/-- Refutes the parts after an end. -/
def refuteAfter? (i : Nat) (cs : List LineCondition) : List LinePoint → List Rat → Case → End → Option Refutation
  | root :: roots, s :: separators, c, low =>
    let f := c.atMost i s
    let yes := c.assume f
    let no := c.assume (.not f)
    Refutation.cases f (refuteAround? i cs root yes low (s, yes.lastCondition))
      (refuteAfter? i cs roots separators no (s, no.lastCondition))
  | _, _, c, low =>
    match cs.find? fun d => !Line.holdsAt (.inl low.1) d with
    | none => none
    | some d =>
      let (closing, h) := closingAt (.inl low.1) d
      refuteBeyond? i closing h true 60 c low

/-- Refutes conditions on a real. -/
def refuteReals? (c : Case) (i : Nat) (cs : List LineCondition) : Option Refutation :=
  let roots := Line.roots cs
  match Line.separators roots with
  | s :: separators =>
    let f := c.atMost i s
    let yes := c.assume f
    let no := c.assume (.not f)
    match cs.find? fun d => !Line.holdsAt (.inl s) d with
    | none => none
    | some d =>
      let (closing, h) := closingAt (.inl s) d
      Refutation.cases f (refuteBeyond? i closing h false 60 yes (s, yes.lastCondition))
        (refuteAfter? i cs roots separators no (s, no.lastCondition))
  | [] => none

/-- Refutes integers between two ends, of which none is a root unless it is the only one. -/
def refuteIntegersBetween? (i : Nat) (cs : List LineCondition) (c : Case) (low high : End) : Option Refutation :=
  if high.1 < low.1 then c.sum? [⟨1, [low.2], []⟩, ⟨1, [high.2], []⟩]
  else if low.1 = high.1 then c.refutePoint? i low high
  else
    match cs.find? fun d => !Line.holdsAt (.inl low.1) d with
    | none => none
    | some d =>
      let (closing, h) := closingAt (.inl low.1) d
      refuteBetween? i closing h 60 c low high

/-- Refutes the integers after an end. -/
def refuteIntegersAfter? (i : Nat) (cs : List LineCondition) : List Int → Case → End → Option Refutation
  | k :: ks, c, low =>
    let f := c.atMost i k
    let yes := c.assume f
    let no := c.assume (.not f)
    Refutation.cases f (refuteIntegersBetween? i cs yes low ((k : Rat), yes.lastCondition))
      (refuteIntegersAfter? i cs ks no ((k + 1 : Int), no.lastCondition))
  | [], c, low =>
    match cs.find? fun d => !Line.holdsAt (.inl low.1) d with
    | none => none
    | some d =>
      let (closing, h) := closingAt (.inl low.1) d
      refuteBeyond? i closing h true 60 c low

/-- Refutes conditions on an integer. -/
def refuteIntegers? (c : Case) (i : Nat) (cs : List LineCondition) : Option Refutation :=
  let (k, ks) :=
    match Line.cuts (cs.map (·.poly)) with
    | k :: ks => (k, ks)
    | [] => (0, [])
  let f := c.atMost i k
  let yes := c.assume f
  let no := c.assume (.not f)
  match cs.find? fun d => !Line.holdsAt (.inl k) d with
  | none => none
  | some d =>
    let (closing, h) := closingAt (.inl k) d
    Refutation.cases f (refuteBeyond? i closing h false 60 yes ((k : Rat), yes.lastCondition))
      (refuteIntegersAfter? i cs ks no ((k + 1 : Int), no.lastCondition))

/-- The refutation by the conditions on one unknown alone, if they have no common point. -/
def refuteLine? (c : Case) (i : Nat) : Option Refutation :=
  let cs := c.line i
  let isInt := c.isInteger i
  if cs.isEmpty || !(Line.points isInt cs).isEmpty then none
  else
    let cs := Line.essential isInt [] cs
    if isInt then c.refuteIntegers? i cs else c.refuteReals? i cs

end Case

end Discharge
