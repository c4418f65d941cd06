import Discharge.Search.Formulas

/-!
# Linear feasibility

A `Tableau` looks for rational values of numbered variables that respect bounds. Some of the variables
stand for linear forms in the others; those in the basis are kept as combinations of the ones outside it,
whose values are within their bounds. Strict bounds are kept apart from others by an infinitely small unit,
which is replaced by a small number at the end.

Bounds are put on and taken off again in the reverse order, and the values stay as they are meanwhile. In each
step of `Tableau.solve` a variable of the basis that violates a bound leaves it, the least numbered first, so
that no basis comes back. Where none can take its place, the bounds in its row contradict each other.
-/

namespace Discharge

/-! ## Quick arithmetic on rationals

The sum and the product of two rationals, for which nothing has to be cancelled if both are integers.
-/

namespace Fraction

/-- The sum of two rationals. -/
@[inline] def add (a b : Rat) : Rat :=
  if a.den = 1 && b.den = 1 then ((a.num + b.num : Int) : Rat) else a + b

/-- The difference of two rationals. -/
@[inline] def sub (a b : Rat) : Rat :=
  if a.den = 1 && b.den = 1 then ((a.num - b.num : Int) : Rat) else a - b

/-- The product of two rationals. -/
@[inline] def mul (a b : Rat) : Rat :=
  if a.den = 1 && b.den = 1 then ((a.num * b.num : Int) : Rat) else a * b

/-- Whether a rational is zero. -/
@[inline] def isZero (a : Rat) : Bool := a.num == 0

/-- Whether a rational is below another one. -/
@[inline] def less (a b : Rat) : Bool :=
  if a.den = 1 && b.den = 1 then a.num < b.num else a < b

end Fraction

/-! ## Tableaus -/

/-- A combination of numbered variables, which ascend. -/
abbrev LinearForm := Array (Nat × Rat)

namespace LinearForm

/-- The sum of the rest of a form and a multiple of the rest of another, behind what has been found. -/
def combineFrom (p : LinearForm) (c : Rat) (q : LinearForm) (i j : Nat) (out : LinearForm) :
    LinearForm :=
  if hi : i < p.size then
    if hj : j < q.size then
      let (v, a) := p[i]
      let (w, b) := q[j]
      if v < w then combineFrom p c q (i + 1) j (out.push (v, a))
      else if w < v then combineFrom p c q i (j + 1) (out.push (w, Fraction.mul c b))
      else
        let d := Fraction.add a (Fraction.mul c b)
        combineFrom p c q (i + 1) (j + 1) (if Fraction.isZero d then out else out.push (v, d))
    else combineFrom p c q (i + 1) j (out.push p[i])
  else if hj : j < q.size then
    let (w, b) := q[j]
    combineFrom p c q i (j + 1) (out.push (w, Fraction.mul c b))
  else out
termination_by (p.size - i) + (q.size - j)

/-- `p` with `c` times `q` added. -/
def combine (p : LinearForm) (c : Rat) (q : LinearForm) : LinearForm :=
  if Fraction.isZero c then p else combineFrom p c q 0 0 (Array.mkEmpty (p.size + q.size))

/-- Multiplication by a number. -/
def scale (c : Rat) (p : LinearForm) : LinearForm := p.map fun (v, a) => (v, Fraction.mul c a)

/-- The coefficient of a variable among the places from `low` to below `high`. -/
def coefficientIn (p : LinearForm) (v : Nat) : Nat → Nat → Nat → Rat
  | 0, _, _ => 0
  | fuel + 1, low, high =>
    if low < high then
      let middle := (low + high) / 2
      let (w, a) := p.getD middle (0, 0)
      if w = v then a
      else if w < v then coefficientIn p v fuel (middle + 1) high
      else coefficientIn p v fuel low middle
    else 0

/-- The coefficient of a variable. -/
def coefficient (p : LinearForm) (v : Nat) : Rat := coefficientIn p v (p.size + 1) 0 p.size

end LinearForm

/-- A rational with a multiple of an infinitely small unit. -/
structure UnitValue where
  main : Rat
  small : Rat
deriving DecidableEq, Inhabited

namespace UnitValue

/-- A rational. -/
@[inline] def ofRat (q : Rat) : UnitValue := ⟨q, 0⟩

/-- Addition. -/
@[inline] def add (a b : UnitValue) : UnitValue :=
  ⟨Fraction.add a.main b.main, Fraction.add a.small b.small⟩

/-- Subtraction. -/
@[inline] def sub (a b : UnitValue) : UnitValue :=
  ⟨Fraction.sub a.main b.main, Fraction.sub a.small b.small⟩

/-- Multiplication by a rational. -/
@[inline] def scale (c : Rat) (a : UnitValue) : UnitValue :=
  ⟨Fraction.mul c a.main, Fraction.mul c a.small⟩

/-- The order, in which the unit is above zero and below all rationals that are. -/
@[inline] def less (a b : UnitValue) : Bool :=
  Fraction.less a.main b.main || (a.main == b.main && Fraction.less a.small b.small)

end UnitValue

/-- A bound of a variable, and the multiple of a literal's constraint that states it. -/
structure Limit where
  value : UnitValue
  reason : Lit
  factor : Rat
deriving Inhabited

/-- Bounded variables, of which those in the basis are combinations of the others. -/
structure Tableau where
  lows : Array (Option Limit)
  highs : Array (Option Limit)
  values : Array UnitValue
  /-- The row of a variable in the basis. -/
  places : Array (Option Nat)
  rows : Array LinearForm
  /-- The variable of each row. -/
  owners : Array Nat
  /-- The bounds that have been replaced, the last one at the end: the variable, whether it is the lower
  bound, and what it was. -/
  replaced : Array (Nat × Bool × Option Limit)
deriving Inhabited

namespace Tableau

/-- No variables. -/
def empty : Tableau := ⟨#[], #[], #[], #[], #[], #[], #[]⟩

/-- The number of variables. -/
@[inline] def size (t : Tableau) : Nat := t.values.size

/-- The value of a variable. -/
@[inline] def value (t : Tableau) (v : Nat) : UnitValue := t.values.getD v default

/-- The lower bound of a variable. -/
@[inline] def low? (t : Tableau) (v : Nat) : Option Limit := t.lows.getD v none

/-- The upper bound of a variable. -/
@[inline] def high? (t : Tableau) (v : Nat) : Option Limit := t.highs.getD v none

/-- The row of a variable, if it is in the basis. -/
@[inline] def place? (t : Tableau) (v : Nat) : Option Nat := t.places.getD v none

/-- A further variable outside the basis. Its number is the size that the tableau had. -/
def addVariable (t : Tableau) : Tableau :=
  { t with
    lows := t.lows.push none
    highs := t.highs.push none
    values := t.values.push default
    places := t.places.push none }

/-- A further variable that stands for a form in the others. -/
def addForm (t : Tableau) (form : LinearForm) : Tableau :=
  let row := form.foldl (fun (row : LinearForm) (v, c) =>
    match t.place? v with
    | some r => row.combine c (t.rows.getD r #[])
    | none => row.combine c #[(v, 1)]) #[]
  let value := row.foldl (fun (s : UnitValue) (v, c) => s.add ((t.value v).scale c)) default
  { t with
    lows := t.lows.push none
    highs := t.highs.push none
    values := t.values.push value
    places := t.places.push (some t.rows.size)
    rows := t.rows.push row
    owners := t.owners.push t.size }

/-- Changes the value of a variable outside the basis. -/
def shift (t : Tableau) (v : Nat) (target : UnitValue) : Tableau :=
  let step := target.sub (t.value v)
  let values := (List.range t.rows.size).foldl (fun (values : Array UnitValue) r =>
    let c := (t.rows.getD r #[]).coefficient v
    if Fraction.isZero c then values
    else values.modify (t.owners.getD r 0) (·.add (step.scale c))) t.values
  { t with values := values.setIfInBounds v target }

/-- Puts a lower bound on a variable, or gives two bounds that contradict each other. -/
def raise (t : Tableau) (v : Nat) (b : Limit) : Tableau × Option (List (Lit × Rat)) :=
  let isTighter := match t.low? v with
    | some a => a.value.less b.value
    | none => true
  if !isTighter then (t, none)
  else
    let crossed := match t.high? v with
      | some h => if h.value.less b.value then some [(b.reason, b.factor), (h.reason, h.factor)] else none
      | none => none
    match crossed with
    | some c => (t, some c)
    | none =>
      let old := t.low? v
      let t := { t with
        replaced := t.replaced.push (v, true, old)
        lows := t.lows.setIfInBounds v (some b) }
      if (t.place? v).isNone && (t.value v).less b.value then (t.shift v b.value, none) else (t, none)

/-- Puts an upper bound on a variable, or gives two bounds that contradict each other. -/
def lower (t : Tableau) (v : Nat) (b : Limit) : Tableau × Option (List (Lit × Rat)) :=
  let isTighter := match t.high? v with
    | some a => b.value.less a.value
    | none => true
  if !isTighter then (t, none)
  else
    let crossed := match t.low? v with
      | some l => if b.value.less l.value then some [(b.reason, b.factor), (l.reason, l.factor)] else none
      | none => none
    match crossed with
    | some c => (t, some c)
    | none =>
      let old := t.high? v
      let t := { t with
        replaced := t.replaced.push (v, false, old)
        highs := t.highs.setIfInBounds v (some b) }
      if (t.place? v).isNone && b.value.less (t.value v) then (t.shift v b.value, none) else (t, none)

/-- Takes off bounds until a number of replacements is left. -/
def restore : Nat → Nat → Tableau → Tableau
  | 0, _, t => t
  | fuel + 1, count, t =>
    if t.replaced.size ≤ count then t
    else
      match t.replaced.back? with
      | none => t
      | some (v, isLow, old) =>
        let t := { t with replaced := t.replaced.pop }
        restore fuel count
          (if isLow then { t with lows := t.lows.setIfInBounds v old }
          else { t with highs := t.highs.setIfInBounds v old })

/-- Takes off all bounds that were put on after the tableau had a number of replacements. -/
def undoTo (t : Tableau) (count : Nat) : Tableau := restore t.replaced.size count t

/-- Whether a variable's value is below its lower bound. -/
@[inline] def isBelow (t : Tableau) (v : Nat) : Bool :=
  match t.low? v with
  | some b => (t.value v).less b.value
  | none => false

/-- Whether a variable's value is above its upper bound. -/
@[inline] def isAbove (t : Tableau) (v : Nat) : Bool :=
  match t.high? v with
  | some b => b.value.less (t.value v)
  | none => false

/-- Whether a variable's value may grow. -/
@[inline] def canGrow (t : Tableau) (v : Nat) : Bool :=
  match t.high? v with
  | some b => (t.value v).less b.value
  | none => true

/-- Whether a variable's value may shrink. -/
@[inline] def canShrink (t : Tableau) (v : Nat) : Bool :=
  match t.low? v with
  | some b => b.value.less (t.value v)
  | none => true

/-- The row whose variable violates a bound and is numbered least. -/
def violated? (t : Tableau) : Option Nat :=
  ((List.range t.rows.size).foldl (fun (best : Option (Nat × Nat)) r =>
    let v := t.owners.getD r 0
    match best with
    | some (w, _) => if v < w && (t.isBelow v || t.isAbove v) then some (v, r) else best
    | none => if t.isBelow v || t.isAbove v then some (v, r) else none) none).map Prod.snd

/-- Exchanges the variable of a row with one outside the basis. -/
def pivot (t : Tableau) (r v : Nat) : Tableau :=
  let row := t.rows.getD r #[]
  let owner := t.owners.getD r 0
  let inverse := 1 / row.coefficient v
  let others : LinearForm := row.filter fun (w, _) => w ≠ v
  let newRow := (others.scale (-inverse)).combine inverse #[(owner, 1)]
  let rows := t.rows.mapIdx fun i old =>
    if i = r then newRow
    else
      let c := old.coefficient v
      if Fraction.isZero c then old
      else
        let rest : LinearForm := old.filter fun (w, _) => w ≠ v
        rest.combine c newRow
  { t with
    rows := rows
    owners := t.owners.setIfInBounds r v
    places := (t.places.setIfInBounds v (some r)).setIfInBounds owner none }

/-- Gives the variable of a row a value by changing one outside the basis. -/
def move (t : Tableau) (r v : Nat) (target : UnitValue) : Tableau :=
  let owner := t.owners.getD r 0
  let a := (t.rows.getD r #[]).coefficient v
  let step := (target.sub (t.value owner)).scale (1 / a)
  t.shift v ((t.value v).add step)

/-- The literals with multipliers by which a row contradicts its bounds: that of the violated bound, and those
of the bounds at which the other variables are. -/
def explanation (t : Tableau) (r : Nat) (below : Bool) : List (Lit × Rat) :=
  let owner := t.owners.getD r 0
  let own := if below then t.low? owner else t.high? owner
  let others := (t.rows.getD r #[]).toList.filterMap fun (w, c) =>
    let b := if (0 < c) = below then t.high? w else t.low? w
    b.map fun b => (b.reason, c.abs * b.factor)
  (own.map fun b => (b.reason, b.factor)).toList ++ others

/-- What is known of the bounds. -/
inductive Verdict where
  | feasible
  /-- The constraints of the literals with these multipliers add up to a falsehood. -/
  | conflict (literals : List (Lit × Rat))
  | unknown

/-- How many rows each variable occurs in. -/
def columnSizes (t : Tableau) : Array Nat :=
  t.rows.foldl (fun (sizes : Array Nat) row =>
    row.foldl (fun (sizes : Array Nat) (v, _) => sizes.modify v (· + 1)) sizes)
    (Array.replicate t.size 0)

/-- The variable outside the basis that may take the place of a row's own one: the least numbered, or one that
occurs in few rows. -/
def entering? (t : Tableau) (row : LinearForm) (below sparse : Bool) : Option Nat :=
  let mayEnter := fun (w : Nat) (c : Rat) => if (0 < c) = below then t.canGrow w else t.canShrink w
  if sparse then
    let sizes := t.columnSizes
    (row.foldl (fun (best : Option (Nat × Nat)) (w, c) =>
      let size := sizes.getD w 0
      match best with
      | some (_, least) => if size < least && mayEnter w c then some (w, size) else best
      | none => if mayEnter w c then some (w, size) else none) none).map Prod.fst
  else (row.find? fun (w, c) => mayEnter w c).map Prod.fst

/-- Repairs violated bounds, until there is none or a row cannot be repaired. The first number is that of the steps in
which variables that occur in few rows enter the basis; the second bounds all steps, of which those left are given
back. -/
def solve : Nat → Nat → Tableau → Tableau × Verdict × Nat
  | _, 0, t => (t, .unknown, 0)
  | sparse, fuel + 1, t =>
    match t.violated? with
    | none => (t, .feasible, fuel)
    | some r =>
      let owner := t.owners.getD r 0
      let below := t.isBelow owner
      match t.entering? (t.rows.getD r #[]) below (0 < sparse) with
      | none => (t, .conflict (t.explanation r below), fuel)
      | some w =>
        let bound := if below then t.low? owner else t.high? owner
        let target := match bound with
          | some b => b.value
          | none => default
        solve (sparse - 1) fuel ((t.move r w target).pivot r w)

/-- A number for the infinitely small unit at which all bounds still hold. -/
def unit (t : Tableau) : Rat :=
  (List.range t.size).foldl (fun best v =>
    let a := t.value v
    let best := match t.low? v with
      | some b =>
        if b.value.main < a.main && a.small < b.value.small then
          let q := (a.main - b.value.main) / (b.value.small - a.small)
          if q < best then q else best
        else best
      | none => best
    match t.high? v with
    | some b =>
      if a.main < b.value.main && b.value.small < a.small then
        let q := (b.value.main - a.main) / (a.small - b.value.small)
        if q < best then q else best
      else best
    | none => best) 1

/-- The values of all variables. -/
def solution (t : Tableau) : Array Rat :=
  let unit := t.unit
  t.values.map fun a => Fraction.add a.main (Fraction.mul a.small unit)

end Tableau

end Discharge
