import Discharge.Search.View

/-!
# Integer points

`Lattice.split?` looks at a rational solution of a system in which some variables stand for integers.
If the solution is not one in integers, it gives an integer form and a bound: the form is at most the
bound, or at least one more, and this rules the solution out on both sides, or shows one side to be
impossible.

The equations between integers are solved first. Their integer solutions are those of a frame: an
origin, and directions with integer parameters. Equations without a common integer solution give a
form that they force to a value which is no integer. An inequality between integers is sharpened to
the next number that its form can take.
-/

namespace Discharge

namespace Lattice

/-- A parameter of the integer solutions: how the variables change with it, and its value as a form in
the variables. -/
structure Parameter where
  direction : Array Int
  form : Array Int
deriving Inhabited

/-- The integer solutions of some equations. -/
structure Frame where
  origin : Array Int
  parameters : List Parameter

/-- A form with a bound. -/
structure Split where
  form : List (Nat × Int)
  bound : Int

/-- The sum of products of two lists of numbers. -/
def dot (a b : Array Int) : Int :=
  (List.range a.size).foldl (fun s i => s + a.getD i 0 * b.getD i 0) 0

/-- The value of an integer form at rational values. -/
def valueAt (form : Array Int) (values : Array Rat) : Rat :=
  (List.range form.size).foldl (fun s i => s + form.getD i 0 * values.getD i 0) 0

/-- `a` with `c` times `b` added. -/
def addScaled (a : Array Int) (c : Int) (b : Array Int) : Array Int :=
  a.mapIdx fun i x => x + c * b.getD i 0

/-- All variables free: one parameter for each. -/
def Frame.initial (count : Nat) : Frame where
  origin := Array.replicate count 0
  parameters := (List.range count).map fun i =>
    let unit := (Array.replicate count (0 : Int)).setIfInBounds i 1
    ⟨unit, unit⟩

/-- Whether a rational is an integer. -/
def isInteger (q : Rat) : Bool := q.den = 1

/-- The split that a form with a forced value gives. -/
def splitAt (form : Array Int) (bound : Int) : Split :=
  ⟨(List.range form.size).filterMap fun i =>
    let c := form.getD i 0
    if c = 0 then none else some (i, c), bound⟩

/-- The parameter with the least factor that is not zero. -/
def least? (ps : List (Int × Parameter)) : Option (Int × Parameter) :=
  ps.foldl (fun best p =>
    if p.1 = 0 then best
    else match best with
      | none => some p
      | some b => if p.1.natAbs < b.1.natAbs then some p else best) none

/-- Divides the other factors by the least one, until it is the only one left. Each round changes the
parameters so that their factors are the remainders. Gives that factor with its parameter, and the
parameters whose factor is zero. -/
def reduce : Nat → List (Int × Parameter) → Option ((Int × Parameter) × List Parameter)
  | 0, _ => none
  | fuel + 1, ps =>
    match least? ps with
    | none => none
    | some (d, p) =>
      let others := ps.filter fun q => !(q.1 == d && q.2.form == p.form)
      if others.all (fun q => q.1 == 0) then some ((d, p), others.map Prod.snd)
      else
        let step := others.map fun (e, q) =>
          let k := e / d
          ((e - k * d, (⟨addScaled q.direction (-k) p.direction, q.form⟩ : Parameter)), (k, q.form))
        let form := step.foldl (fun f s => addScaled f s.2.1 s.2.2) p.form
        reduce fuel ((d, ⟨p.direction, form⟩) :: step.map Prod.fst)

/-- The solutions of a frame that also satisfy `form = value`, or a form whose value is forced and is
no integer. -/
def Frame.restrict (f : Frame) (form : Array Int) (value : Rat) : Except Split Frame :=
  let rest := value - (dot form f.origin : Int)
  match reduce 1000 (f.parameters.map fun p => (dot form p.direction, p)) with
  | none => .ok f
  | some ((d, p), others) =>
    let t := rest / (d : Rat)
    if isInteger t then .ok ⟨addScaled f.origin t.num p.direction, others⟩
    else .error (splitAt p.form t.floor)

/-- The least common multiple of the denominators. -/
def commonDenominator (coefficients : List (Nat × Rat)) : Nat :=
  coefficients.foldl (fun l (_, c) => Nat.lcm l c.den) 1

/-- A linear form with integer coefficients, and the factor that made them so. -/
def integerForm (count : Nat) (coefficients : List (Nat × Rat)) : Array Int × Rat :=
  let l := commonDenominator coefficients
  (coefficients.foldl (fun a (i, c) => a.modify i (· + (c * (l : Rat)).num)) (Array.replicate count 0), l)

/-- Adds a multiple of one row to another. -/
def addRow (r : Row) (c : Rat) (s : Row) : Row :=
  let merged := s.coefficients.foldl (fun (cs : List (Nat × Rat)) (i, d) =>
    if cs.any (·.1 == i) then cs.map fun (j, e) => if j = i then (j, e + c * d) else (j, e)
    else (i, c * d) :: cs) r.coefficients
  ⟨merged.filter (·.2 ≠ 0), r.constant + c * s.constant, r.relation⟩

/-- Solves equations for the variables that are no integers and gives what is left for the integers. -/
def eliminate (isInt : Nat → Bool) : Nat → List Row → List Row
  | 0, rows => rows.filter fun r => r.coefficients.all fun p => isInt p.1
  | fuel + 1, rows =>
    match rows.find? fun r => r.coefficients.any fun p => !isInt p.1 with
    | none => rows
    | some r =>
      match r.coefficients.find? fun p => !isInt p.1 with
      | none => rows
      | some (i, c) =>
        let others := rows.filter fun s => !(s.coefficients == r.coefficients && s.constant == r.constant)
        eliminate isInt fuel (others.map fun s =>
          match s.coefficients.find? (·.1 == i) with
          | some (_, d) => addRow s (-(d / c)) r
          | none => s)

/-- The split that sharpens an inequality between integers, if the given values violate the sharpened
one. -/
def sharpen? (f : Frame) (count : Nat) (values : Array Rat) (r : Row) : Option Split :=
  let (form, factor) := integerForm count r.coefficients
  let weights := f.parameters.map fun p => (dot form p.direction, p)
  let g := weights.foldl (fun g w => Nat.gcd g w.1.natAbs) 0
  if g = 0 then none
  else
    let reduced := weights.foldl (fun a w => addScaled a (w.1 / (g : Int)) w.2.form)
      (Array.replicate count 0)
    let constant := r.constant * factor + (dot form f.origin : Int)
    let least := (-constant / (g : Rat)).ceil
    if valueAt reduced values < least then some (splitAt reduced (least - 1)) else none

/-- The integer solutions of equations, or a form whose value they force and that is no integer. -/
def solveEquations (count : Nat) (isInt : Nat → Bool) (equations : List Row) : Except Split Frame :=
  (eliminate isInt equations.length equations).foldl (fun (f : Except Split Frame) r =>
    match f with
    | .error s => .error s
    | .ok f =>
      let (form, factor) := integerForm count r.coefficients
      f.restrict form (-r.constant * factor)) (.ok (.initial count))

/-- Whether a split has no large number in its form. -/
def Split.isSmall (s : Split) : Bool := s.form.all fun p => p.2.natAbs ≤ 1000

/-- The split of a single variable whose value is not an integer although it stands for one. -/
def variableSplit? (count : Nat) (isInt : Nat → Bool) (values : Array Rat) : Option Split :=
  ((List.range count).find? fun i => isInt i && !isInteger (values.getD i 0)).map fun i =>
    ⟨[(i, 1)], (values.getD i 0).floor⟩

/-- Whether a row holds with equality. -/
def isTight (values : Array Rat) (r : Row) : Bool :=
  r.coefficients.foldl (fun s (i, c) => s + c * values.getD i 0) r.constant = 0

/-- A split of a form in several variables that rules out a rational solution which is not one in integers. The rows
that hold with equality are also tried as equations: a form with a fractional value at their common solutions cuts the
corner off in which they meet. -/
def cut? (count : Nat) (isInt : Nat → Bool) (rows : List Row) (values : Array Rat) : Option Split :=
  match solveEquations count isInt (rows.filter (·.relation = .zero)) with
  | .error s => some s
  | .ok f =>
    let integerRows := rows.filter fun r =>
      r.relation ≠ .zero && r.coefficients.all fun p => isInt p.1
    match integerRows.findSome? (sharpen? f count values) with
    | some s => some s
    | none =>
      let corner := match solveEquations count isInt (rows.filter (isTight values)) with
        | .error s => if s.isSmall then some s else none
        | .ok _ => none
      match corner with
      | some s => some s
      | none =>
        let integral := f.parameters.filter fun p =>
          (List.range count).all fun i => p.form.getD i 0 = 0 || isInt i
        let splits := integral.filterMap fun p =>
          let v := valueAt p.form values
          if isInteger v then none else some (splitAt p.form v.floor)
        splits.find? fun s => s.isSmall && 1 < s.form.length

/-- A split that rules out a rational solution which is not one in integers. -/
def split? (count : Nat) (isInt : Nat → Bool) (rows : List Row) (values : Array Rat) :
    Option Split :=
  if (List.range count).all fun i => !isInt i || isInteger (values.getD i 0) then none
  else (cut? count isInt rows values).or (variableSplit? count isInt values)

end Lattice

end Discharge
