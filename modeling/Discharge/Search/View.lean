import Discharge.Search.State

/-!
# Views

When nothing more follows and the bounds have a solution, a `View` shows what the theories look at: the atomic
formulas on which the truth of the pinned formulas rests, with their truth values, the terms in them, and the
values that the solution gives to their monomials. `State.choice?` gives a literal to choose as long as the
truth of a pinned formula is not settled.
-/

namespace Discharge

/-- What is said of a linear form. -/
structure Row where
  coefficients : List (Nat × Rat)
  constant : Rat
  relation : Relation

/-- What the theories look at. -/
structure View where
  /-- The atomic formulas on which the truth of the pinned ones rests, with their truth values. -/
  literals : List (Term × Bool)
  /-- The parts of these formulas that stand under no quantifier. -/
  parts : List Term
  /-- The formulas that a model has to make true. -/
  goals : List Term
  /-- The formulas of laws and witnesses that are pinned. -/
  pinned : Std.HashSet Term
  /-- The terms for which a witness is pinned, with its constant. -/
  witnesses : List (Term × Term)
  known : List Known
  fresh : Nat
  formulas : Formulas
  truths : Array (Option Bool)
  unknownNumbers : Std.HashMap Term Nat
  monomialVariables : Std.HashMap (List Nat) Nat
  /-- The monomials that the literals are about. -/
  monomials : Array Monomial
  /-- Their numbers, by their variables. -/
  places : Std.HashMap Nat Nat
  /-- Their values in the solution. -/
  values : Array Rat
  /-- What the literals say of the monomials. -/
  rows : List (Term × Row)
  /-- Values of atoms that go before those in the solution. -/
  given : Std.HashMap Term Rat := ∅

namespace State

/-- What is found on the way through the pinned formulas. -/
structure Walk where
  marked : Array Bool
  /-- The atomic formulas that have been reached. -/
  atoms : List Nat
  /-- The literals that would settle a formula that has been reached. -/
  choices : List Lit
deriving Inhabited

namespace Walk

/-- Marks the formula of a literal. -/
def mark (w : Walk) (l : Lit) : Walk := { w with marked := w.marked.setIfInBounds l.formula true }

/-- Offers a literal. -/
def offer (w : Walk) (l : Lit) : Walk := { w with choices := l :: w.choices }

end Walk

/-- Marks the part that settles a disjunction which is true, or offers its parts. -/
def walkOr (s : State) (w : Walk) (a b : Lit) : Walk :=
  if s.trail.isTrue a then w.mark a
  else if s.trail.isTrue b then w.mark b
  else
    let w := if s.trail.isOpen b then w.offer b else w
    if s.trail.isOpen a then w.offer a else w

/-- Marks a part that has a truth value, else offers it. -/
def walkPart (s : State) (w : Walk) (a : Lit) : Walk :=
  if s.trail.isOpen a then w.offer a else w.mark a

/-- Goes on from a formula that has been marked. -/
def walkFormula (s : State) (w : Walk) (i : Nat) : Walk :=
  if w.marked.getD i false then
    match s.formulas.shape i, s.trail.value i with
    | .atom, _ => { w with atoms := i :: w.atoms }
    | .and a b, some true => s.walkPart (s.walkPart w b) a
    | .and a b, some false => s.walkOr w a.opposite b.opposite
    | .or a b, some true => s.walkOr w a b
    | .or a b, some false => s.walkPart (s.walkPart w b) a
    | .iff a b, some _ => s.walkPart (s.walkPart w b) a
    | _, _ => w
  else w

/-- The way through the pinned formulas. -/
def walk (s : State) : Walk :=
  let marked := s.pins.foldl (fun (m : Array Bool) p => m.setIfInBounds p.literal.formula true)
    (Array.replicate s.formulas.size false)
  (List.range s.formulas.size).foldl (fun w k => s.walkFormula w (s.formulas.size - 1 - k))
    ⟨marked, [], []⟩

/-- Whether the present values of the variables respect a limitation. -/
def respects (s : State) (v : Nat) (side : Limitation) : Bool :=
  let a := s.tableau.value v
  match side with
  | .none => true
  | .low b _ => !a.less b
  | .high b _ => !b.less a
  | .both b _ => a == b

/-- The literal or its opposite, whichever the present values of the variables agree with. -/
def preferred (s : State) (l : Lit) : Lit :=
  match s.limitations.getD l.formula none with
  | some a => .of l.formula (s.respects a.target a.yes)
  | none => l

/-- A literal to choose, if there is one: of a formula that took part in conflicts lately. -/
def choice? (s : State) (w : Walk) : Option Lit :=
  let best := w.choices.foldl (fun (best : Option (Lit × Float)) l =>
    let a := s.trail.activities.getD l.formula 0
    match best with
    | some (_, b) => if b < a then some (l, a) else best
    | none => some (l, a)) none
  best.map fun p => s.preferred p.1

/-- The number of a variable's monomial among those that are looked at. -/
def placeOf (s : State) (ps : Array Monomial × Std.HashMap Nat Nat) (v : Nat) :
    (Array Monomial × Std.HashMap Nat Nat) × Nat :=
  match ps.2[v]? with
  | some k => (ps, k)
  | none =>
    let k := ps.1.size
    ((ps.1.push ((s.monomials.getD v none).getD []), ps.2.insert v k), k)

/-- The row of a limitation over numbered monomials. -/
def rowOf (form : List (Nat × Rat)) : Limitation → Option Row
  | .none => none
  | .low value _ => some ⟨form, -value.main, if value.small = 0 then .nonneg else .positive⟩
  | .high value _ =>
    some ⟨form.map fun (v, c) => (v, -c), value.main, if value.small = 0 then .nonneg else .positive⟩
  | .both value _ => some ⟨form, -value.main, .zero⟩

/-- Terms without repetition. -/
def distinctTerms (ts : List Term) : List Term :=
  (ts.foldl (fun (seen : Array Term × Std.HashSet Term) t =>
    if seen.2.contains t then seen else (seen.1.push t, seen.2.insert t)) (#[], ∅)).1.toList

end State

namespace Term

/-- A term with all its parts that stand under no quantifier. -/
def parts : Term → List Term
  | .int n => [.int n]
  | .real q => [.real q]
  | .bool b => [.bool b]
  | .const name s => [.const name s]
  | .bound i => [.bound i]
  | .neg a => .neg a :: parts a
  | .not a => .not a :: parts a
  | .toReal a => .toReal a :: parts a
  | .app op a b => .app op a b :: (parts a ++ parts b)
  | .store a i v => .store a i v :: (parts a ++ parts i ++ parts v)
  | .quantified kind names body => [.quantified kind names body]

/-- The constants of a term, also those under quantifiers. -/
def constants : Term → List (String × TermSort)
  | .int _ => []
  | .real _ => []
  | .bool _ => []
  | .const name s => [(name, s)]
  | .bound _ => []
  | .neg a => constants a
  | .not a => constants a
  | .toReal a => constants a
  | .app _ a b => constants a ++ constants b
  | .store a i v => constants a ++ constants i ++ constants v
  | .quantified _ _ body => constants body

end Term

namespace State

/-- The view of a state. -/
def view (s : State) (w : Walk) : View :=
  let literals := w.atoms.filterMap fun i => (s.trail.value i).map fun b => (i, b)
  let rows := literals.filterMap fun (i, b) =>
    match s.limitations.getD i none with
    | none => none
    | some a =>
      let form := s.forms.getD a.target []
      (rowOf form (if b then a.yes else a.no)).map fun r => (s.term (.of i b), r)
  let (places, rows) := rows.foldl (fun (ps, rows) (t, r) =>
    let (ps, cs) := r.coefficients.foldl (fun (ps, cs) (v, c) =>
      let (ps, k) := s.placeOf ps v
      (ps, (k, c) :: cs)) (ps, [])
    (ps, (t, { r with coefficients := cs.reverse }) :: rows)) ((#[], ∅), [])
  let solution := s.tableau.solution
  let values := places.2.fold (fun (vs : Array Rat) v k => vs.setIfInBounds k (solution.getD v 0))
    (Array.replicate places.1.size 0)
  let terms := literals.map fun (i, b) => (s.formulas.term i, b)
  { literals := terms
    parts := distinctTerms (terms.flatMap fun (t, _) => t.parts)
    goals := s.pins.toList.filterMap fun p =>
      match (s.factNumbers[p.formula]?).map fun k => (s.facts.getD k default).kind with
      | some (.law (.instantiation _ _)) => some p.formula
      | some (.law _) => none
      | _ => some p.formula
    pinned := s.pinned
    witnesses := s.witnessFormulas.toList.filterMap fun (t, f, u) =>
      if s.pinned.contains f then some (t, u) else none
    known := s.known
    fresh := s.fresh
    formulas := s.formulas
    truths := s.trail.values
    unknownNumbers := s.unknownNumbers
    monomialVariables := s.monomialVariables
    monomials := places.1
    places := places.2
    values := values
    rows := rows.reverse }

end State

namespace View

/-- The number of a monomial that the literals are about. -/
def place? (v : View) (m : Monomial) : Option Nat := do
  let key ← m.foldlM (fun key t => (v.unknownNumbers[t]?).map fun i => State.insertAscending i key) []
  let x ← v.monomialVariables[key]?
  v.places[x]?

/-- The value of a monomial that the literals are about. -/
def monomial? (v : View) (m : Monomial) : Option Rat :=
  match m.mapM fun t => v.given[t]? with
  | some (x :: xs) => some (xs.foldl (· * ·) x)
  | _ => (v.place? m).map fun k => v.values.getD k 0

/-- The value of an atom, zero if nothing is said of it. -/
def atom (v : View) (t : Term) : Rat := (v.monomial? [t]).getD 0

/-- The value of a monomial; of one that nothing is said of, the product of its atoms. -/
def monomial (v : View) (m : Monomial) : Rat :=
  (v.monomial? m).getD (m.foldl (fun q t => q * v.atom t) 1)

/-- The value of a polynomial. -/
def valueOf (v : View) (p : Polynomial) : Rat := p.foldl (fun q (m, c) => q + c * v.monomial m) 0

/-- The value of an arithmetic term. -/
def number (v : View) (t : Term) : Rat := v.valueOf t.polynomial

/-- The truth value of an atomic formula, if it has one. -/
def truth? (v : View) (t : Term) : Option Bool :=
  match t.plainTruth with
  | some b => some b
  | none =>
    match v.formulas.numbers[t]? with
    | some i => v.truths.getD i none
    | none => none

/-- Whether a law is pinned. -/
def hasLaw (v : View) (l : Law) : Bool :=
  match l.formula? with
  | some f => v.pinned.contains f
  | none => true

/-- Whether an atomic formula has a truth value. -/
def isDecided (v : View) (t : Term) : Bool :=
  match v.formulas.numbers[t]? with
  | some i => (v.truths.getD i none).isSome
  | none => false

/-- The name of the next new constant. No formula that is read has such a name. -/
def freshName (v : View) : String := "!" ++ toString v.fresh

end View

end Discharge
