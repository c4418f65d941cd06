import Discharge.Decision.Model
import Discharge.Search.Tableau
import Discharge.Search.Trail

/-!
# States of the search

A `State` holds the numbered formulas with their truth values, the bounds that arithmetic literals put on the
variables of a tableau, and the facts that have been added for good. `State.settle` derives what follows: from
clauses, and from bounds. If that leads to a conflict, `State.resolve` learns a clause from it and goes back to
where the clause would have derived something.

Some formulas are *pinned*: a model has to make them true, and so their parts get truth values. These are the
formulas that are assumed, and the laws that have been asked for since.
-/

namespace Discharge

/-- What a literal says of a variable. The constraint of the literal times the factor is the variable less its
lower bound, or its upper bound less the variable, or, in an equation, the variable less its value. -/
inductive Limitation where
  | none
  | low (value : UnitValue) (factor : Rat)
  | high (value : UnitValue) (factor : Rat)
  | both (value : UnitValue) (factor : Rat)
deriving Inhabited

/-- What an atomic formula and its negation say of a variable. -/
structure Limitations where
  target : Nat
  yes : Limitation
  no : Limitation
deriving Inhabited

/-- A function of the integers that assumptions may describe. -/
inductive KnownFunction where
  | array (name : String) (element : BasicSort)
  | byZero (op : TermOp)
deriving BEq

/-- A function that the assumptions describe, with the formulas that say so: for each piece outside the table its
end, unless it has none, and the formula. -/
structure Known where
  function : KnownFunction
  table : ValueTable
  pieces : List (Option Int × Term)

/-- A formula that is pinned since a level, with its number and whether that formula or its negation is. -/
structure Pin where
  formula : Term
  literal : Lit
  level : Nat
deriving Inhabited

/-- A state of the search. -/
structure State where
  formulas : Formulas := .empty
  trail : Trail := .empty
  tableau : Tableau := .empty
  /-- The terms that products are made of. -/
  unknowns : Array Term := #[]
  unknownNumbers : Std.HashMap Term Nat := ∅
  /-- The monomials that variables stand for; other variables stand for forms. -/
  monomials : Array (Option Monomial) := #[]
  /-- The linear forms in the variables of monomials that variables stand for. -/
  forms : Array (List (Nat × Rat)) := #[]
  /-- The variables of monomials, by the numbers of their unknowns in ascending order. -/
  monomialVariables : Std.HashMap (List Nat) Nat := ∅
  /-- The variables of linear forms. -/
  formVariables : Std.HashMap (List (Nat × Rat)) Nat := ∅
  /-- What formulas say of variables. -/
  limitations : Array (Option Limitations) := #[]
  /-- The formulas that say something of a variable. -/
  limiting : Array (List Nat) := #[]
  facts : Array Fact := #[]
  /-- The formulas that have been added for good, with their clauses. -/
  permanent : Array Clause := #[]
  /-- The facts of laws and witnesses, by their formulas. -/
  factNumbers : Std.HashMap Term Nat := ∅
  /-- The formulas of witnesses with their constants, by what they are about. -/
  witnessFormulas : Std.HashMap Term (Term × Term) := ∅
  pins : Array Pin := #[]
  pinned : Std.HashSet Term := ∅
  /-- The number of literals whose bounds have been put on. -/
  bounded : Nat := 0
  /-- The number of literals of which those that hold for good have become facts. -/
  settled : Nat := 0
  /-- For each level above zero, the number of replaced bounds below it. -/
  marks : Array Nat := #[]
  known : List Known := []
  /-- The number of the next new constant. -/
  fresh : Nat := 0
  conflicts : Nat := 0
deriving Inhabited

namespace State

/-- The number of an unknown, which is added if it is new. -/
def addUnknown (s : State) (t : Term) : State × Nat :=
  match s.unknownNumbers[t]? with
  | some i => (s, i)
  | none =>
    let i := s.unknowns.size
    ({ s with unknowns := s.unknowns.push t, unknownNumbers := s.unknownNumbers.insert t i }, i)

/-- A number put into an ascending list. -/
def insertAscending (i : Nat) : List Nat → List Nat
  | [] => [i]
  | j :: js => if i ≤ j then i :: j :: js else j :: insertAscending i js

/-- The numbers of the unknowns of a monomial, ascending. -/
def addUnknowns (s : State) (m : Monomial) : State × List Nat :=
  m.foldl (fun (s, key) t =>
    let (s, i) := s.addUnknown t
    (s, insertAscending i key)) (s, [])

/-- The variable of a monomial, which is added if it is new. -/
def addMonomial (s : State) (m : Monomial) : State × Nat :=
  let (s, key) := s.addUnknowns m
  match s.monomialVariables[key]? with
  | some v => (s, v)
  | none =>
    let v := s.tableau.size
    ({ s with
      tableau := s.tableau.addVariable
      monomials := s.monomials.push (some (key.map fun i => s.unknowns.getD i default))
      forms := s.forms.push [(v, 1)]
      monomialVariables := s.monomialVariables.insert key v
      limiting := s.limiting.push [] }, v)

/-- A coefficient put into a form. -/
def insertCoefficient (v : Nat) (c : Rat) : List (Nat × Rat) → List (Nat × Rat)
  | [] => [(v, c)]
  | (w, d) :: form =>
    if v < w then (v, c) :: (w, d) :: form
    else if v = w then (v, c + d) :: form
    else (w, d) :: insertCoefficient v c form

/-- The linear form of a polynomial in the variables of its monomials, and its constant. -/
def addForm (s : State) (p : Polynomial) : State × List (Nat × Rat) × Rat :=
  p.foldl (fun (s, form, constant) (m, c) =>
    if m.isEmpty then (s, form, constant + c)
    else
      let (s, v) := s.addMonomial m
      (s, insertCoefficient v c form, constant)) (s, [], 0)

/-- The variable that stands for a form up to a factor, which is given too. -/
def addVariable (s : State) (form : List (Nat × Rat)) : State × Nat × Rat :=
  match form with
  | [] => (s, 0, 0)
  | [(v, c)] => (s, v, c)
  | (v, c) :: rest =>
    let key := (v, (1 : Rat)) :: rest.map fun (w, d) => (w, d / c)
    match s.formVariables[key]? with
    | some u => (s, u, c)
    | none =>
      let u := s.tableau.size
      ({ s with
        tableau := s.tableau.addForm key.toArray
        monomials := s.monomials.push none
        forms := s.forms.push key
        formVariables := s.formVariables.insert key u
        limiting := s.limiting.push [] }, u, c)

/-- What a constraint says of a variable. -/
def limitation (s : State) (c : Constraint) : State × Option (Nat × Limitation) :=
  let (s, form, constant) := s.addForm c.poly
  let (s, v, factor) := s.addVariable form
  if factor = 0 then (s, none)
  else
    let value := -constant / factor
    let strict : Rat := if c.relation = .positive then 1 else 0
    (s, some (v,
      match c.relation with
      | .zero => .both (.ofRat value) (1 / factor)
      | _ =>
        if 0 < factor then .low ⟨value, strict⟩ (1 / factor) else .high ⟨value, -strict⟩ (-1 / factor)))

/-- What a literal says of a variable. -/
def literalLimitation (s : State) (t : Term) : State × Option (Nat × Limitation) :=
  match t.constraint? with
  | some c => s.limitation c
  | none => (s, none)

/-- Notes what an atomic formula says of a variable. -/
def addLimitations (s : State) (i : Nat) : State :=
  let t := s.formulas.term i
  let (s, yes) := s.literalLimitation t
  let (s, no) := s.literalLimitation (.not t)
  let found := match yes, no with
    | some (v, a), some (_, b) => some (⟨v, a, b⟩ : Limitations)
    | some (v, a), none => some ⟨v, a, .none⟩
    | none, some (v, b) => some ⟨v, .none, b⟩
    | none, none => none
  match found with
  | some l =>
    { s with
      limitations := s.limitations.push (some l)
      limiting := s.limiting.modify l.target (i :: ·) }
  | none => { s with limitations := s.limitations.push none }

/-- Adds a clause. A clause whose literals are all false is given back. -/
def addClause (s : State) (c : Clause) : State × Option Clause :=
  let (trail, conflict) := s.trail.addClause c
  ({ s with trail := trail }, conflict)

/-- The clauses that say how the formula of a number depends on its parts. -/
def gateClauses (s : State) (i : Nat) : List Clause :=
  let t := s.formulas.term i
  let i' := Lit.of i true
  let positive : Derivation := .clash t
  let negative : Derivation := .clash (.not t)
  match s.formulas.shape i with
  | .atom => []
  | .plain true => [⟨#[i'], negative, []⟩]
  | .plain false => [⟨#[i'.opposite], positive, []⟩]
  | .and a b =>
    [⟨#[i'.opposite, a], positive, []⟩, ⟨#[i'.opposite, b], positive, []⟩,
      ⟨#[i', a.opposite, b.opposite], negative, []⟩]
  | .or a b =>
    [⟨#[i', a.opposite], negative, []⟩, ⟨#[i', b.opposite], negative, []⟩,
      ⟨#[i'.opposite, a, b], positive, []⟩]
  | .iff a b =>
    [⟨#[i'.opposite, a, b.opposite], positive, []⟩, ⟨#[i'.opposite, a.opposite, b], positive, []⟩,
      ⟨#[i', a, b], negative, []⟩, ⟨#[i', a.opposite, b.opposite], negative, []⟩]

/-- Notes what there is to note of the formulas from a number on. -/
def register : Nat → Nat → State → State
  | 0, _, s => s
  | fuel + 1, i, s =>
    let s :=
      match s.formulas.shape i with
      | .atom => s.addLimitations i
      | _ => { s with limitations := s.limitations.push none }
    let s := (s.gateClauses i).foldl (fun (s : State) c =>
      let s := if c.literals.size = 1 then { s with permanent := s.permanent.push c } else s
      (s.addClause { c with literals := c.literals.toList.eraseDups.toArray }).1) s
    register fuel (i + 1) s

/-- The literal of a formula, which is added with its parts if it is new. -/
def addFormula (s : State) (t : Term) : State × Lit :=
  let first := s.formulas.size
  let (formulas, l) := s.formulas.add t
  let s := { s with formulas := formulas, trail := s.trail.grow formulas.size }
  (register (formulas.size - first) first s, l)

/-- The formula of a literal. -/
def term (s : State) (l : Lit) : Term := s.formulas.literalTerm l

/-- The level. -/
def level (s : State) : Nat := s.trail.level

/-- Goes back to a level. What has been added for good goes on to hold. -/
def backTo (s : State) (level : Nat) : State :=
  if s.level ≤ level then s
  else
    let trail := s.trail.backTo level
    let dropped := s.pins.filter fun p => level < p.level
    { s with
      tableau := s.tableau.undoTo (s.marks.getD level 0)
      marks := s.marks.take level
      bounded := min s.bounded trail.literals.size
      pins := s.pins.filter fun p => p.level ≤ level
      pinned := dropped.foldl (fun set p => set.erase p.formula) s.pinned
      settled := min s.settled trail.literals.size
      trail := s.permanent.foldl (fun (t : Trail) c =>
        let l := c.literals.getD 0 0
        if t.isOpen l then t.push l (some c) else t) trail }

/-- Begins a level with a chosen literal. -/
def choose (s : State) (l : Lit) : State :=
  { s with
    marks := s.marks.push s.tableau.replaced.size
    trail := s.trail.choose l }

/-- Pins a formula. -/
def pin (s : State) (f : Term) (l : Lit) : State :=
  if s.pinned.contains f then s
  else { s with pins := s.pins.push ⟨f, l, s.level⟩, pinned := s.pinned.insert f }

/-- Adds a formula for good, with the facts that it rests on, and pins it. A clause that has become false is
given back. -/
def require (s : State) (f : Term) (uses : List Nat) : State × Option Clause :=
  let (s, l) := s.addFormula f
  let c : Clause := ⟨#[l], .clash f, uses⟩
  let s := { s with permanent := s.permanent.push c }.pin f l
  if s.trail.isOpen l then ({ s with trail := s.trail.push l (some c) }, none)
  else if s.trail.isFalse l then (s, some c)
  else (s, none)

/-- Adds a fact. -/
def addFact (s : State) (kind : FactKind) (uses : List Nat) : State × Nat :=
  ({ s with facts := s.facts.push ⟨kind, uses⟩ }, s.facts.size)

/-- Adds a law or a witness with its formula, unless it has been added before, and pins it. -/
def requireFact (s : State) (kind : FactKind) (f : Term) : State × Option Clause :=
  match s.factNumbers[f]? with
  | some _ =>
    match s.formulas.find? f with
    | some l => (s.pin f l, none)
    | none => (s, none)
  | none =>
    let (s, k) := s.addFact kind []
    { s with factNumbers := s.factNumbers.insert f k }.require f [k]

/-- The facts that state the literals of a clause that are settled. -/
def unitFacts (s : State) (ls : Array Lit) : List Nat :=
  ls.toList.filterMap fun l =>
    if s.trail.levelOf l = 0 then s.trail.units.getD l.formula none else none

/-- Numbers without repetition. -/
def distinct (uses : List Nat) : List Nat :=
  let sorted := uses.mergeSort
  sorted.eraseReps

/-- Makes a fact of a literal that holds for good. -/
def settleLiteral (s : State) (l : Lit) : State :=
  let i := l.formula
  if s.trail.levels.getD i 0 ≠ 0 || (s.trail.units.getD i none).isSome then s
  else
    match s.trail.reasons.getD i none with
    | none => s
    | some c =>
      let others := c.literals.filter (· != l)
      let known := match c.derivation, c.uses with
        | .clash f, [k] => if others.isEmpty && f == s.term l then some k else none
        | .clause [_], [k] => if others.isEmpty then some k else none
        | _, _ => none
      match known with
      | some k => { s with trail := { s.trail with units := s.trail.units.setIfInBounds i (some k) } }
      | none =>
        let (s, k) := s.addFact (.clause [l] c.derivation) (distinct (c.uses ++ s.unitFacts others))
        { s with
          permanent := s.permanent.push ⟨#[l], .clause [l], [k]⟩
          trail := { s.trail with units := s.trail.units.setIfInBounds i (some k) } }

/-- Makes facts of the literals that hold for good. -/
def settleLiterals (s : State) : State :=
  let count := s.trail.literals.size
  let s := (List.range (count - s.settled)).foldl (fun (s : State) j =>
    s.settleLiteral (s.trail.literals.getD (s.settled + j) 0)) s
  { s with settled := count }

/-- Puts on the bound that a literal states. A clause that the bounds make false is given back. -/
def limit (s : State) (l : Lit) (v : Nat) (side : Limitation) : State × Option (List (Lit × Rat)) :=
  match side with
  | .none => (s, none)
  | .low value factor =>
    let (t, c) := s.tableau.raise v ⟨value, l, factor⟩
    ({ s with tableau := t }, c)
  | .high value factor =>
    let (t, c) := s.tableau.lower v ⟨value, l, factor⟩
    ({ s with tableau := t }, c)
  | .both value factor =>
    match s.tableau.raise v ⟨value, l, factor⟩ with
    | (t, some c) => ({ s with tableau := t }, some c)
    | (t, none) =>
      let (t, c) := t.lower v ⟨value, l, -factor⟩
      ({ s with tableau := t }, c)

/-- The clause of literals whose constraints add up to a falsehood. -/
def linearClause (combination : List (Lit × Rat)) : Clause :=
  let used := combination.filter fun (_, c) => c ≠ 0
  ⟨(used.map fun (l, _) => l.opposite).eraseDups.toArray, .linear used, []⟩

/-- Why what a literal says of a variable contradicts the variable's bounds. -/
def contradiction? (s : State) (l : Lit) (v : Nat) (side : Limitation) : Option (List (Lit × Rat)) :=
  let against := fun (isLow : Bool) (value : UnitValue) (factor : Rat) =>
    if isLow then
      match s.tableau.high? v with
      | some h => if h.value.less value then some [(l, factor), (h.reason, h.factor)] else none
      | none => none
    else
      match s.tableau.low? v with
      | some b => if value.less b.value then some [(l, factor), (b.reason, b.factor)] else none
      | none => none
  match side with
  | .none => none
  | .low value factor => against true value factor
  | .high value factor => against false value factor
  | .both value factor => (against true value factor).or (against false value (-factor))

/-- Derives literals from the bounds of a variable. -/
def deriveFromBounds (s : State) (v : Nat) : State :=
  (s.limiting.getD v []).foldl (fun (s : State) i =>
    if (s.trail.value i).isSome then s
    else
      match s.limitations.getD i none with
      | none => s
      | some a =>
        match s.contradiction? (.of i true) v a.yes with
        | some c => { s with trail := s.trail.push (.of i false) (some (linearClause c)) }
        | none =>
          match s.contradiction? (.of i false) v a.no with
          | some c => { s with trail := s.trail.push (.of i true) (some (linearClause c)) }
          | none => s) s

/-- Puts on the bounds of literals that hold. A clause that has become false is given back. -/
def limitAll : Nat → State → State × Option Clause
  | 0, s => (s, none)
  | fuel + 1, s =>
    if s.trail.literals.size ≤ s.bounded then (s, none)
    else
      let l := s.trail.literals.getD s.bounded 0
      let s := { s with bounded := s.bounded + 1 }
      match s.limitations.getD l.formula none with
      | none => limitAll fuel s
      | some a =>
        let count := s.tableau.replaced.size
        match s.limit l a.target (if l.value then a.yes else a.no) with
        | (s, some c) => (s, some (linearClause c))
        | (s, none) =>
          limitAll fuel (if s.tableau.replaced.size = count then s else s.deriveFromBounds a.target)

/-- The number of steps that a tableau is given to find values. -/
def pivotLimit : Nat := 20000

/-- The number of steps before the least numbered variables go first, so that no basis comes back. -/
def sparseLimit : Nat := 300

/-- What became of a state. -/
inductive Progress where
  /-- Nothing more follows, and the bounds have a solution. -/
  | calm
  | conflict (c : Clause)
  | unknown
deriving Inhabited

/-- Derives what follows from clauses and bounds. -/
def settle : Nat → State → State × Progress
  | 0, s => (s, .unknown)
  | fuel + 1, s =>
    match s.trail.propagate (s.formulas.size + 1) with
    | (trail, some c) => ({ s with trail := trail }, .conflict c)
    | (trail, none) =>
      let s := { s with trail := trail }.settleLiterals
      match limitAll (s.formulas.size + 1) s with
      | (s, some c) => (s, .conflict c)
      | (s, none) =>
        if s.trail.head < s.trail.literals.size then settle fuel s
        else
          match s.tableau.solve sparseLimit pivotLimit with
          | (t, .feasible, _) => ({ s with tableau := t }, .calm)
          | (t, .conflict c, _) => ({ s with tableau := t }, .conflict (linearClause c))
          | (t, .unknown, _) => ({ s with tableau := t }, .unknown)

/-- What a conflict leads to. -/
inductive Resolution where
  | next (s : State)
  /-- The assumptions are refuted. -/
  | refuted (s : State) (d : Derivation) (uses : List Nat)
  | unknown

/-- Learns a clause from one whose literals are all false. -/
def resolve (s : State) (c : Clause) : Resolution :=
  let s := s.settleLiterals
  let level := s.trail.latestLevel c.literals
  if level = 0 then
    .refuted s c.derivation (distinct (c.uses ++ s.unitFacts c.literals))
  else
    let s := s.backTo level
    match s.trail.learn c with
    | none => .unknown
    | some (learned, trail) =>
      let ls := learned.literals
      let (s, k) := { s with trail := trail.decay, conflicts := s.conflicts + 1 }.addFact
        (.clause ls.toList learned.derivation) (distinct learned.uses)
      let earlier := s.trail.latestLevel (ls.extract 1 ls.size)
      let s := s.backTo earlier
      let (s, conflict) := s.addClause ⟨ls, .clause ls.toList, [k]⟩
      match conflict with
      | some _ => .unknown
      | none => .next s

end State

end Discharge
