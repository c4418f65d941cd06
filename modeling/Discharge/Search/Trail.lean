import Discharge.Search.Formulas

/-!
# The trail

The literals that have been chosen or derived, in order, with the clauses that they were derived by. Each
choice begins a new level. A literal that follows from clauses alone is of level zero, wherever it stands.
`Trail.propagate` derives what follows from clauses of which only one literal is open; `Trail.learn` finds
the clause that a conflict teaches: it follows from the clauses that led to the conflict, and it would have
derived a literal at an earlier level.
-/

namespace Discharge

/-- Literals of which one holds. The derivation refutes their opposites, given the facts of the numbers. -/
structure Clause where
  literals : Array Lit
  derivation : Derivation
  uses : List Nat
deriving Inhabited

/-- Chosen and derived literals, and clauses. -/
structure Trail where
  /-- The truth values of formulas. -/
  values : Array (Option Bool)
  /-- The levels of formulas that have a truth value. -/
  levels : Array Nat
  /-- The clauses by which formulas have got their truth values. -/
  reasons : Array (Option Clause)
  /-- The literals that hold, in order. -/
  literals : Array Lit
  /-- For each level above zero, the number of literals below it. -/
  starts : Array Nat
  /-- The number of literals that have been propagated. -/
  head : Nat
  clauses : Array Clause
  /-- The clauses that are looked at when a literal becomes false. Each clause is watched by its first two
  literals. -/
  watches : Array (Array Nat)
  /-- How much formulas have taken part in conflicts lately. -/
  activities : Array Float
  /-- What taking part counts for at present. -/
  increment : Float
  /-- The facts that state literals of level zero, for good. -/
  units : Array (Option Nat)
deriving Inhabited

namespace Trail

/-- An empty trail. -/
def empty : Trail :=
  ⟨#[], #[], #[], #[], #[], 0, #[], #[], #[], 1, #[]⟩

/-- The trail with places for formulas up to a number. -/
def grow (t : Trail) (size : Nat) : Trail :=
  if size ≤ t.values.size then t
  else
    let more := size - t.values.size
    { t with
      values := t.values ++ Array.replicate more none
      levels := t.levels ++ Array.replicate more 0
      reasons := t.reasons ++ Array.replicate more none
      watches := t.watches ++ Array.replicate (2 * more) #[]
      activities := t.activities ++ Array.replicate more 0
      units := t.units ++ Array.replicate more none }

/-- The number of the present level. -/
@[inline] def level (t : Trail) : Nat := t.starts.size

/-- The truth value of a formula. -/
@[inline] def value (t : Trail) (i : Nat) : Option Bool := t.values.getD i none

/-- Whether a literal holds. -/
@[inline] def isTrue (t : Trail) (l : Lit) : Bool := t.value l.formula == some l.value

/-- Whether the opposite of a literal holds. -/
@[inline] def isFalse (t : Trail) (l : Lit) : Bool := t.value l.formula == some (!l.value)

/-- Whether a literal is open. -/
@[inline] def isOpen (t : Trail) (l : Lit) : Bool := (t.value l.formula).isNone

/-- The level of a literal. -/
@[inline] def levelOf (t : Trail) (l : Lit) : Nat := t.levels.getD l.formula 0

/-- The level of a literal that a clause derives: zero if the other literals are of level zero. -/
def derivedLevel (t : Trail) (l : Lit) (c : Clause) : Nat :=
  if c.literals.all fun m => m == l || t.levelOf m == 0 then 0 else t.level

/-- Makes an open literal true. -/
def push (t : Trail) (l : Lit) (reason : Option Clause) : Trail :=
  let i := l.formula
  let level := match reason with
    | some c => t.derivedLevel l c
    | none => t.level
  { t with
    values := t.values.setIfInBounds i (some l.value)
    levels := t.levels.setIfInBounds i level
    reasons := t.reasons.setIfInBounds i reason
    literals := t.literals.push l }

/-- Begins a level with a chosen literal. -/
def choose (t : Trail) (l : Lit) : Trail :=
  { t with starts := t.starts.push t.literals.size }.push l none

/-- Takes off literals until a number of them is left. -/
def shorten : Nat → Nat → Trail → Trail
  | 0, _, t => t
  | fuel + 1, count, t =>
    if t.literals.size ≤ count then t
    else
      match t.literals.back? with
      | none => t
      | some l =>
        shorten fuel count
          { t with
            literals := t.literals.pop
            values := t.values.setIfInBounds l.formula none
            reasons := t.reasons.setIfInBounds l.formula none }

/-- Goes back to a level. -/
def backTo (t : Trail) (level : Nat) : Trail :=
  if t.level ≤ level then t
  else
    let count := t.starts.getD level 0
    let t := shorten t.literals.size count t
    { t with starts := t.starts.take level, head := min t.head count }

/-- Watches a literal for a clause. -/
def watch (t : Trail) (l : Lit) (k : Nat) : Trail :=
  { t with watches := t.watches.modify l (·.push k) }

/-- How well a literal is suited to be watched: open and true ones first, then those of late levels. -/
def watchRank (t : Trail) (l : Lit) : Nat :=
  if t.isFalse l then t.levelOf l else t.level + 1

/-- The place from `i` on of the literal that is suited best to be watched. -/
def bestPlace (t : Trail) (ls : Array Lit) (i : Nat) : Nat :=
  (List.range (ls.size - i)).foldl (fun best j =>
    if t.watchRank (ls.getD best 0) < t.watchRank (ls.getD (i + j) 0) then i + j else best) i

/-- Adds a clause, and derives its literal if only one is open. Gives the clause if all its literals are
false. -/
def addClause (t : Trail) (c : Clause) : Trail × Option Clause :=
  let ls := c.literals
  let ls := ls.swapIfInBounds 0 (t.bestPlace ls 0)
  let ls := if 1 < ls.size then ls.swapIfInBounds 1 (t.bestPlace ls 1) else ls
  let c := { c with literals := ls }
  let t :=
    if 1 < ls.size then
      let k := t.clauses.size
      ({ t with clauses := t.clauses.push c }.watch (ls.getD 0 0) k).watch (ls.getD 1 0) k
    else t
  match ls[0]? with
  | none => (t, some c)
  | some first =>
    if t.isFalse first then (t, some c)
    else if t.isOpen first && (ls.size ≤ 1 || t.isFalse (ls.getD 1 0)) then (t.push first (some c), none)
    else (t, none)

/-- The place of a literal from `i` on that is not false. -/
def freePlace? (t : Trail) (ls : Array Lit) (i : Nat) : Option Nat :=
  if h : i < ls.size then
    if t.isFalse ls[i] then freePlace? t ls (i + 1) else some i
  else none
termination_by ls.size - i

/-- Looks at the clauses from place `i` on that watched a literal that has become false. `kept` are those that
go on watching it. -/
def visit (l : Lit) (ws : Array Nat) (i : Nat) (kept : Array Nat) (t : Trail) :
    Trail × Option Clause :=
  if h : i < ws.size then
    let k := ws[i]
    let c := t.clauses.getD k default
    let ls := c.literals
    let ls := if ls.getD 0 0 == l then ls.swapIfInBounds 0 1 else ls
    let other := ls.getD 0 0
    if t.isTrue other then visit l ws (i + 1) (kept.push k) t
    else
      match t.freePlace? ls 2 with
      | some j =>
        let m := ls.getD j 0
        let ls := ls.swapIfInBounds 1 j
        let t := { t with clauses := t.clauses.setIfInBounds k { c with literals := ls } }
        visit l ws (i + 1) kept (t.watch m k)
      | none =>
        let c := { c with literals := ls }
        let t := { t with clauses := t.clauses.setIfInBounds k c }
        if t.isFalse other then
          let rest := ws.extract i ws.size
          ({ t with watches := t.watches.setIfInBounds l (kept ++ rest) }, some c)
        else visit l ws (i + 1) (kept.push k) (t.push other (some c))
  else ({ t with watches := t.watches.setIfInBounds l kept }, none)
termination_by ws.size - i

/-- Derives literals from clauses of which only one literal is open. Gives a clause whose literals are all
false. -/
def propagate : Nat → Trail → Trail × Option Clause
  | 0, t => (t, none)
  | fuel + 1, t =>
    if t.literals.size ≤ t.head then (t, none)
    else
      let l := (t.literals.getD t.head 0).opposite
      let ws := t.watches.getD l #[]
      let t := { t with head := t.head + 1, watches := t.watches.setIfInBounds l #[] }
      match visit l ws 0 (Array.mkEmpty ws.size) t with
      | (t, some c) => (t, some c)
      | (t, none) => propagate fuel t

/-- Makes a formula count as one that took part in a conflict. -/
def bump (t : Trail) (i : Nat) : Trail :=
  { t with activities := t.activities.modify i (· + t.increment) }

/-- Lets earlier conflicts count for less. -/
def decay (t : Trail) : Trail :=
  if 1e100 < t.increment then
    { t with
      activities := t.activities.map (· * 1e-100)
      increment := t.increment * 1e-100 / 0.95 }
  else { t with increment := t.increment / 0.95 }

/-- What has been found out about a conflict. -/
structure Analysis where
  trail : Trail
  seen : Array Bool
  /-- The number of literals of the present level that have to be looked at. -/
  pending : Nat
  /-- The literals of the clause, from earlier levels. -/
  earlier : Array Lit
  derivation : Derivation
  uses : List Nat

namespace Analysis

/-- Takes the literals of a clause into account, but for one formula. -/
def absorb (a : Analysis) (c : Clause) (except : Option Nat) : Analysis :=
  let a := { a with uses := c.uses ++ a.uses }
  c.literals.foldl (fun (a : Analysis) l =>
    let i := l.formula
    if except == some i || a.seen.getD i false then a
    else
      let level := a.trail.levels.getD i 0
      let a := { a with seen := a.seen.setIfInBounds i true }
      if level = 0 then
        match a.trail.units.getD i none with
        | some k => { a with uses := k :: a.uses }
        | none => a
      else
        let a := { a with trail := a.trail.bump i }
        if level = a.trail.level then { a with pending := a.pending + 1 }
        else { a with earlier := a.earlier.push l }) a

/-- Replaces literals of the present level by the reasons for their opposites, the last one first, until one
is left. Gives the clause, that literal first. -/
def resolve : Nat → Nat → Analysis → Option (Clause × Trail)
  | 0, _, _ => none
  | fuel + 1, place, a =>
    match a.trail.literals[place]? with
    | none => none
    | some l =>
      let i := l.formula
      if !(a.seen.getD i false) || a.trail.levels.getD i 0 < a.trail.level then
        resolve fuel (place - 1) a
      else if a.pending ≤ 1 then
        some (⟨#[l.opposite] ++ a.earlier, a.derivation, a.uses⟩, a.trail)
      else
        match a.trail.reasons.getD i none with
        | none => none
        | some c =>
          let d := if l.value then Derivation.split i a.derivation c.derivation
            else Derivation.split i c.derivation a.derivation
          resolve fuel (place - 1)
            ({ a with pending := a.pending - 1, derivation := d }.absorb c (some i))

end Analysis

/-- The clause that a conflict of the present level teaches, its literal of this level first. -/
def learn (t : Trail) (conflict : Clause) : Option (Clause × Trail) :=
  let a : Analysis := ⟨t, Array.replicate t.values.size false, 0, #[], conflict.derivation, []⟩
  let a := a.absorb conflict none
  a.resolve (t.literals.size + 1) (t.literals.size - 1)

/-- The latest level of a list of literals. -/
def latestLevel (t : Trail) (ls : Array Lit) : Nat :=
  ls.foldl (fun m l => max m (t.levelOf l)) 0

end Trail

end Discharge
