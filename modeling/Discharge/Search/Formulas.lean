import Discharge.Decision.Refutation
import Std.Data.HashMap

/-!
# Numbered formulas

The search numbers the formulas that it meets, each with those that it is made of. A `Lit` stands for a
numbered formula or for its negation. Formulas are added after their parts, so that a part has a lower
number than the whole.
-/

namespace Discharge

/-! ## Numbering -/

/-- A numbered formula or its negation: `2 * i` is formula number `i`, and `2 * i + 1` its negation. -/
abbrev Lit := Nat

namespace Lit

/-- The literal that gives a formula a truth value. -/
@[inline] def of (i : Nat) (value : Bool) : Lit := if value then 2 * i else 2 * i + 1

/-- The number of the formula. -/
@[inline] def formula (l : Lit) : Nat := l / 2

/-- The truth value that the literal gives to its formula. -/
@[inline] def value (l : Lit) : Bool := l % 2 == 0

/-- The opposite literal. -/
@[inline] def opposite (l : Lit) : Lit := if l % 2 == 0 then l + 1 else l - 1

end Lit

/-- How a formula is made of others. -/
inductive Shape where
  /-- An atomic formula. -/
  | atom
  /-- An atomic formula whose truth is plain. -/
  | plain (value : Bool)
  | and (a b : Lit)
  | or (a b : Lit)
  | iff (a b : Lit)
deriving Inhabited

/-- Numbered formulas, which are no negations. -/
structure Formulas where
  terms : Array Term
  shapes : Array Shape
  numbers : Std.HashMap Term Nat
deriving Inhabited

namespace Formulas

/-- No formulas. -/
def empty : Formulas := ⟨#[], #[], ∅⟩

/-- The number of formulas. -/
@[inline] def size (fs : Formulas) : Nat := fs.terms.size

/-- The formula of a number. -/
@[inline] def term (fs : Formulas) (i : Nat) : Term := fs.terms.getD i default

/-- The shape of the formula of a number. -/
@[inline] def shape (fs : Formulas) (i : Nat) : Shape := fs.shapes.getD i .atom

/-- The formula that a literal stands for. -/
def literalTerm (fs : Formulas) (l : Lit) : Term :=
  if l.value then fs.term l.formula else .not (fs.term l.formula)

/-- The formulas and a new one. -/
def push (fs : Formulas) (t : Term) (s : Shape) : Formulas × Lit :=
  (⟨fs.terms.push t, fs.shapes.push s, fs.numbers.insert t fs.size⟩, .of fs.size true)

/-- The formulas with an atomic one, and its literal. -/
def addAtom (fs : Formulas) (t : Term) : Formulas × Lit :=
  match fs.numbers[t]? with
  | some i => (fs, .of i true)
  | none =>
    fs.push t (match t.plainTruth with
      | some b => .plain b
      | none => .atom)

/-- The formulas with a new one of two parts, and its literal. -/
def addPair (t : Term) (a b : Formulas → Formulas × Lit) (shape : Lit → Lit → Shape)
    (fs : Formulas) : Formulas × Lit :=
  match fs.numbers[t]? with
  | some i => (fs, .of i true)
  | none =>
    let (fs, l) := a fs
    let (fs, r) := b fs
    fs.push t (shape l r)

/-- The formulas with a further one and its parts, and its literal. -/
def add (fs : Formulas) : Term → Formulas × Lit
  | .not a =>
    let (fs, l) := fs.add a
    (fs, l.opposite)
  | .bool b =>
    match fs.numbers[Term.bool b]? with
    | some i => (fs, .of i true)
    | none => fs.push (.bool b) (.plain b)
  | .app .and a b => addPair (.app .and a b) (·.add a) (·.add b) .and fs
  | .app .or a b => addPair (.app .or a b) (·.add a) (·.add b) .or fs
  | .app .implies a b =>
    addPair (.app .implies a b) (·.add a) (·.add b) (fun l r => .or l.opposite r) fs
  | .app .eq a b =>
    if a.sortOf = .bool then addPair (.app .eq a b) (·.add a) (·.add b) .iff fs
    else fs.addAtom (.app .eq a b)
  | t => fs.addAtom t

/-- The literal of a formula that has been added. -/
def find? (fs : Formulas) : Term → Option Lit
  | .not a => (fs.find? a).map Lit.opposite
  | t => (fs.numbers[t]?).map fun i => .of i true

end Formulas

/-! ## Derivations

What the search keeps of its arguments while it runs. A `Derivation` shows that some literals cannot all
hold, over numbered formulas. A `Fact` is a formula that has been added for good: a law, the formula of a
witness, or a clause that has been derived. `Derivation.refutation` makes a `Refutation` of a derivation and
of those facts that it rests on.
-/

/-- Arguments that literals cannot all hold, over numbered formulas. -/
inductive Derivation where
  /-- The literals make this formula false. -/
  | clash (t : Term)
  /-- The literals make the disjunction of these false. -/
  | clause (literals : List Lit)
  /-- The constraints of the literals, with these multipliers, add up to a falsehood. -/
  | linear (combination : List (Lit × Rat))
  /-- A refutation of the literals. -/
  | leaf (r : Refutation)
  /-- The formula of a number holds or its negation does. -/
  | split (i : Nat) (yes no : Derivation)
deriving Inhabited

/-- What a fact is. -/
inductive FactKind where
  | law (l : Law)
  | witness (name : String) (w : Witness)
  /-- A clause, whose derivation refutes the opposites of its literals. -/
  | clause (literals : List Lit) (d : Derivation)
  /-- A clause that has not been derived: part of the search that has been given up. -/
  | gap
deriving Inhabited

/-- A formula that has been added for good, with the numbers of the facts that it rests on. -/
structure Fact where
  kind : FactKind
  uses : List Nat
deriving Inhabited

namespace Derivation

/-- The refutation of literals whose constraints add up to a falsehood. -/
def linearRefutation (fs : Formulas) (combination : List (Lit × Rat)) : Refutation :=
  let used := (combination.filter fun (_, c) => c ≠ 0).map fun (l, c) => (fs.literalTerm l, c)
  let atoms := used.flatMap fun (t, _) =>
    match t.constraint? with
    | some c => c.poly.flatMap Prod.fst
    | none => []
  .sum atoms.eraseDups (used.map fun (t, c) => ⟨.const c, [t], []⟩)

/-- The refutation of a derivation. -/
def toRefutation (fs : Formulas) : Derivation → Refutation
  | .clash t => .clash t
  | .clause ls => .clash (Term.disjunction (ls.map fs.literalTerm))
  | .linear combination => linearRefutation fs combination
  | .leaf r => r
  | .split i yes no => .split (fs.term i) (yes.toRefutation fs) (no.toRefutation fs)

end Derivation

/-- The numbers of the facts that some facts rest on, directly or through others. -/
def Fact.reach (facts : Array Fact) (uses : List Nat) : Array Bool :=
  let marked := uses.foldl (fun (m : Array Bool) k => m.setIfInBounds k true)
    (Array.replicate facts.size false)
  (List.range facts.size).foldl (fun (m : Array Bool) j =>
    let k := facts.size - 1 - j
    if m.getD k false then
      (facts.getD k default).uses.foldl (fun m u => m.setIfInBounds u true) m
    else m) marked

/-- The refutation of a derivation and of the facts that it rests on, unless one of them has not been
derived. -/
def Derivation.refutation? (fs : Formulas) (facts : Array Fact) (d : Derivation)
    (uses : List Nat) : Option Refutation :=
  let reached := Fact.reach facts uses
  (List.range facts.size).foldl (fun (r : Option Refutation) j =>
    let k := facts.size - 1 - j
    if reached.getD k false then
      match (facts.getD k default).kind, r with
      | .law l, some r => some (.law l r)
      | .witness name w, some r => some (.witness name w r)
      | .clause literals d, some r =>
        some (.cut (literals.map fs.literalTerm) (d.toRefutation fs) r)
      | .gap, _ => none
      | _, none => none
    else r) (some (d.toRefutation fs))

end Discharge
