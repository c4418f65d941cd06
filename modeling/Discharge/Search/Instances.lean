import Discharge.Search.Candidate
import Discharge.Decision.Polynomial

/-!
# Instances of quantifiers and missing laws

Terms to put in place of a quantified name. Where a comparison in the body can be solved for the name,
the solution is the first choice; then come the integer terms of the body and the indices that occur
elsewhere. The whole part of a quotient is written with the quotients of its atoms, and with a number for
what remains of them in a candidate, so that few divisions serve for many instances. The whole part
of a real solution needs a constant of its own.
-/

namespace Discharge

/-! ## Terms for a quantified name -/

/-- A place for an instance: the whole part of the quotient of an integer polynomial and a number, or of
a real term. -/
inductive InstancePoint where
  | quotient (p : Polynomial) (divisor : Nat)
  | floor (t : Term)

namespace Term

/-- Whether the term is well sorted and has no free bound numbers. -/
def isGround (t : Term) : Bool := (t.check? 0).isSome

/-- The points at which a comparison that is linear in a bound number changes. -/
def solve (index : Nat) (a b : Term) : List InstancePoint :=
  let p := a.polynomial.sub b.polynomial
  let name := Term.bound index
  match p.find? fun (m, _) => m = [name] with
  | none => []
  | some (_, c) =>
    let rest := p.filter fun (m, _) => m ≠ [name]
    if rest.any fun (m, _) => m.any fun t => !t.isGround then []
    else
      let solution := Polynomial.scale (-1 / c) rest
      if solution.all fun (m, _) => m.all fun t => t.sortOf = .int then
        let l : Nat := solution.foldl (fun l (_, d) => Nat.lcm l d.den) 1
        [.quotient (Polynomial.scale l solution) l]
      else [.floor (ofRealPolynomial solution)]

/-- The points that the comparisons of a formula suggest for a bound number. -/
def points (index : Nat) : Term → List InstancePoint
  | .not a => points index a
  | .app op a b =>
    (if a.sortOf.isArithmetic && b.sortOf.isArithmetic then
      match op with
      | .eq => solve index a b
      | .lt => solve index a b
      | .le => solve index a b
      | .gt => solve index a b
      | .ge => solve index a b
      | _ => []
    else []) ++ points index a ++ points index b
  | .quantified _ names body => points (index + names.length) body
  | _ => []

/-- The integer terms without free bound numbers in a term, largest first. -/
def groundIntegers : Term → List Term
  | .neg a => own (.neg a) ++ groundIntegers a
  | .not a => groundIntegers a
  | .toReal a => groundIntegers a
  | .app op a b => own (.app op a b) ++ groundIntegers a ++ groundIntegers b
  | .store a i v => groundIntegers a ++ groundIntegers i ++ groundIntegers v
  | .quantified _ _ body => groundIntegers body
  | .const name s => own (.const name s)
  | _ => []
where
  /-- The term itself, if it is an integer and ground. -/
  own (t : Term) : List Term := if t.sortOf = .int && t.isGround then [t] else []

/-- The integers that occur in a term. -/
def numerals : Term → List Int
  | .int n => [n]
  | .neg a => numerals a
  | .not a => numerals a
  | .toReal a => numerals a
  | .app _ a b => numerals a ++ numerals b
  | .store a i v => numerals a ++ numerals i ++ numerals v
  | .quantified _ _ body => numerals body
  | _ => []

/-- Whether a bound number occurs. -/
def hasBound (index : Nat) : Term → Bool
  | .bound i => i == index
  | .neg a => hasBound index a
  | .not a => hasBound index a
  | .toReal a => hasBound index a
  | .app _ a b => hasBound index a || hasBound index b
  | .store a i v => hasBound index a || hasBound index i || hasBound index v
  | .quantified _ names body => hasBound (index + names.length) body
  | _ => false

/-- A common multiple of the numbers that terms with a bound number are divided by. -/
def modulus (index : Nat) : Term → Nat
  | .neg a => modulus index a
  | .not a => modulus index a
  | .toReal a => modulus index a
  | .app op a b =>
    let m := Nat.lcm (modulus index a) (modulus index b)
    match b with
    | .int n =>
      if (op = .mod || op = .idiv) && n ≠ 0 && hasBound index a then Nat.lcm m n.natAbs else m
    | .neg (.int n) =>
      if (op = .mod || op = .idiv) && n ≠ 0 && hasBound index a then Nat.lcm m n.natAbs else m
    | _ => m
  | .store a i v => Nat.lcm (modulus index a) (Nat.lcm (modulus index i) (modulus index v))
  | .quantified _ names body => modulus (index + names.length) body
  | _ => 1

/-- Whether something is divided by what may be zero. -/
def divides : Term → Bool
  | .neg a => divides a
  | .not a => divides a
  | .toReal a => divides a
  | .app op a b =>
    ((op = .idiv || op = .mod || op = .rdiv) && b.polynomial.constant?.all (· == 0)) ||
      divides a || divides b
  | .store a i x => divides a || divides i || divides x
  | .quantified _ _ body => divides body
  | _ => false

/-- Whether something is divided by what may be zero under a quantifier. -/
def dividesBound : Term → Bool
  | .not a => dividesBound a
  | .app _ a b => dividesBound a || dividesBound b
  | .store a i x => dividesBound a || dividesBound i || dividesBound x
  | .quantified _ _ body => divides body
  | _ => false

/-- A term moved by a number. -/
def shift (t : Term) (j : Int) : Term :=
  match t with
  | .int n => .int (n + j)
  | t => if j = 0 then t else .app .add t (.int j)

end Term

/-- The whole part of the quotient of an integer polynomial and a number, for what remains of each monomial
in a candidate. -/
def Candidate.quotient? (c : Candidate) (p : Polynomial) (divisor : Nat) : Option Term := do
  let l : Int := divisor
  let parts ← p.mapM fun (m, d) =>
    if m.isEmpty then some (([] : Polynomial), d.num)
    else do
      let t := Term.ofMonomial .int m
      let n ← c.integer? t
      let multiple : Polynomial := .scale (d.num / l : Int) [(m, 1)]
      let quotient : Polynomial := .scale (d.num % l : Int) [([.app .idiv t (.int l)], 1)]
      some (multiple ++ quotient, d.num % l * (n % l))
  let rest := parts.foldl (fun s q => s + q.2) 0
  some (.ofIntegerPolynomial (parts.flatMap Prod.fst ++ .const (rest / l : Int)))

namespace View

/-- The index terms of array reads and updates, and what is divided by something that may be zero. -/
def indices (v : View) : List Term :=
  let mayBeZero := fun (t : Term) => t.polynomial.constant?.all (· == 0)
  State.distinctTerms (v.parts.filterMap fun p =>
    match p with
    | .app .select _ i => some i
    | .store _ i _ => some i
    | .app .idiv a b => if mayBeZero b then some a else none
    | .app .mod a b => if mayBeZero b then some a else none
    | .app .rdiv (.toReal a) b => if mayBeZero b then some a else none
    | _ => none)

/-- The terms to try for the first name of a quantifier, where `indices` are those that occur elsewhere. -/
def instanceTerms (v : View) (indices : List Term) (c : Candidate) (q : Term) : List Term :=
  match q with
  | .quantified _ names body =>
    let index := names.length - 1
    let solved := (body.points index).filterMap fun p =>
      match p with
      | .quotient p l => c.quotient? p l
      | .floor t => (v.witnesses.find? (·.1 == t)).map Prod.snd
    (solved ++ body.groundIntegers ++ indices).foldl
      (fun ts t => if ts.contains t then ts else ts ++ [t]) []
  | _ => []

/-- A real solution in the body of a quantifier whose whole part has no constant yet. -/
def missingFloor? (v : View) (q : Term) : Option Term :=
  match q with
  | .quantified _ names body =>
    (body.points (names.length - 1)).findSome? fun p =>
      match p with
      | .floor t => if v.witnesses.any (·.1 == t) then none else some t
      | .quotient _ _ => none
  | _ => none

end View

/-- The truth that a literal about a quantifier requires of all instances of its body, if it requires
something of all. -/
def requiredOfAll? (q : Term) (holds : Bool) : Option Bool :=
  match q, holds with
  | .quantified .all _ _, true => some true
  | .quantified .ex _ _, false => some false
  | _, _ => none

/-- The common multiple of the numbers by which the first name of a quantifier is divided. -/
def Term.quantifierModulus : Term → Nat
  | .quantified _ names body => body.modulus (names.length - 1)
  | _ => 1

/-- A term of value `n` moved by `j`. With a modulus, the remainder of the term is replaced by a number, so
that the remainder of the result is known. -/
def movedTerm (modulus : Nat) (t : Term) (n j : Int) : Term :=
  let m : Int := modulus
  match t with
  | .int _ => t.shift j
  | _ =>
    if j = 0 || modulus ≤ 1 then t.shift j
    else .app .add (.app .mul (.int m) (.app .idiv t (.int m))) (.int (n % m + j))

/-- Whether a term has been moved by numbers more than once. Such terms are not moved any further. -/
def Term.isMovedTwice : Term → Bool
  | .app .add (.app .add _ (.int _)) (.int _) => true
  | _ => false

/-- Looks for an instance of a quantifier that a candidate makes false although it is required, among
terms near to those to try and some small numbers. -/
def View.violation? (v : View) (indices : List Term) (c : Candidate) (q : Term)
    (required : Bool) : Option Term :=
  match q with
  | .quantified _ [_] body =>
    let isViolated := fun (n : Int) =>
      (c.value v.truth? [n] body).bind Value.truth? == some (!required)
    let terms := (v.instanceTerms indices c q).filterMap fun t => (c.integer? t).map fun n => (t, n)
    let moved := fun (j : Int) => terms.findSome? fun (t, n) =>
      if (j = 0 || !t.isMovedTwice) && isViolated (n + j) then some (movedTerm q.quantifierModulus t n j) else none
    let numeral := body.numerals.findSome? fun (n : Int) => if isViolated n then some (Term.int n) else none
    match (moved 0).or <| numeral.or <| (moved (-1)).or (moved 1) with
    | some t => some t
    | none =>
      if 1 < q.quantifierModulus && !terms.isEmpty then none
      else
        [0, 1, -1, 2, -2, 3, -3, 5, -5, 10, -10, 100, -100].findSome? fun (n : Int) =>
          if isViolated n then some (.int n) else none
  | _ => none

/-- The term for an instance at a number: a term to try whose value is near, or the number itself. -/
def View.termAt (v : View) (c : Candidate) (q : Term) (n : Int) : Term :=
  let terms := (v.instanceTerms v.indices c q).filterMap fun t => (c.integer? t).map fun m => (t, n - m)
  let best := terms.foldl (fun (best : Option (Term × Int)) p =>
    match best with
    | none => some p
    | some p' => if p.2.natAbs < p'.2.natAbs then some p else best) none
  match best with
  | some (t, j) =>
    if j.natAbs ≤ 20 + q.quantifierModulus then movedTerm q.quantifierModulus t (n - j) j else .int n
  | none => .int n

/-! ## Missing laws

The laws and witnesses that a view lacks: without them its solution reads arrays, divides, or compares in a way
that no model does. Laws are asked for only when a solution violates them, but for the law of division, which
every quotient and remainder by a number gets at once, and for that of reading from an updated array.
-/

namespace View

/-- The laws of a list that are not pinned. -/
def newLaws (v : View) (ls : List Law) : List Law := ls.filter fun l => !v.hasLaw l

/-- Quantifiers that an instance has to show true or false, and arrays that have to differ somewhere, without a
witness yet. -/
def missingWitnesses (v : View) : List (Witness × Term) :=
  v.literals.filterMap fun (t, holds) =>
    if v.witnesses.any (·.1 == t) then none
    else match t with
      | .quantified _ _ _ => if (requiredOfAll? t holds).isNone then some (.sample t, t) else none
      | .app .eq l r => if !holds && l.sortOf.isArray then some (.difference l r, t) else none
      | _ => none

/-- The laws of divisions by numbers. -/
def missingDivisions (v : View) : List Law :=
  v.newLaws (v.parts.filterMap fun p =>
    match p with
    | .app op l r =>
      if op = .idiv || op = .mod then
        match r.polynomial.constant? with
        | some c => if c = 0 then none else some (.division l r)
        | none => none
      else none
    | _ => none)

/-- Equal numbers that are required to differ. -/
def coincidences (v : View) : List Law :=
  v.newLaws (v.literals.filterMap fun (t, holds) =>
    match t with
    | .app .eq l r =>
      if !holds && l.sortOf.isArithmetic && v.number l = v.number r then some (.trichotomy l r) else none
    | _ => none)

/-- The function that a term is an application of, if it is one that assumptions may describe, with its argument as
an integer term. -/
def application? (v : View) : Term → Option (KnownFunction × Term)
  | .app .select (.const name (.array e)) i => some (.array name e, i)
  | .app .rdiv a b =>
    if v.number b = 0 then
      match a with
      | .toReal i => some (.byZero .rdiv, i)
      | _ =>
        let q := v.number a
        if q.den = 1 then some (.byZero .rdiv, .int q.num) else none
    else none
  | .app op a b =>
    if (op = .idiv || op = .mod) && v.number b = 0 then some (.byZero op, a) else none
  | _ => none

/-- Whether a term has a value. -/
def hasValue (v : View) (p : Term) : Scalar → Bool
  | .int n => v.monomial? [p] == some (n : Rat)
  | .real q => v.monomial? [p] == some q
  | .bool t => v.truth? p == some t
  | .algebraic _ => false

/-- The laws that a known function has its values at the places where it is applied, as far as it does not. -/
def wrongReads (v : View) : List Law :=
  if v.known.isEmpty then []
  else
    v.newLaws (v.parts.filterMap fun p => do
      let (f, i) ← v.application? p
      let k ← v.known.find? (·.function == f)
      let key := (v.number i).floor
      let piece := k.pieces.find? fun (stop, _) => stop.all (key < ·)
      match k.table.entries.find? (·.1 == key), p with
      | some (_, x), .app op a b =>
        if v.hasValue p x then none
        else
          match op with
          | .select => some (.congruence op a b a (.int key))
          | .rdiv => some (.congruence op a b (.toReal (.int key)) (.real 0))
          | _ => some (.congruence op a b (.int key) (.int 0))
      | _, _ =>
        let x ← ((k.table.steps.find? (key < ·.1)).map Prod.snd).or k.table.default
        if v.hasValue p x then none else piece.map fun (_, fact) => .instantiation fact i)

/-- The laws of reading a place from an array that has been updated, perhaps several times. -/
def storeReads (place : Term) : Term → List Law
  | .store a i x => .storeRead a i x place :: storeReads place a
  | _ => []

/-- The missing laws of reads from updated arrays. -/
def missingReads (v : View) : List Law :=
  v.newLaws (v.parts.flatMap fun p =>
    match p with
    | .app .select a j => storeReads j a
    | _ => [])

/-- The missing laws of divisions by something that is not zero. -/
def missingQuotients (v : View) : List Law :=
  v.newLaws (v.parts.filterMap fun p =>
    match p with
    | .app .rdiv l r => if v.number r = 0 then none else some (.quotient l r)
    | .app op l r =>
      if (op = .idiv || op = .mod) && v.number r ≠ 0 then some (.division l r) else none
    | _ => none)

/-- Whether two operands have the same value. Arrays are the same only as terms. -/
def agree (v : View) (l r : Term) : Bool :=
  l == r || (l.sortOf.isArithmetic && v.number l = v.number r)

/-- Whether two results are different. -/
def differ (v : View) (l r : Term) : Bool :=
  if l.sortOf = .bool then
    match v.truth? l, v.truth? r with
    | some a, some b => a != b
    | _, _ => false
  else v.number l ≠ v.number r

/-- Applications of one operator with equal operands and different results, each beside the first with the same
right operand. -/
def missingCongruences (v : View) : List Law :=
  let applications := v.parts.filter fun p =>
    match p with
    | .app .idiv _ _ => true
    | .app .mod _ _ => true
    | .app .rdiv _ _ => true
    | .app .select _ _ => true
    | _ => false
  let groups := applications.foldl (fun (groups : Std.HashMap (TermOp × Rat) (List Term)) p =>
    match p with
    | .app op _ r =>
      let key := (op, v.number r)
      groups.insert key (p :: (groups[key]?).getD [])
    | _ => groups) ∅
  v.newLaws (applications.flatMap fun p =>
    match p with
    | .app op l r =>
      let group := ((groups[(op, v.number r)]?).getD []).reverse
      group.filterMap fun q =>
        match q with
        | .app _ l' r' =>
          if p ≠ q && agree v l l' && differ v p q then some (.congruence op l r l' r') else none
        | _ => none
    | _ => [])

/-- An index at which two arrays that are required to be equal differ under a candidate. -/
def missingEquality? (v : View) (c : Candidate) : Option Law :=
  v.literals.findSome? fun (t, holds) =>
    match t with
    | .app .eq l r =>
      if holds && l.sortOf.isArray then
        match c.value (fun _ => none) [] l, c.value (fun _ => none) [] r with
        | some (.array x), some (.array y) =>
          match x.difference? c.rootValue y with
          | none => none
          | some k =>
            let places := (v.indices.filter fun i => c.integer? i == some k) ++ [.int k]
            (v.newLaws (places.map fun i => .congruence .select l i r i)).head?
        | _, _ => none
      else none
    | _ => none

/-- An index at which arrays that are required to be equal have not been compared. -/
def missingComparison? (v : View) : Option Law :=
  v.literals.findSome? fun (t, holds) =>
    match t with
    | .app .eq l r =>
      if holds && l.sortOf.isArray then
        (v.newLaws (v.indices.map fun i => .congruence .select l i r i)).head?
      else none
    | _ => none

end View

end Discharge
