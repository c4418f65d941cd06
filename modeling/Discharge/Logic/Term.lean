import Discharge.Expr.Printer

/-!
# Sorts and terms

First-order terms over integers, reals, Booleans and arrays. Free constants are identified by name
and sort. Variables bound by a quantifier are integers and are counted from the inside: the last name
of the innermost quantifier is number 0.

`sortOf` gives the sort of a well-sorted term, and `check?` gives it only if the term is well sorted
and its bound numbers stay below a given count.
-/

namespace Discharge

/-! ## Sorts

The sorts of first-order terms: integers, reals, Booleans, and arrays of one of these indexed by
integers. `Ty.sort?` gives the sort of a type, which nested arrays do not have.
-/

/-- The sorts of array elements. -/
inductive BasicSort where
  | int
  | real
  | bool
deriving DecidableEq, Inhabited

/-- The sorts of terms. Array indices are integers. -/
inductive TermSort where
  | basic (s : BasicSort)
  | array (element : BasicSort)
deriving DecidableEq, Inhabited

namespace TermSort

/-- The sort of integers. -/
@[match_pattern] abbrev int : TermSort := .basic .int

/-- The sort of reals. -/
@[match_pattern] abbrev real : TermSort := .basic .real

/-- The sort of truth values. -/
@[match_pattern] abbrev bool : TermSort := .basic .bool

/-- Whether the sort is that of integers or of reals. -/
def isArithmetic : TermSort → Bool
  | .int => true
  | .real => true
  | _ => false

/-- Whether the sort is one of arrays. -/
def isArray : TermSort → Bool
  | .array _ => true
  | _ => false

/-- Whether a term of sort `s` can stand where one of sort `t` is expected: integers widen to
reals. -/
def fits (s t : TermSort) : Bool := s == t || (s == .int && t == .real)

end TermSort

/-- The name of a basic sort. -/
def BasicSort.text : BasicSort → String
  | .int => "Int"
  | .real => "Real"
  | .bool => "Bool"

/-- The name of a sort. -/
def TermSort.text : TermSort → String
  | .basic s => s.text
  | .array element => "Array(Int, " ++ element.text ++ ")"

/-- Why a type has no sort. -/
inductive SortError where
  /-- The elements of an array are no atomic values. -/
  | elements (base : Ty)
  /-- The type is none of those that have sorts. -/
  | noSort
deriving DecidableEq

/-- The sort of an atomic type. -/
def Ty.basicSort? : Ty → Option BasicSort
  | .int => some .int
  | .float => some .real
  | .bool => some .bool
  | .other => none
  | .array _ => none

/-- The sort of a type's values. -/
def Ty.sort? : Ty → Except SortError TermSort
  | .int => .ok .int
  | .float => .ok .real
  | .bool => .ok .bool
  | .other => .error .noSort
  | .array base =>
    match base.basicSort? with
    | some s => .ok (.array s)
    | none => .error (.elements base)

/-! ## Terms -/

/-- Operators of two arguments. `idiv` and `mod` are integer division and remainder, `rdiv` is real
division, `select` reads an array. -/
inductive TermOp where
  | and | or | implies
  | eq | lt | le | gt | ge
  | add | sub | mul
  | idiv | mod | rdiv
  | select
deriving DecidableEq, Inhabited, Hashable

/-- The sort of an operator applied to operands of given sorts, where it admits them. -/
def TermOp.sort? : TermOp → TermSort → TermSort → Option TermSort
  | .and, .bool, .bool => some .bool
  | .or, .bool, .bool => some .bool
  | .implies, .bool, .bool => some .bool
  | .eq, s, t => if s = t then some .bool else none
  | .lt, s, t => if s = t && s.isArithmetic then some .bool else none
  | .le, s, t => if s = t && s.isArithmetic then some .bool else none
  | .gt, s, t => if s = t && s.isArithmetic then some .bool else none
  | .ge, s, t => if s = t && s.isArithmetic then some .bool else none
  | .add, s, t => if s = t && s.isArithmetic then some s else none
  | .sub, s, t => if s = t && s.isArithmetic then some s else none
  | .mul, s, t => if s = t && s.isArithmetic then some s else none
  | .idiv, .int, .int => some .int
  | .mod, .int, .int => some .int
  | .rdiv, .real, .real => some .real
  | .select, .array s, .int => some (.basic s)
  | _, _, _ => none

/-- The comparison with its sides exchanged. -/
def TermOp.flip : TermOp → TermOp
  | .lt => .gt
  | .gt => .lt
  | .le => .ge
  | .ge => .le
  | op => op

deriving instance Hashable for BasicSort
deriving instance Hashable for TermSort
deriving instance Hashable for Quantifier

/-- Terms. -/
inductive Term where
  | int (n : Int)
  | real (q : Rat)
  | bool (b : Bool)
  | const (name : String) (sort : TermSort)
  | bound (index : Nat)
  | neg (a : Term)
  | not (a : Term)
  | toReal (a : Term)
  | app (op : TermOp) (a b : Term)
  | store (array index value : Term)
  | quantified (kind : Quantifier) (names : List String) (body : Term)
deriving DecidableEq, Inhabited, Hashable

namespace Term

/-- The element sort of an array sort. -/
def elementSort : TermSort → TermSort
  | .array s => .basic s
  | s => s

/-- The sort of a well-sorted term. -/
def sortOf : Term → TermSort
  | .int _ => .int
  | .real _ => .real
  | .bool _ => .bool
  | .const _ s => s
  | .bound _ => .int
  | .neg a => a.sortOf
  | .not _ => .bool
  | .toReal _ => .real
  | .app .and _ _ => .bool
  | .app .or _ _ => .bool
  | .app .implies _ _ => .bool
  | .app .eq _ _ => .bool
  | .app .lt _ _ => .bool
  | .app .le _ _ => .bool
  | .app .gt _ _ => .bool
  | .app .ge _ _ => .bool
  | .app .add a _ => a.sortOf
  | .app .sub a _ => a.sortOf
  | .app .mul a _ => a.sortOf
  | .app .idiv _ _ => .int
  | .app .mod _ _ => .int
  | .app .rdiv _ _ => .real
  | .app .select a _ => elementSort a.sortOf
  | .store a _ _ => a.sortOf
  | .quantified _ _ _ => .bool

/-- The sort of a term, if it is well sorted and each of its bound numbers is below `depth` or
belongs to a quantifier of the term. -/
def check? (depth : Nat) : Term → Option TermSort
  | .int _ => some .int
  | .real _ => some .real
  | .bool _ => some .bool
  | .const _ s => some s
  | .bound i => if i < depth then some .int else none
  | .neg a =>
    match check? depth a with
    | some s => if s.isArithmetic then some s else none
    | none => none
  | .not a => if check? depth a = some .bool then some .bool else none
  | .toReal a => if check? depth a = some .int then some .real else none
  | .app op a b =>
    match check? depth a, check? depth b with
    | some s, some t => op.sort? s t
    | _, _ => none
  | .store a i v =>
    match check? depth a, check? depth i, check? depth v with
    | some (.array s), some .int, some t => if t = .basic s then some (.array s) else none
    | _, _, _ => none
  | .quantified _ names body =>
    if check? (depth + names.length) body = some .bool then some .bool else none

/-- Whether the term is a written number. -/
def isNumeral : Term → Bool
  | .int _ => true
  | .real _ => true
  | _ => false

/-- Whether the term is a quantifier. -/
def isQuantified : Term → Bool
  | .quantified _ _ _ => true
  | _ => false

/-- The bound number that each name of a quantifier has; of repeated names the last one counts. -/
def boundIndex? (names : List String) (name : String) : Option Nat :=
  names.reverse.idxOf? name

/-- Binds the integer constants of the given names. `depth` counts the bound variables between the
new quantifier and this part. -/
def abstract (names : List String) (depth : Nat) : Term → Term
  | .int n => .int n
  | .real q => .real q
  | .bool b => .bool b
  | .const name s =>
    if s = .int then
      match boundIndex? names name with
      | some i => .bound (i + depth)
      | none => .const name s
    else .const name s
  | .bound i => .bound i
  | .neg a => .neg (abstract names depth a)
  | .not a => .not (abstract names depth a)
  | .toReal a => .toReal (abstract names depth a)
  | .app op a b => .app op (abstract names depth a) (abstract names depth b)
  | .store a i v =>
    .store (abstract names depth a) (abstract names depth i) (abstract names depth v)
  | .quantified kind ns body =>
    .quantified kind ns (abstract names (depth + ns.length) body)

/-- The quantifier over names whose integer constants in `body` it binds; without names, `body`. -/
def quantify (kind : Quantifier) (names : List String) (body : Term) : Term :=
  if names.isEmpty then body else .quantified kind names (abstract names 0 body)

/-- Constants of names and basic sorts, each with the term put in its place. -/
abbrev Substitution := List ((String × BasicSort) × Term)

/-- The term put in place of a constant; of several the first counts. -/
def Substitution.lookup? (σ : Substitution) (name : String) (sort : TermSort) : Option Term :=
  (σ.find? fun p => p.1.1 == name && TermSort.basic p.1.2 == sort).map Prod.snd

/-- Puts terms in place of constants, all at once. The new terms have no bound numbers of their own,
so none can be captured. -/
def substitute (σ : Substitution) : Term → Term
  | .int n => .int n
  | .real q => .real q
  | .bool b => .bool b
  | .const name s => (σ.lookup? name s).getD (.const name s)
  | .bound i => .bound i
  | .neg a => .neg (substitute σ a)
  | .not a => .not (substitute σ a)
  | .toReal a => .toReal (substitute σ a)
  | .app op a b => .app op (substitute σ a) (substitute σ b)
  | .store a i v => .store (substitute σ a) (substitute σ i) (substitute σ v)
  | .quantified kind ns body => .quantified kind ns (substitute σ body)

/-- Widens an integer term where a real is expected. -/
def coerce (t : Term) (s : TermSort) : Term :=
  if s = .real && t.sortOf = .int then .toReal t else t

/-- Two arithmetic operands of one sort: an integer operand beside a real one is widened. -/
def balance (l r : Term) : Term × Term := (l.coerce r.sortOf, r.coerce l.sortOf)

/-- A comparison or an arithmetic equality of two operands. A numeral on the right of another term
changes sides. -/
def compare (op : TermOp) (l r : Term) : Term :=
  let (l', r') := balance l r
  if r.isNumeral && !l.isNumeral then .app op.flip r' l' else .app op l' r'

/-- Equality of Booleans. A quantifier on the right of another term changes sides. -/
def iff (l r : Term) : Term :=
  if r.isQuantified && !l.isQuantified then .app .eq r l else .app .eq l r

/-- Equality of two terms of one sort, or of two arithmetic terms. -/
def equality (l r : Term) : Term :=
  if l.sortOf.isArithmetic then compare .eq l r
  else if l.sortOf = .bool then iff l r
  else .app .eq l r

/-- An arithmetic operator applied to two operands. -/
def arithmetic (op : TermOp) (l r : Term) : Term :=
  let (l', r') := balance l r
  .app op l' r'

/-- Division: integer division of two integers, else real division. -/
def division (l r : Term) : Term :=
  let (l', r') := balance l r
  .app (if l'.sortOf = .int then .idiv else .rdiv) l' r'

end Term

end Discharge
