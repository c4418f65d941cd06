import Discharge.Number.Binary64

/-!
# Expressions

The typed expressions that verification conditions are made of: arithmetic over integers and
doubles, Booleans, arrays with functional update, quantifiers over integers, calls of named
predicates, and the length of an array.

An expression of this type need not be well typed; what it means, if anything, is decided when it is
encoded (`Discharge.Encoding`).
-/

namespace Discharge

/-- Static types. `other` is a type that is none of the three atomic ones and no array. -/
inductive Ty where
  | int
  | float
  | bool
  | other
  | array (base : Ty)
deriving DecidableEq, Inhabited

/-- Declared names. An array variable carries the variable that holds the array's length; a plain
variable has none, whatever its type. -/
inductive Variable where
  | plain (name : String) (type : Ty)
  | array (name : String) (type : Ty) (length : Variable)
deriving DecidableEq, Inhabited

namespace Variable

/-- The declared name. -/
def name : Variable → String
  | .plain name _ => name
  | .array name _ _ => name

/-- The declared type. -/
def type : Variable → Ty
  | .plain _ type => type
  | .array _ type _ => type

/-- The array variable of a name and an element type; its length is the integer `name.length`. -/
def arrayOf (name : String) (base : Ty) : Variable :=
  .array name (.array base) (.plain (name ++ ".length") .int)

/-- The length variable, which only an array variable has. -/
def length? : Variable → Option Variable
  | .plain _ _ => none
  | .array _ _ length => some length

end Variable

/-- Binary operators. `unknown` is an operator outside the language: expressions may hold it, but it
has no symbol and no meaning. -/
inductive BinOp where
  | mul | div | floatDiv | mod | add | sub
  | lt | le | gt | ge
  | eq | ne
  | and | or | implies | iff
  | unknown
deriving DecidableEq, Inhabited

/-- Quantifiers. -/
inductive Quantifier where
  | all
  | ex
deriving DecidableEq, Inhabited

/-- Expressions. A call holds the whole predicate that it calls: name, parameters and body. A
functional update holds the length variable of the array it updates. `bare` is an expression without
any form. -/
inductive Exp where
  | var (v : Variable)
  | int (n : Int)
  | float (x : Binary64)
  | bool (b : Bool)
  | call (name : String) (parameters : List Variable) (body : Exp) (args : List Exp)
  | sub (array index : Exp)
  | upd (array index value : Exp) (length : Variable)
  | not (arg : Exp)
  | neg (arg : Exp)
  | bin (op : BinOp) (left right : Exp)
  | quantified (kind : Quantifier) (names : List String) (body : Exp)
  | len (arg : Exp)
  | bare
deriving Inhabited

/-- A named predicate. -/
structure Predicate where
  name : String
  parameters : List Variable
  body : Exp
deriving Inhabited

namespace Predicate

/-- The predicate of a bare name: no parameters, and it always holds. -/
def ofName (name : String) : Predicate := ⟨name, [], .bool true⟩

/-- A call of the predicate. -/
def call (p : Predicate) (args : List Exp) : Exp := .call p.name p.parameters p.body args

end Predicate

namespace Exp

/-- The length variable of an expression that names an array with a length: a reference to an array
variable, or an update. -/
def length? : Exp → Option Variable
  | .var v => v.length?
  | .upd _ _ _ length => some length
  | _ => none

mutual

/-- Equality of expressions. Doubles are compared by value, so expressions that differ only in the
sign of a zero are equal, and an expression that holds `nan` differs from itself. -/
def equal : Exp → Exp → Bool
  | .var v, .var w => v == w
  | .int m, .int n => m == n
  | .float x, .float y => x.equal y
  | .bool a, .bool b => a == b
  | .call n ps b as, .call m qs c bs => n == m && ps == qs && equal b c && equalArgs as bs
  | .sub a i, .sub b j => equal a b && equal i j
  | .upd a i v l, .upd b j w m => equal a b && equal i j && equal v w && l == m
  | .not a, .not b => equal a b
  | .neg a, .neg b => equal a b
  | .bin o a b, .bin p c d => o == p && equal a c && equal b d
  | .quantified k ns a, .quantified l ms b => k == l && ns == ms && equal a b
  | .len a, .len b => equal a b
  | .bare, .bare => true
  | _, _ => false

/-- `equal` over the arguments of a call. -/
def equalArgs : List Exp → List Exp → Bool
  | [], [] => true
  | a :: as, b :: bs => equal a b && equalArgs as bs
  | _, _ => false

end

end Exp

end Discharge
