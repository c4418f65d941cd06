import Discharge.Expr.Printer
import Discharge.Syntax.Reader

/-!
# Resolution of names

`Tree.resolve` turns a syntax tree into an expression over declared variables and predicates. A
quantifier declares its names as integers in its body. Of several declarations of a name the last
one counts. Parts are resolved depth first and from left to right, and the first offence is
reported: a call's own name before its arguments, the parts of an update before its target, both
operands of a division before their types.

`Exp.parse` reads a text: first its whole syntax, then its names.
-/

namespace Discharge

/-- Why a syntax tree cannot be resolved. -/
inductive ResolutionError where
  | undeclaredVariable (name : String)
  | undeclaredPredicate (name : String)
  | updateOfNoArray
  | division (e : TypingError)
deriving DecidableEq

/-- The text of a resolution error. -/
def ResolutionError.message : ResolutionError → String
  | .undeclaredVariable name => "use of undeclared variable `" ++ name ++ "`"
  | .undeclaredPredicate name => "call of undeclared predicate `" ++ name ++ "`"
  | .updateOfNoArray => "array update expects an array variable or another array update"
  | .division e => e.message?.getD ""

/-- Declarations in force, the innermost first. -/
abbrev Scope := List Variable

namespace Scope

/-- The scope of a list of declarations, of which the last of a name counts. -/
def ofList (declared : List Variable) : Scope := declared.reverse

/-- The declaration of a name. -/
def lookup? (scope : Scope) (name : String) : Option Variable := scope.find? (·.name == name)

/-- The scope with names bound as integers. -/
def bind (scope : Scope) (names : List String) : Scope :=
  names.map (fun name => .plain name .int) ++ scope

end Scope

/-- The last predicate of a name. -/
def Predicate.lookup? (predicates : List Predicate) (name : String) : Option Predicate :=
  predicates.reverse.find? (·.name == name)

/-- Chooses between integer and real division by the operands' types. -/
def divisionOf (left right : Exp) : Except ResolutionError BinOp :=
  match left.typeOf with
  | .error e => .error (.division e)
  | .ok l =>
    match right.typeOf with
    | .error e => .error (.division e)
    | .ok r => .ok (if l = .float || r = .float then .floatDiv else .div)

namespace Tree

mutual

/-- The expression of a syntax tree. -/
def resolve (predicates : List Predicate) (scope : Scope) : Tree → Except ResolutionError Exp
  | .int n => .ok (.int n)
  | .float x => .ok (.float x)
  | .truth b => .ok (.bool b)
  | .name n =>
    match scope.lookup? n with
    | some v => .ok (.var v)
    | none => .error (.undeclaredVariable n)
  | .call n args =>
    match Predicate.lookup? predicates n with
    | none => .error (.undeclaredPredicate n)
    | some p => do
      let as ← resolveArgs predicates scope args
      .ok (p.call as)
  | .sub array index => do
    let a ← resolve predicates scope array
    let i ← resolve predicates scope index
    .ok (.sub a i)
  | .upd array index value => do
    let a ← resolve predicates scope array
    let i ← resolve predicates scope index
    let v ← resolve predicates scope value
    match a.length? with
    | some length => .ok (.upd a i v length)
    | none => .error .updateOfNoArray
  | .len arg => do
    let a ← resolve predicates scope arg
    .ok (.len a)
  | .not arg => do
    let a ← resolve predicates scope arg
    .ok (.not a)
  | .neg arg => do
    let a ← resolve predicates scope arg
    .ok (.neg a)
  | .bin op left right => do
    let l ← resolve predicates scope left
    let r ← resolve predicates scope right
    let op ← if op = .div then divisionOf l r else .ok op
    .ok (.bin op l r)
  | .quantified kind names body => do
    let b ← resolve predicates (scope.bind names) body
    .ok (.quantified kind names b)

/-- `resolve` over the arguments of a call. -/
def resolveArgs (predicates : List Predicate) (scope : Scope) :
    List Tree → Except ResolutionError (List Exp)
  | [] => .ok []
  | t :: ts => do
    let a ← resolve predicates scope t
    let as ← resolveArgs predicates scope ts
    .ok (a :: as)

end

end Tree

/-- Why a text is no expression. -/
inductive ReadError where
  | syntaxError (e : SyntaxError)
  | resolution (e : ResolutionError)
deriving DecidableEq

/-- Reads a text as an expression over declared variables and predicates. -/
def Exp.parse (text : String) (declared : List Variable) (predicates : List Predicate) :
    Except ReadError Exp :=
  match Tree.ofText? text with
  | .error e => .error (.syntaxError e)
  | .ok tree =>
    match tree.resolve predicates (Scope.ofList declared) with
    | .error e => .error (.resolution e)
    | .ok e => .ok e

end Discharge
