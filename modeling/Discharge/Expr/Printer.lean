import Discharge.Expr.Basic
import Discharge.Number.Decimal

/-!
# Printing and static types

`Exp.print` writes an expression in the syntax that `Discharge.Syntax` reads. Every operator
application is in parentheses, so no precedence is needed. Printing fails on an operator outside the
language and on an integer with too many digits; the first such part from the left is the one
reported.
-/

namespace Discharge

/-! ## Printing -/

/-- Why an expression cannot be printed. -/
inductive PrintError where
  | unknownOperator
  | integerTooLong
deriving DecidableEq

/-- The symbol of an operator. Integer and real division share one. -/
def BinOp.symbol? : BinOp → Option String
  | .mul => some "*"
  | .div => some "/"
  | .floatDiv => some "/"
  | .mod => some "%"
  | .add => some "+"
  | .sub => some "-"
  | .lt => some "<"
  | .le => some "<="
  | .gt => some ">"
  | .ge => some ">="
  | .eq => some "=="
  | .ne => some "!="
  | .and => some "&&"
  | .or => some "||"
  | .implies => some "=>"
  | .iff => some "<=>"
  | .unknown => none

/-- The keyword of a quantifier. -/
def Quantifier.keyword : Quantifier → String
  | .all => "\\forall"
  | .ex => "\\exists"

/-- The name of a type, as diagnostics write it. -/
def Ty.text : Ty → String
  | .int => "int"
  | .float => "float"
  | .bool => "bool"
  | .other => "Type()"
  | .array base => base.text ++ "[]"

namespace Exp

mutual

/-- The text of an expression. -/
def print : Exp → Except PrintError String
  | .var v => .ok v.name
  | .int n =>
    match integerText? n with
    | some text => .ok text
    | none => .error .integerTooLong
  | .float x => .ok x.text
  | .bool b => .ok (if b then "true" else "false")
  | .call name _ _ args => do
    let parts ← printArgs args
    .ok (name ++ "(" ++ ", ".intercalate parts ++ ")")
  | .sub array index => do
    let a ← print array
    let i ← print index
    .ok (a ++ "[" ++ i ++ "]")
  | .upd array index value _ => do
    let a ← print array
    let i ← print index
    let v ← print value
    .ok (a ++ "[" ++ i ++ " := " ++ v ++ "]")
  | .not arg => do
    let a ← print arg
    .ok ("(!" ++ a ++ ")")
  | .neg arg => do
    let a ← print arg
    .ok ("(-" ++ a ++ ")")
  | .bin op left right => do
    let l ← print left
    match op.symbol? with
    | none => .error .unknownOperator
    | some symbol =>
      let r ← print right
      .ok ("(" ++ l ++ " " ++ symbol ++ " " ++ r ++ ")")
  | .quantified kind names body => do
    let b ← print body
    .ok ("(" ++ kind.keyword ++ " " ++ ", ".intercalate names ++ ". " ++ b ++ ")")
  | .len arg => do
    let a ← print arg
    .ok ("\\length(" ++ a ++ ")")
  | .bare => .ok "Exp()"

/-- The texts of a call's arguments. -/
def printArgs : List Exp → Except PrintError (List String)
  | [] => .ok []
  | a :: as => do
    let t ← print a
    let ts ← printArgs as
    .ok (t :: ts)

end

end Exp

/-! ## Static types of expressions

`Exp.typeOf` gives the type of an expression, taken to be well typed: it looks only as far as the
type requires. Arithmetic is `float` if an operand is, else `int`; a subscript has the element type
of its array; whatever compares or connects is `bool`.
-/

/-- Why an expression has no type. -/
inductive TypingError where
  /-- The array of a subscript is no array; its printed text. -/
  | notAnArray (array : String)
  /-- The array of a subscript is no array and cannot be printed. -/
  | unprintable (e : PrintError)
  /-- An expression without form. -/
  | untyped
deriving DecidableEq

/-- The text of a typing error, where it has one. -/
def TypingError.message? : TypingError → Option String
  | .notAnArray array => some ("subscript of non-array " ++ array)
  | .unprintable _ => none
  | .untyped => none

/-- Whether the operator computes a number from two numbers, other than `floatDiv` and `mod`. -/
def BinOp.isPlainArithmetic : BinOp → Bool
  | .mul => true
  | .div => true
  | .add => true
  | .sub => true
  | _ => false

namespace Exp

/-- The static type of an expression. -/
def typeOf : Exp → Except TypingError Ty
  | .var v => .ok v.type
  | .int _ => .ok .int
  | .float _ => .ok .float
  | .bool _ => .ok .bool
  | .call _ _ _ _ => .ok .bool
  | .sub array _ => do
    match ← typeOf array with
    | .array base => .ok base
    | _ =>
      match array.print with
      | .ok text => .error (.notAnArray text)
      | .error e => .error (.unprintable e)
  | .upd array _ _ _ => typeOf array
  | .not _ => .ok .bool
  | .neg arg => typeOf arg
  | .bin op left right =>
    if op = .floatDiv then .ok .float
    else if op = .mod then .ok .int
    else if op.isPlainArithmetic then do
      let l ← typeOf left
      let r ← typeOf right
      .ok (if l = .float || r = .float then .float else .int)
    else .ok .bool
  | .quantified _ _ _ => .ok .bool
  | .len _ => .ok .int
  | .bare => .error .untyped

end Exp

end Discharge
