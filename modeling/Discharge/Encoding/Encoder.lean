import Discharge.Logic.Term

/-!
# Encoding of expressions as terms

`Exp.encode` gives the term of an expression over defined predicates. Calls are replaced by the
predicate's body, so terms have none. The sort of each operand is checked as soon as it is encoded,
and the first defect found is the one reported. `Definitions.define` encodes a predicate; its body
may call only predicates that were defined before, so no definition is recursive.
-/

namespace Discharge

/-! ## Defects of encoding

Why an expression has no term, or a predicate cannot be defined. `Defect.message` gives the text of
those that have one. A text that quotes an expression needs that expression to be printable; if it is
not, then that is what is reported.
-/

/-- What is expected of a term at its place. -/
inductive Expected where
  | bool
  | int
  | array
  | arithmetic
  | sort (s : TermSort)
deriving DecidableEq

/-- The word for what is expected. -/
def Expected.text : Expected → String
  | .bool => "Bool"
  | .int => "Int"
  | .array => "Array"
  | .arithmetic => "arithmetic"
  | .sort s => s.text

/-- Whether a sort is as expected. -/
def Expected.admits : Expected → TermSort → Bool
  | .bool, s => s == .bool
  | .int, s => s == .int
  | .array, s => s.isArray
  | .arithmetic, s => s.isArithmetic
  | .sort t, s => s.fits t

/-- Causes of a failed encoding or definition. -/
inductive Defect where
  /-- The term of `node` has a sort that its place does not admit, or two operands of `node` differ. -/
  | sortMismatch (node : Exp) (expected : Expected) (actual : TermSort)
  | unregistered (name : String)
  | duplicate (name : String)
  | unsupportedParameter (predicate : String) (parameter : Variable)
  | arity (node : Exp) (expected actual : Nat)
  | malformedLength (node : Exp)
  | unknownElements (type : Ty)
  | notFinite (node : Exp)
  /-- A variable whose type has no sort. -/
  | noSort
  /-- An expression without form. -/
  | formless
  /-- An operator outside the language, between arithmetic operands. -/
  | unknownOperator
  /-- An integer with too many digits. -/
  | integerTooLong

namespace Defect

/-- A text that begins with a printed expression. -/
def about (node : Exp) (rest : String) : Except PrintError (Option String) :=
  match node.print with
  | .ok text => .ok (some (text ++ ": " ++ rest))
  | .error e => .error e

/-- The text of a defect, where it has one. -/
def message : Defect → Except PrintError (Option String)
  | .sortMismatch node expected actual =>
    about node ("expected " ++ expected.text ++ " sort, got " ++ actual.text)
  | .unregistered name => .ok (some ("predicate `" ++ name ++ "` is called before being defined"))
  | .duplicate name => .ok (some ("predicate `" ++ name ++ "` is already defined"))
  | .unsupportedParameter predicate parameter =>
    .ok (some ("the type of parameter `" ++ parameter.name ++ "` of `" ++ predicate ++ "` is " ++
      parameter.type.text ++ ", neither int, float nor bool"))
  | .arity node expected actual =>
    about node ("expected " ++ toString expected ++ " arguments, got " ++ toString actual)
  | .malformedLength node => about node "\\length expects an array variable or an array update"
  | .unknownElements type =>
    .ok (some ("array element type " ++ type.text ++ " is neither int, float nor bool"))
  | .notFinite node => about node "real constants must be finite"
  | .noSort => .ok none
  | .formless => .ok none
  | .unknownOperator => .ok none
  | .integerTooLong => .ok none

end Defect

/-! ## Defined predicates

The predicates that have been defined, in the order of their definition, each with the term of its
body and the constants that stand for its parameters.
-/

/-- An encoded predicate: its body, and the names and sorts of its parameters. -/
structure Definition where
  body : Term
  formals : List (String × BasicSort)
deriving DecidableEq

/-- Named definitions, in the order in which they were made. -/
structure Definitions where
  entries : List (String × Definition)
deriving DecidableEq

namespace Definitions

/-- No definitions. -/
def empty : Definitions := ⟨[]⟩

/-- The definition of a name. -/
def lookup? (ds : Definitions) (name : String) : Option Definition :=
  (ds.entries.find? (·.1 == name)).map Prod.snd

/-- Whether the name is defined. -/
def contains (ds : Definitions) (name : String) : Bool := (ds.lookup? name).isSome

/-- The number of definitions. -/
def size (ds : Definitions) : Nat := ds.entries.length

/-- The definitions with one more at the end. -/
def add (ds : Definitions) (name : String) (d : Definition) : Definitions :=
  ⟨ds.entries ++ [(name, d)]⟩

end Definitions

/-- The constants of a definition's parameters, as terms. -/
def Definition.formalTerms (d : Definition) : List Term :=
  d.formals.map fun (name, s) => .const name (.basic s)

/-! ## Encoding -/

/-- The sort of a type, or the defect that it has none. -/
def Ty.encodeSort (t : Ty) : Except Defect TermSort :=
  match t.sort? with
  | .ok s => .ok s
  | .error (.elements base) => .error (.unknownElements base)
  | .error .noSort => .error .noSort

/-- The name of the constant for a name: a null character ends it. -/
def constantName (name : String) : String :=
  String.ofList (name.toList.takeWhile fun c => c != '\x00')

/-- The constant of a variable. -/
def Variable.encode (v : Variable) : Except Defect Term := do
  let s ← v.type.encodeSort
  .ok (.const (constantName v.name) s)

/-- Passes on the term of `node` if its sort is as expected. -/
def expect (node : Exp) (expected : Expected) (t : Term) : Except Defect Term :=
  if expected.admits t.sortOf then .ok t else .error (.sortMismatch node expected t.sortOf)

/-- What a binary operator requires of its operands. -/
inductive OperandRule where
  /-- Both operands are Booleans. -/
  | booleans (build : Term → Term → Term)
  /-- Both operands are arithmetic, or both have one sort. -/
  | alike (build : Term → Term → Term)
  /-- Both operands are integers. -/
  | integers (build : Term → Term → Term)
  /-- Both operands are arithmetic. -/
  | numbers (build : Term → Term → Term)
  /-- Both operands are arithmetic, and the operator has no meaning. -/
  | meaningless

/-- The rule of an operator. -/
def BinOp.rule : BinOp → OperandRule
  | .and => .booleans (.app .and)
  | .or => .booleans (.app .or)
  | .implies => .booleans (.app .implies)
  | .iff => .booleans Term.iff
  | .eq => .alike Term.equality
  | .ne => .alike fun l r => .not (Term.equality l r)
  | .mod => .integers (.app .mod)
  | .mul => .numbers (Term.arithmetic .mul)
  | .div => .numbers Term.division
  | .floatDiv => .numbers Term.division
  | .add => .numbers (Term.arithmetic .add)
  | .sub => .numbers (Term.arithmetic .sub)
  | .lt => .numbers (Term.compare .lt)
  | .le => .numbers (Term.compare .le)
  | .gt => .numbers (Term.compare .gt)
  | .ge => .numbers (Term.compare .ge)
  | .unknown => .meaningless

/-- The constant that holds the length of an array expression. `node` is the length expression. -/
def encodeLength (node arg : Exp) : Except Defect Term :=
  match arg.length? with
  | none => .error (.malformedLength node)
  | some v =>
    if v.type = .int then .ok (.const (constantName v.name) .int)
    else do
      let s ← v.type.encodeSort
      .error (.sortMismatch node .int s)

namespace Exp

mutual

/-- The term of an expression. -/
def encode (ds : Definitions) : Exp → Except Defect Term
  | .var v => v.encode
  | .int n => if (integerText? n).isSome then .ok (.int n) else .error .integerTooLong
  | .float x =>
    match x.decimalValue? with
    | some q => .ok (.real q)
    | none => .error (.notFinite (.float x))
  | .bool b => .ok (.bool b)
  | .call name parameters body args =>
    match ds.lookup? name with
    | none => .error (.unregistered name)
    | some d =>
      if args.length = d.formals.length then do
        let σ ← encodeArgs ds d.formals args
        .ok (d.body.substitute σ)
      else .error (.arity (.call name parameters body args) d.formals.length args.length)
  | .sub array index => do
    let a ← expect array .array (← encode ds array)
    let i ← expect index .int (← encode ds index)
    .ok (.app .select a i)
  | .upd array index value _ => do
    let a ← expect array .array (← encode ds array)
    let i ← expect index .int (← encode ds index)
    let s := Term.elementSort a.sortOf
    let v ← expect value (.sort s) (← encode ds value)
    .ok (.store a i (v.coerce s))
  | .not arg => do
    let a ← expect arg .bool (← encode ds arg)
    .ok (.not a)
  | .neg arg => do
    let a ← expect arg .arithmetic (← encode ds arg)
    .ok (.neg a)
  | .bin op left right =>
    match op.rule with
    | .booleans build => do
      let l ← expect left .bool (← encode ds left)
      let r ← expect right .bool (← encode ds right)
      .ok (build l r)
    | .alike build => do
      let l ← encode ds left
      let r ← encode ds right
      if l.sortOf = r.sortOf || (l.sortOf.isArithmetic && r.sortOf.isArithmetic) then
        .ok (build l r)
      else .error (.sortMismatch (.bin op left right) (.sort l.sortOf) r.sortOf)
    | .integers build => do
      let l ← expect left .int (← encode ds left)
      let r ← expect right .int (← encode ds right)
      .ok (build l r)
    | .numbers build => do
      let l ← expect left .arithmetic (← encode ds left)
      let r ← expect right .arithmetic (← encode ds right)
      .ok (build l r)
    | .meaningless => do
      let _ ← expect left .arithmetic (← encode ds left)
      let _ ← expect right .arithmetic (← encode ds right)
      .error .unknownOperator
  | .quantified kind names body => do
    let b ← expect body .bool (← encode ds body)
    .ok (Term.quantify kind (names.map constantName) b)
  | .len arg => encodeLength (.len arg) arg
  | .bare => .error .formless

/-- The terms of a call's arguments, each for its parameter's constant. -/
def encodeArgs (ds : Definitions) :
    List (String × BasicSort) → List Exp → Except Defect Term.Substitution
  | formal :: formals, arg :: args => do
    let a ← expect arg (.sort (.basic formal.2)) (← encode ds arg)
    let σ ← encodeArgs ds formals args
    .ok ((formal, a.coerce (.basic formal.2)) :: σ)
  | _, _ => .ok []

end

end Exp

namespace Definitions

/-- The names and sorts of a predicate's parameters, which have to be atomic. -/
def formals (predicate : String) : List Variable → Except Defect (List (String × BasicSort))
  | [] => .ok []
  | v :: vs =>
    match v.type.basicSort? with
    | none => .error (.unsupportedParameter predicate v)
    | some s => do
      let rest ← formals predicate vs
      .ok ((constantName v.name, s) :: rest)

/-- The definition of a predicate over the present ones. -/
def encode (ds : Definitions) (p : Predicate) : Except Defect Definition := do
  if ds.contains p.name then .error (.duplicate p.name)
  let fs ← formals p.name p.parameters
  let body ← expect p.body .bool (← p.body.encode ds)
  .ok ⟨body, fs⟩

/-- The definitions with one more predicate. -/
def define (ds : Definitions) (p : Predicate) : Except Defect Definitions := do
  let d ← ds.encode p
  .ok (ds.add p.name d)

end Definitions

end Discharge
