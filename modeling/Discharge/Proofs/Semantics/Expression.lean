import Discharge.Encoding.Encoder
import Discharge.Proofs.Semantics.Substitution

/-!
# The meaning of expressions

`Exp.meaning` is the value of an expression under an interpretation of constants, by recursion on
the expression and without terms. Operands of different arithmetic sorts are widened, and so are
values stored in an array of reals and arguments of a real parameter. A quantifier lets the integer
constants of its names vary. A call holds if the predicate's body does, once the parameters'
constants have the values of the arguments; all other constants of the body keep the values they
have at the call.

What predicates mean is read off the predicates themselves (`PredicateMeaning.table`): the body of
each is an expression over the predicates that were defined before it.
-/

namespace Discharge

noncomputable section

/-- What a predicate means: the constants of its parameters, and under which interpretations its
body holds. -/
structure PredicateMeaning where
  formals : List (String × BasicSort)
  holds : Interpretation → Prop

/-- The value of a variable is that of its constant. -/
def Variable.meaning (I : Interpretation) (v : Variable) : Meaning :=
  match v.type.sort? with
  | .ok s => I.constant (constantName v.name) s
  | .error _ => default

/-- The quotient of two numbers: that of integers if both are, else that of reals. -/
def Interpretation.quotient (I : Interpretation) (v w : Meaning) : Meaning :=
  if v.sort = .int ∧ w.sort = .int then I.idiv v w else I.rdiv v.widen w.widen

/-- Equality of values; an integer and a real are compared as reals. -/
def Meaning.alike (v w : Meaning) : Prop := v.widenBeside w = w.widenBeside v

/-- An operation on two numbers; an integer beside a real is widened. -/
def Meaning.widened (onInt : Int → Int → Int) (onReal : ℝ → ℝ → ℝ) (v w : Meaning) : Meaning :=
  arithmetic onInt onReal (v.widenBeside w) (w.widenBeside v)

/-- The value of a binary operator's result. -/
def BinOp.meaning (I : Interpretation) : BinOp → Meaning → Meaning → Meaning
  | .mul => Meaning.widened (· * ·) (· * ·)
  | .div => I.quotient
  | .floatDiv => I.quotient
  | .mod => I.mod
  | .add => Meaning.widened (· + ·) (· + ·)
  | .sub => Meaning.widened (· - ·) (· - ·)
  | .lt => Meaning.compare (· < ·)
  | .le => Meaning.compare (· ≤ ·)
  | .gt => Meaning.compare (· > ·)
  | .ge => Meaning.compare (· ≥ ·)
  | .eq => fun v w => .bool (v.alike w)
  | .ne => fun v w => .bool (¬ v.alike w)
  | .and => Meaning.connect And
  | .or => Meaning.connect Or
  | .implies => Meaning.connect fun p q => p → q
  | .iff => Meaning.connect Iff
  | .unknown => default

namespace Exp

mutual

/-- The value of an expression. What has no value, such as a call of an undefined predicate, has an
arbitrary one. -/
def meaning (P : String → Option PredicateMeaning) : Exp → Interpretation → Meaning
  | .var v, I => v.meaning I
  | .int n, _ => .int n
  | .float x, _ =>
    match x.decimalValue? with
    | some q => .real q
    | none => default
  | .bool b, _ => .bool (b = true)
  | .call name _ _ args, I =>
    match P name with
    | some p => .bool (p.holds (I.bind (p.formals.zip (meanings P args I))))
    | none => default
  | .sub array index, I => Meaning.select (meaning P array I) (meaning P index I)
  | .upd array index value _, I =>
    Meaning.store (meaning P array I) (meaning P index I) (meaning P value I)
  | .not arg, I => (meaning P arg I).not
  | .neg arg, I => (meaning P arg I).neg
  | .bin op left right, I => op.meaning I (meaning P left I) (meaning P right I)
  | .quantified kind names body, I =>
    .bool (kind.overNames (names.map constantName) (fun J => (meaning P body J).truth) I)
  | .len arg, I =>
    match arg.length? with
    | some v => I.constant (constantName v.name) .int
    | none => default
  | .bare, _ => default

/-- The values of a call's arguments. -/
def meanings (P : String → Option PredicateMeaning) : List Exp → Interpretation → List Meaning
  | [], _ => []
  | arg :: args, I => meaning P arg I :: meanings P args I

end

end Exp

/-- The constant of a parameter, which is atomic. -/
def Variable.formal? (v : Variable) : Option (String × BasicSort) :=
  v.type.basicSort?.map fun s => (constantName v.name, s)

/-- What predicates mean that are defined one after the other, here with the latest first. A body
may call only predicates defined before. -/
def PredicateMeaning.table : List Predicate → String → Option PredicateMeaning
  | [], _ => none
  | p :: ps, name =>
    if p.name = name then
      some ⟨p.parameters.filterMap Variable.formal?, fun I => (p.body.meaning (table ps) I).truth⟩
    else table ps name

end

end Discharge
