import Discharge.Expr.Basic
import Discharge.Syntax.Token
import Discharge.Number.Decimal

/-!
# Reading syntax trees

`Tree.ofTokens?` reads a whole list of tokens as one formula. Binary operators have eight levels,
from `*` at level 1 to `<=>` at level 8; all group to the left but `=>`, which groups to the right.
A quantifier may stand as any operand and takes everything to its right.

An operator that no operand follows is not taken; the formula then ends before it. An integer with
too many digits is refused where it is read, whatever comes later.
-/

namespace Discharge

/-! ## Syntax trees

What a formula says before its names are looked up: names are strings, and division is not yet
divided into integer and real division.
-/

/-- Syntax trees of formulas. -/
inductive Tree where
  | int (n : Nat)
  | float (x : Binary64)
  | truth (b : Bool)
  | name (name : String)
  | call (name : String) (args : List Tree)
  | sub (array index : Tree)
  | upd (array index value : Tree)
  | len (arg : Tree)
  | not (arg : Tree)
  | neg (arg : Tree)
  | bin (op : BinOp) (left right : Tree)
  | quantified (kind : Quantifier) (names : List String) (body : Tree)
deriving Inhabited

/-! ## Readers of the strata -/

/-- Why a text is no formula. -/
inductive SyntaxError where
  | malformed
  | integerTooLong
deriving DecidableEq

/-- The level at which an operator is read, tightest first. -/
def BinOp.level? : BinOp → Option Nat
  | .mul => some 1
  | .div => some 1
  | .mod => some 1
  | .add => some 2
  | .sub => some 2
  | .le => some 3
  | .ge => some 3
  | .lt => some 3
  | .gt => some 3
  | .eq => some 4
  | .ne => some 4
  | .and => some 5
  | .or => some 6
  | .implies => some 7
  | .iff => some 8
  | .floatDiv => none
  | .unknown => none

/-- The level of the right operand of an operator of level `k`: one tighter, except that `=>` takes a
whole implication. -/
def operandLevel (k : Nat) : Nat := if k = 7 then 7 else k - 1

/-- The loosest level. -/
def loosest : Nat := 8

namespace Tree

/-- What is read at the front of `ts`, with the shorter rest. -/
abbrev Read (α : Type) (ts : List Token) :=
  Except SyntaxError (α × { r : List Token // r.length < ts.length })

/-- What is read at the front of `ts`, perhaps from no token, with the rest. -/
abbrev ReadMore (α : Type) (ts : List Token) :=
  Except SyntaxError (α × { r : List Token // r.length ≤ ts.length })

/-- A number's tree. -/
def ofDigits (digits : List Char) : Except SyntaxError Tree :=
  if digits.length ≤ integerDigitLimit then
    .ok (.int (Decimal.ofDigitValues (digits.map fun c => c.toNat - '0'.toNat)))
  else .error .integerTooLong

/-- The double that digits around a point spell. -/
def ofPoint (whole fraction : List Nat) : Tree :=
  .float (Binary64.ofDecimal false (Decimal.ofParts whole fraction))

/-- The names of a quantifier, separated by commas. A comma that no name follows is not taken. -/
def readNames : (ts : List Token) → Option (List String × { r : List Token // r.length < ts.length })
  | .word n :: .comma :: ts =>
    match readNames ts with
    | some (ns, ⟨r, h⟩) => some (n :: ns, ⟨r, by simp only [List.length_cons]; omega⟩)
    | none => some ([n], ⟨.comma :: ts, by simp⟩)
  | .word n :: ts => some ([n], ⟨ts, by simp⟩)
  | _ => none

mutual

/-- Reads an expression of level `k`; level 0 is an operand. -/
def readLevel (k : Nat) (ts : List Token) : Read Tree ts :=
  match k with
  | 0 => readOperand ts
  | k + 1 =>
    match readLevel k ts with
    | .error e => .error e
    | .ok (left, ⟨r, h⟩) =>
      match readOperators (k + 1) left r with
      | .error e => .error e
      | .ok (t, ⟨r', h'⟩) => .ok (t, ⟨r', Nat.lt_of_le_of_lt h' h⟩)
termination_by (ts.length, k + 3)

/-- Reads operators of level `k` with their right operands, after a left operand. -/
def readOperators (k : Nat) (left : Tree) (ts : List Token) : ReadMore Tree ts :=
  match ts with
  | .op o :: r =>
    if o.level? = some k then
      match readLevel (operandLevel k) r with
      | .error .integerTooLong => .error .integerTooLong
      | .error .malformed => .ok (left, ⟨.op o :: r, Nat.le_refl _⟩)
      | .ok (right, ⟨r', h⟩) =>
        match readOperators k (.bin o left right) r' with
        | .error e => .error e
        | .ok (t, ⟨r'', h'⟩) =>
          .ok (t, ⟨r'', by simp only [List.length_cons]; omega⟩)
    else .ok (left, ⟨.op o :: r, Nat.le_refl _⟩)
  | ts => .ok (left, ⟨ts, Nat.le_refl _⟩)
termination_by (ts.length, 0)

/-- Reads an operand: signs `!` and `-`, then a quantifier or an atom with its subscripts. -/
def readOperand (ts : List Token) : Read Tree ts :=
  match ts with
  | .bang :: r =>
    match readOperand r with
    | .error e => .error e
    | .ok (t, ⟨r', h⟩) => .ok (.not t, ⟨r', by simp only [List.length_cons]; omega⟩)
  | .op .sub :: r =>
    match readOperand r with
    | .error e => .error e
    | .ok (t, ⟨r', h⟩) => .ok (.neg t, ⟨r', by simp only [List.length_cons]; omega⟩)
  | .sign kind :: r =>
    match readNames r with
    | some (names, ⟨.dot :: r', h⟩) =>
      have hr : r'.length < r.length := by simp only [List.length_cons] at h; omega
      match readLevel loosest r' with
      | .error e => .error e
      | .ok (body, ⟨r'', h'⟩) =>
        .ok (.quantified kind names body,
          ⟨r'', by simp only [List.length_cons] at h ⊢; omega⟩)
    | _ => .error .malformed
  | ts =>
    match readAtom ts with
    | .error e => .error e
    | .ok (t, ⟨r, h⟩) =>
      match readSubscripts t r with
      | .error e => .error e
      | .ok (t', ⟨r', h'⟩) => .ok (t', ⟨r', Nat.lt_of_le_of_lt h' h⟩)
termination_by (ts.length, 2)

/-- Reads a literal, a length, a call, a name, or an expression in parentheses. A name whose
arguments cannot be read is a name alone. -/
def readAtom (ts : List Token) : Read Tree ts :=
  match ts with
  | .float whole fraction :: r => .ok (ofPoint whole fraction, ⟨r, by simp⟩)
  | .int digits :: r =>
    match ofDigits digits with
    | .error e => .error e
    | .ok t => .ok (t, ⟨r, by simp⟩)
  | .truth b :: r => .ok (.truth b, ⟨r, by simp⟩)
  | .length :: .lparen :: r =>
    match readLevel loosest r with
    | .error e => .error e
    | .ok (t, ⟨.rparen :: r', h⟩) =>
      .ok (.len t, ⟨r', by simp only [List.length_cons] at h ⊢; omega⟩)
    | .ok _ => .error .malformed
  | .word n :: .lparen :: r =>
    match readArguments r with
    | .error .integerTooLong => .error .integerTooLong
    | .ok (args, ⟨.rparen :: r', h⟩) =>
      .ok (.call n args, ⟨r', by simp only [List.length_cons] at h ⊢; omega⟩)
    | _ => .ok (.name n, ⟨.lparen :: r, by simp⟩)
  | .word n :: r => .ok (.name n, ⟨r, by simp⟩)
  | .lparen :: r =>
    match readLevel loosest r with
    | .error e => .error e
    | .ok (t, ⟨.rparen :: r', h⟩) => .ok (t, ⟨r', by simp only [List.length_cons] at h ⊢; omega⟩)
    | .ok _ => .error .malformed
  | _ => .error .malformed
termination_by (ts.length, 1)

/-- Reads subscripts and updates after an array. A bracket that begins neither is not taken. -/
def readSubscripts (array : Tree) (ts : List Token) : ReadMore Tree ts :=
  match ts with
  | .lbracket :: r =>
    match readLevel loosest r with
    | .error .integerTooLong => .error .integerTooLong
    | .error .malformed => .ok (array, ⟨.lbracket :: r, Nat.le_refl _⟩)
    | .ok (index, ⟨.rbracket :: r', h⟩) =>
      have hr : r'.length < r.length := by simp only [List.length_cons] at h; omega
      match readSubscripts (.sub array index) r' with
      | .error e => .error e
      | .ok (t, ⟨r'', h'⟩) =>
        .ok (t, ⟨r'', by simp only [List.length_cons] at h ⊢; omega⟩)
    | .ok (index, ⟨.assign :: r', h⟩) =>
      have hr : r'.length < r.length := by simp only [List.length_cons] at h; omega
      match readLevel loosest r' with
      | .error .integerTooLong => .error .integerTooLong
      | .ok (value, ⟨.rbracket :: r'', h'⟩) =>
        have hr' : r''.length < r'.length := by simp only [List.length_cons] at h'; omega
        match readSubscripts (.upd array index value) r'' with
        | .error e => .error e
        | .ok (t, ⟨last, h''⟩) =>
          .ok (t, ⟨last, by simp only [List.length_cons] at h h' ⊢; omega⟩)
      | _ => .ok (array, ⟨.lbracket :: r, Nat.le_refl _⟩)
    | .ok _ => .ok (array, ⟨.lbracket :: r, Nat.le_refl _⟩)
  | ts => .ok (array, ⟨ts, Nat.le_refl _⟩)
termination_by (ts.length, 0)

/-- Reads the arguments of a call, perhaps none. -/
def readArguments (ts : List Token) : ReadMore (List Tree) ts :=
  match readLevel loosest ts with
  | .error .integerTooLong => .error .integerTooLong
  | .error .malformed => .ok ([], ⟨ts, Nat.le_refl _⟩)
  | .ok (t, ⟨r, h⟩) =>
    match readFurther r with
    | .error e => .error e
    | .ok (args, ⟨r', h'⟩) => .ok (t :: args, ⟨r', by omega⟩)
termination_by (ts.length, loosest + 4)

/-- Reads further arguments, each after a comma. A comma that no argument follows is not taken. -/
def readFurther (ts : List Token) : ReadMore (List Tree) ts :=
  match ts with
  | .comma :: r =>
    match readLevel loosest r with
    | .error .integerTooLong => .error .integerTooLong
    | .error .malformed => .ok ([], ⟨.comma :: r, Nat.le_refl _⟩)
    | .ok (t, ⟨r', h⟩) =>
      match readFurther r' with
      | .error e => .error e
      | .ok (args, ⟨r'', h'⟩) =>
        .ok (t :: args, ⟨r'', by simp only [List.length_cons]; omega⟩)
  | ts => .ok ([], ⟨ts, Nat.le_refl _⟩)
termination_by (ts.length, 0)

end

/-- The tree of a whole formula. -/
def ofTokens? (ts : List Token) : Except SyntaxError Tree :=
  match readLevel loosest ts with
  | .error e => .error e
  | .ok (t, ⟨[], _⟩) => .ok t
  | .ok _ => .error .malformed

/-- The tree of a formula's text. -/
def ofText? (text : String) : Except SyntaxError Tree := ofTokens? (Token.scan text)

end Tree

end Discharge
