import Discharge.Decision.Literal

/-!
# Laws of the theories

Formulas that hold always: of order and division, of products, of congruence, of reading from
updated arrays, and of quantifiers and their instances (`Law`). A `Witness` is a formula about one new
integer constant for which some value always makes it true: an instance of a quantifier, an index at
which two arrays differ, or the whole part of a real.
-/

namespace Discharge

namespace Term

/-- Puts a term without bound numbers in place of the bound number `index`, counted from outside the
quantifiers of this part. -/
def instantiate (t : Term) (index : Nat) : Term → Term
  | .int n => .int n
  | .real q => .real q
  | .bool b => .bool b
  | .const name s => .const name s
  | .bound i => if i = index then t else .bound i
  | .neg a => .neg (instantiate t index a)
  | .not a => .not (instantiate t index a)
  | .toReal a => .toReal (instantiate t index a)
  | .app op a b => .app op (instantiate t index a) (instantiate t index b)
  | .store a i v => .store (instantiate t index a) (instantiate t index i) (instantiate t index v)
  | .quantified kind names body => .quantified kind names (instantiate t (index + names.length) body)

/-- The body of a quantifier with a term in place of its first name; the other names stay bound. -/
def instanceOf? (t : Term) : Term → Option Term
  | .quantified _ [_] body => some (instantiate t 0 body)
  | .quantified kind (_ :: name :: names) body =>
    some (.quantified kind (name :: names) (instantiate t (names.length + 1) body))
  | _ => none

/-- The number zero of a sort. -/
def zeroOf (s : TermSort) : Term := if s = .real then .real 0 else .int 0

end Term

/-- Formulas that hold always. -/
inductive Law where
  /-- Two numbers are equal, or one is less. -/
  | trichotomy (a b : Term)
  /-- A square is not negative. -/
  | square (a : Term)
  /-- A product of nonnegative numbers is not negative. -/
  | product (a b : Term)
  /-- A product of positive numbers is positive. -/
  | positiveProduct (a b : Term)
  /-- A product with zero is zero. -/
  | zeroProduct (a b : Term)
  /-- Dividend, divisor, integer quotient and remainder. -/
  | division (a b : Term)
  /-- Dividend, divisor and real quotient. -/
  | quotient (a b : Term)
  /-- Equal operands give equal results. -/
  | congruence (op : TermOp) (a b c d : Term)
  /-- Reading from an updated array. -/
  | storeRead (array index value place : Term)
  /-- What holds of all holds of one, and what holds of one holds of some. The one is an integer without
  free bound numbers, which quantifiers in the body would capture. -/
  | instantiation (quantified t : Term)
deriving Inhabited

namespace Law

/-- The formula of the division law. A number as divisor is treated apart, since its sign is known. -/
def divisionFormula (a b : Term) : Term :=
  let q := Term.app .idiv a b
  let m := Term.app .mod a b
  let identity := Term.app .eq a (.app .add (.app .mul b q) m)
  match b.polynomial.constant? with
  | some c =>
    if c = 0 then .bool true
    else .app .and identity (.app .and (.app .le (.int 0) m) (.app .lt m (.int c.num.natAbs)))
  | none =>
    .app .or (.app .eq b (.int 0))
      (.app .and identity
        (.app .and (.app .le (.int 0) m) (.app .or (.app .lt m b) (.app .lt m (.neg b)))))

/-- The formula of a law. -/
def formula? : Law → Option Term
  | .trichotomy a b => some (.app .or (.app .eq a b) (.app .or (.app .lt a b) (.app .lt b a)))
  | .square a => some (.app .le (Term.zeroOf a.sortOf) (.app .mul a a))
  | .product a b =>
    let zero := Term.zeroOf a.sortOf
    some (.app .implies (.app .and (.app .le zero a) (.app .le zero b))
      (.app .le zero (.app .mul a b)))
  | .positiveProduct a b =>
    let zero := Term.zeroOf a.sortOf
    some (.app .implies (.app .and (.app .lt zero a) (.app .lt zero b))
      (.app .lt zero (.app .mul a b)))
  | .zeroProduct a b =>
    let zero := Term.zeroOf a.sortOf
    some (.app .implies (.app .eq a zero) (.app .eq (.app .mul a b) zero))
  | .division a b => some (divisionFormula a b)
  | .quotient a b =>
    some (.app .or (.app .eq b (.real 0)) (.app .eq a (.app .mul b (.app .rdiv a b))))
  | .congruence op a b c d =>
    some (.app .implies (.app .and (.app .eq a c) (.app .eq b d))
      (.app .eq (.app op a b) (.app op c d)))
  | .storeRead array index value place =>
    let read := Term.app .select (.store array index value) place
    some (.app .and (.app .implies (.app .eq index place) (.app .eq read value))
      (.app .or (.app .eq index place) (.app .eq read (.app .select array place))))
  | .instantiation quantified t =>
    if t.check? 0 = some .int then
      match quantified, Term.instanceOf? t quantified with
      | .quantified .all _ _, some f => some (.app .implies quantified f)
      | .quantified .ex _ _, some f => some (.app .implies f quantified)
      | _, _ => none
    else none

end Law

/-- Formulas about a new integer constant that some value of it makes true. -/
inductive Witness where
  /-- An instance of a quantifier that shows it true, or shows it false. -/
  | sample (quantified : Term)
  /-- An index at which two arrays differ, if they do. -/
  | difference (a b : Term)
  /-- The greatest integer that is not above a real. -/
  | floor (a : Term)
deriving Inhabited

namespace Witness

/-- The formula about the new constant `u`. -/
def formula? (u : Term) : Witness → Option Term
  | .sample quantified =>
    match quantified, Term.instanceOf? u quantified with
    | .quantified .ex _ _, some f => some (.app .implies quantified f)
    | .quantified .all _ _, some f => some (.app .or quantified (.not f))
    | _, _ => none
  | .difference a b =>
    some (.app .or (.app .eq a b) (.not (.app .eq (.app .select a u) (.app .select b u))))
  | .floor a =>
    some (.app .and (.app .le (.toReal u) a) (.app .lt a (.app .add (.toReal u) (.real 1))))

end Witness

end Discharge
