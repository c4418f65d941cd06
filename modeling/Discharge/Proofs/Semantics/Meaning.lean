import Mathlib.Data.Real.Basic
import Discharge.Logic.Term

/-!
# Values

What terms and expressions stand for: integers, reals, truth values, and total functions from the
integers to one of these. The operations on values are those of the standard theories; where the
sorts of the operands do not fit, the result is arbitrary.

Main facts: the sort of each operation's result (`sort_compare` and the like), and that widening an
integer beside a real leaves both numbers as they are (`number_widenBeside`).
-/

namespace Discharge

noncomputable section

/-- The values of a basic sort. -/
@[reducible] def BasicSort.Carrier : BasicSort → Type
  | .int => Int
  | .real => ℝ
  | .bool => Prop

/-- The values of a sort. -/
@[reducible] def TermSort.Carrier : TermSort → Type
  | .basic s => s.Carrier
  | .array s => Int → s.Carrier

/-- A value of a basic sort that stands for nothing. -/
def BasicSort.Carrier.arbitrary : (s : BasicSort) → s.Carrier
  | .int => (0 : Int)
  | .real => (0 : ℝ)
  | .bool => False

/-- Values of all sorts. -/
inductive Meaning where
  | int (n : Int)
  | real (x : ℝ)
  | bool (p : Prop)
  | array (s : BasicSort) (f : Int → s.Carrier)

namespace Meaning

instance : Inhabited Meaning := ⟨.int 0⟩

/-- A value of a basic sort. -/
def ofBasic : (s : BasicSort) → s.Carrier → Meaning
  | .int, n => .int n
  | .real, x => .real x
  | .bool, p => .bool p

/-- A value of a sort. -/
def ofSort : (s : TermSort) → s.Carrier → Meaning
  | .basic s, v => ofBasic s v
  | .array s, f => .array s f

/-- The sort of a value. -/
def sort : Meaning → TermSort
  | .int _ => .int
  | .real _ => .real
  | .bool _ => .bool
  | .array s _ => .array s

/-- The value as one of a basic sort; integers widen to reals. -/
def toBasic : (s : BasicSort) → Meaning → s.Carrier
  | .int, .int n => n
  | .real, .int n => (n : ℝ)
  | .real, .real x => x
  | .bool, .bool p => p
  | s, _ => .arbitrary s

/-- The truth of a truth value. -/
def truth : Meaning → Prop
  | .bool p => p
  | _ => False

/-- The number that an integer or a real is. -/
def number : Meaning → ℝ
  | .int n => n
  | .real x => x
  | _ => 0

/-- The integer widened to a real; other values are left. -/
def widen : Meaning → Meaning
  | .int n => .real n
  | v => v

/-- The first of two values, widened if it is an integer beside a real. -/
def widenBeside (v w : Meaning) : Meaning := if w.sort = .real then v.widen else v

/-- Negation of a number. -/
def neg : Meaning → Meaning
  | .int n => .int (-n)
  | .real x => .real (-x)
  | _ => default

/-- Negation of a truth value. -/
def not (v : Meaning) : Meaning := .bool (¬ v.truth)

/-- A connective of truth values. -/
def connect (c : Prop → Prop → Prop) (v w : Meaning) : Meaning := .bool (c v.truth w.truth)

/-- An operation on two integers or two reals. -/
def arithmetic (onInt : Int → Int → Int) (onReal : ℝ → ℝ → ℝ) : Meaning → Meaning → Meaning
  | .int m, .int n => .int (onInt m n)
  | .real x, .real y => .real (onReal x y)
  | _, _ => default

/-- A comparison of two numbers. -/
def compare (c : ℝ → ℝ → Prop) (v w : Meaning) : Meaning := .bool (c v.number w.number)

/-- The value that an array has at an index. -/
def select : Meaning → Meaning → Meaning
  | .array s f, .int i => ofBasic s (f i)
  | _, _ => default

/-- The array with another value at an index. -/
def store : Meaning → Meaning → Meaning → Meaning
  | .array s f, .int i, v => .array s (Function.update f i (v.toBasic s))
  | _, _, _ => default

@[simp] theorem sort_int (n : Int) : (Meaning.int n).sort = .int := rfl
@[simp] theorem sort_real (x : ℝ) : (Meaning.real x).sort = .real := rfl
@[simp] theorem sort_bool (p : Prop) : (Meaning.bool p).sort = .bool := rfl
@[simp] theorem sort_array (s : BasicSort) (f : Int → s.Carrier) :
    (Meaning.array s f).sort = .array s := rfl

@[simp] theorem truth_bool (p : Prop) : (Meaning.bool p).truth = p := rfl
@[simp] theorem number_int (n : Int) : (Meaning.int n).number = n := rfl
@[simp] theorem number_real (x : ℝ) : (Meaning.real x).number = x := rfl

@[simp] theorem sort_ofBasic (s : BasicSort) (v : s.Carrier) : (ofBasic s v).sort = .basic s := by
  cases s <;> rfl

@[simp] theorem sort_ofSort (s : TermSort) (v : s.Carrier) : (ofSort s v).sort = s := by
  cases s with
  | basic s => exact sort_ofBasic s v
  | array s => rfl

@[simp] theorem toBasic_ofBasic (s : BasicSort) (v : s.Carrier) : (ofBasic s v).toBasic s = v := by
  cases s <;> rfl

/-- Values of one basic sort are told apart. -/
theorem ofBasic_inj {s : BasicSort} {v w : s.Carrier} : ofBasic s v = ofBasic s w ↔ v = w :=
  ⟨fun h => by rw [← toBasic_ofBasic s v, h, toBasic_ofBasic], fun h => h ▸ rfl⟩

/-- A value of a basic sort is what it is as one of that sort. -/
theorem ofBasic_toBasic {s : BasicSort} {v : Meaning} (h : v.sort = .basic s) :
    ofBasic s (v.toBasic s) = v := by
  cases v <;> cases s <;> first | rfl | cases h

/-- A value of the sort of integers is an integer. -/
theorem exists_int {v : Meaning} (h : v.sort = .int) : ∃ n, v = .int n := by
  cases v with
  | int n => exact ⟨n, rfl⟩
  | real | bool | array => cases h

/-- A value of the sort of reals is a real. -/
theorem exists_real {v : Meaning} (h : v.sort = .real) : ∃ x, v = .real x := by
  cases v with
  | real x => exact ⟨x, rfl⟩
  | int | bool | array => cases h

/-- A value of the sort of truth values is a truth value. -/
theorem exists_bool {v : Meaning} (h : v.sort = .bool) : ∃ p, v = .bool p := by
  cases v with
  | bool p => exact ⟨p, rfl⟩
  | int | real | array => cases h

/-- A value of the sort of arrays is an array. -/
theorem exists_array {v : Meaning} {s : BasicSort} (h : v.sort = .array s) :
    ∃ f, v = .array s f := by
  cases v with
  | array s' f => cases h; exact ⟨f, rfl⟩
  | int | real | bool => cases h

/-- A number is an integer or a real. -/
theorem exists_number {v : Meaning} (h : v.sort.isArithmetic = true) :
    (∃ n, v = .int n) ∨ ∃ x, v = .real x := by
  cases v with
  | int n => exact .inl ⟨n, rfl⟩
  | real x => exact .inr ⟨x, rfl⟩
  | bool | array => cases h

/-- Numbers of one sort are told apart by what they are. -/
theorem number_inj {v w : Meaning} (hs : v.sort = w.sort) (ha : v.sort.isArithmetic = true) :
    v.number = w.number ↔ v = w := by
  rcases exists_number ha with ⟨m, rfl⟩ | ⟨x, rfl⟩
  · obtain ⟨n, rfl⟩ := exists_int hs.symm
    simp
  · obtain ⟨y, rfl⟩ := exists_real hs.symm
    simp

/-- Truth values are told apart by their truth. -/
theorem truth_inj {v w : Meaning} (hv : v.sort = .bool) (hw : w.sort = .bool) :
    v = w ↔ (v.truth ↔ w.truth) := by
  obtain ⟨p, rfl⟩ := exists_bool hv
  obtain ⟨q, rfl⟩ := exists_bool hw
  simp

@[simp] theorem sort_not (v : Meaning) : v.not.sort = .bool := rfl
@[simp] theorem sort_connect (c : Prop → Prop → Prop) (v w : Meaning) :
    (connect c v w).sort = .bool := rfl
@[simp] theorem sort_compare (c : ℝ → ℝ → Prop) (v w : Meaning) :
    (compare c v w).sort = .bool := rfl
@[simp] theorem truth_not (v : Meaning) : v.not.truth = ¬ v.truth := rfl
@[simp] theorem truth_connect (c : Prop → Prop → Prop) (v w : Meaning) :
    (connect c v w).truth = c v.truth w.truth := rfl
@[simp] theorem truth_compare (c : ℝ → ℝ → Prop) (v w : Meaning) :
    (compare c v w).truth = c v.number w.number := rfl

/-- The negative of a number has its sort. -/
theorem sort_neg {v : Meaning} (h : v.sort.isArithmetic = true) : v.neg.sort = v.sort := by
  rcases exists_number h with ⟨n, rfl⟩ | ⟨x, rfl⟩ <;> rfl

/-- The negative of a value is the negative as a number. -/
theorem number_neg (v : Meaning) : v.neg.number = -v.number := by
  cases v <;> simp [neg, number, default]

/-- An operation on two numbers of one sort gives a number of that sort. -/
theorem sort_arithmetic {onInt : Int → Int → Int} {onReal : ℝ → ℝ → ℝ} {v w : Meaning}
    (hs : v.sort = w.sort) (ha : v.sort.isArithmetic = true) :
    (arithmetic onInt onReal v w).sort = v.sort := by
  rcases exists_number ha with ⟨m, rfl⟩ | ⟨x, rfl⟩
  · obtain ⟨n, rfl⟩ := exists_int hs.symm; rfl
  · obtain ⟨y, rfl⟩ := exists_real hs.symm; rfl

/-- An operation on integers that agrees with one on reals acts on the numbers. -/
theorem number_arithmetic {onInt : Int → Int → Int} {onReal : ℝ → ℝ → ℝ}
    (hc : ∀ m n : Int, ((onInt m n : Int) : ℝ) = onReal m n) {v w : Meaning}
    (hs : v.sort = w.sort) (ha : v.sort.isArithmetic = true) :
    (arithmetic onInt onReal v w).number = onReal v.number w.number := by
  rcases exists_number ha with ⟨m, rfl⟩ | ⟨x, rfl⟩
  · obtain ⟨n, rfl⟩ := exists_int hs.symm; exact hc m n
  · obtain ⟨y, rfl⟩ := exists_real hs.symm; rfl

@[simp] theorem number_widen (v : Meaning) : v.widen.number = v.number := by
  cases v <;> rfl

@[simp] theorem number_widenBeside (v w : Meaning) : (v.widenBeside w).number = v.number := by
  unfold widenBeside; split
  · exact number_widen v
  · rfl

/-- The value that an array has at an integer is of the sort of the elements. -/
theorem sort_select {v w : Meaning} {s : BasicSort} (hv : v.sort = .array s) (hw : w.sort = .int) :
    (select v w).sort = .basic s := by
  obtain ⟨f, rfl⟩ := exists_array hv
  obtain ⟨i, rfl⟩ := exists_int hw
  exact sort_ofBasic s (f i)

/-- The array with another value at an integer is of the same sort. -/
theorem sort_store {v w u : Meaning} {s : BasicSort} (hv : v.sort = .array s) (hw : w.sort = .int) :
    (store v w u).sort = .array s := by
  obtain ⟨f, rfl⟩ := exists_array hv
  obtain ⟨i, rfl⟩ := exists_int hw
  rfl

end Meaning

end

end Discharge
