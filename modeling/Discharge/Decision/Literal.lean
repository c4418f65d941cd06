import Discharge.Logic.Term
import Std.Data.TreeMap
import Discharge.Decision.Polynomial

/-!
# Literals

An atomic formula or its negation says something of a polynomial: that it is positive, nonnegative or
zero. `Term.constraint?` gives this constraint; between integers a strict comparison is sharpened by
one. `Term.truth` evaluates a formula as far as assumptions decide it, and `Term.partsTruth` without
looking at whether the formula itself is assumed.
-/

namespace Discharge

/-! ## Assumptions

The formulas that an argument may use, as a list that is also kept by hash values, so that it is found
out quickly whether a formula is among them.
-/

/-- A collection of formulas. -/
structure Assumptions where
  formulas : List Term
  buckets : Std.TreeMap UInt64 (List Term)
  mem_formulas : ∀ (k : UInt64) (ts : List Term) (t : Term),
    buckets[k]? = some ts → t ∈ ts → t ∈ formulas

namespace Assumptions

/-- No formulas. -/
def empty : Assumptions where
  formulas := []
  buckets := ∅
  mem_formulas := by simp

/-- The formulas and one more. -/
def insert (a : Assumptions) (t : Term) : Assumptions where
  formulas := t :: a.formulas
  buckets := a.buckets.insert (hash t) (t :: (a.buckets[hash t]?).getD [])
  mem_formulas := by
    intro k ts u hk hu
    rw [Std.TreeMap.getElem?_insert] at hk
    split at hk
    · obtain rfl := Option.some.inj hk
      rcases List.mem_cons.1 hu with rfl | hu
      · exact List.mem_cons_self
      · cases hb : a.buckets[hash t]? with
        | none => simp [hb] at hu
        | some ts =>
          rw [hb] at hu
          exact List.mem_cons_of_mem _ (a.mem_formulas _ _ _ hb hu)
    · exact List.mem_cons_of_mem _ (a.mem_formulas _ _ _ hk hu)

/-- The formulas of a list. -/
def ofList (ts : List Term) : Assumptions := ts.foldl insert empty

/-- The formulas and those of a list. -/
def insertAll (a : Assumptions) (ts : List Term) : Assumptions := ts.foldl insert a

/-- Whether a formula is one of the collection. -/
def contains (a : Assumptions) (t : Term) : Bool :=
  match a.buckets[hash t]? with
  | some ts => ts.contains t
  | none => false

/-- What is found has been put in. -/
theorem mem_of_contains {a : Assumptions} {t : Term} (h : a.contains t = true) :
    t ∈ a.formulas := by
  unfold contains at h
  split at h
  · next ts hts => exact a.mem_formulas _ _ _ hts (by simpa using h)
  · exact absurd h (by simp)

/-- The truth that membership gives to a formula. -/
def truth (a : Assumptions) (t : Term) : Option Bool :=
  if a.contains t then some true else if a.contains (.not t) then some false else none

end Assumptions

/-! ## Constraints and truth -/

/-- What is said of a polynomial. -/
inductive Relation where
  | positive
  | nonneg
  | zero
deriving DecidableEq

/-- A polynomial and what is said of it. -/
structure Constraint where
  poly : Polynomial
  relation : Relation

namespace Constraint

/-- `a < b`, or `a ≤ b` if not strict, between terms of an arithmetic sort. -/
def less (isInt strict : Bool) (a b : Term) : Constraint :=
  let difference := b.polynomial.sub a.polynomial
  if strict then
    if isInt then ⟨difference.sub (.const 1), .nonneg⟩ else ⟨difference, .positive⟩
  else ⟨difference, .nonneg⟩

/-- What a comparison says, or its negation. -/
def ofComparison? (op : TermOp) (a b : Term) (holds : Bool) : Option Constraint :=
  if a.sortOf.isArithmetic then
    let isInt := a.sortOf = .int
    match op, holds with
    | .lt, true => some (less isInt true a b)
    | .lt, false => some (less isInt false b a)
    | .le, true => some (less isInt false a b)
    | .le, false => some (less isInt true b a)
    | .gt, true => some (less isInt true b a)
    | .gt, false => some (less isInt false a b)
    | .ge, true => some (less isInt false b a)
    | .ge, false => some (less isInt true a b)
    | .eq, true => some ⟨a.polynomial.sub b.polynomial, .zero⟩
    | _, _ => none
  else none

end Constraint

namespace Term

/-- The constraint that a literal states, if it states one. -/
def constraint? : Term → Option Constraint
  | .app op a b => Constraint.ofComparison? op a b true
  | .not (.app op a b) => Constraint.ofComparison? op a b false
  | _ => none

/-- Whether a comparison holds of a difference of its sides. -/
def compareZero? (op : TermOp) (difference : Rat) : Option Bool :=
  match op with
  | .lt => some (decide (difference < 0))
  | .le => some (decide (difference ≤ 0))
  | .gt => some (decide (0 < difference))
  | .ge => some (decide (0 ≤ difference))
  | .eq => some (decide (difference = 0))
  | _ => none

/-- The truth of an atomic formula that needs no assumption: an equality of a term with itself, or a
comparison of terms whose difference is a number. -/
def plainTruth : Term → Option Bool
  | .app op a b =>
    if op = .eq && a = b then some true
    else if a.sortOf.isArithmetic then
      match (a.polynomial.sub b.polynomial).constant? with
      | some d => compareZero? op d
      | none => none
    else none
  | _ => none

/-- Conjunction of partly known truths. -/
def andTruth : Option Bool → Option Bool → Option Bool
  | some false, _ => some false
  | _, some false => some false
  | some true, some true => some true
  | _, _ => none

/-- Disjunction of partly known truths. -/
def orTruth : Option Bool → Option Bool → Option Bool
  | some true, _ => some true
  | _, some true => some true
  | some false, some false => some false
  | _, _ => none

/-- Equivalence of partly known truths. -/
def iffTruth : Option Bool → Option Bool → Option Bool
  | some a, some b => some (a == b)
  | _, _ => none

/-- The truth of an atomic formula under assumptions. -/
def atomTruth (assumed : Assumptions) (t : Term) : Option Bool :=
  match t.plainTruth with
  | some b => some b
  | none => assumed.truth t

/-- The truth of a formula, as far as assumptions decide it: because it or its negation is assumed, else by
the truth of its parts. -/
def truth (assumed : Assumptions) : Term → Option Bool
  | .bool b => some b
  | .not a => (truth assumed a).map (!·)
  | .app .and a b =>
    (assumed.truth (.app .and a b)).or (andTruth (truth assumed a) (truth assumed b))
  | .app .or a b =>
    (assumed.truth (.app .or a b)).or (orTruth (truth assumed a) (truth assumed b))
  | .app .implies a b =>
    (assumed.truth (.app .implies a b)).or
      (orTruth ((truth assumed a).map (!·)) (truth assumed b))
  | .app .eq a b =>
    if a.sortOf = .bool then
      (assumed.truth (.app .eq a b)).or (iffTruth (truth assumed a) (truth assumed b))
    else atomTruth assumed (.app .eq a b)
  | t => atomTruth assumed t

/-- The truth of a formula by the truth of its parts alone. -/
def partsTruth (assumed : Assumptions) : Term → Option Bool
  | .bool b => some b
  | .not (.not a) => truth assumed a
  | .not a => (partsTruth assumed a).map (!·)
  | .app .and a b => andTruth (truth assumed a) (truth assumed b)
  | .app .or a b => orTruth (truth assumed a) (truth assumed b)
  | .app .implies a b => orTruth ((truth assumed a).map (!·)) (truth assumed b)
  | .app .eq a b =>
    if a.sortOf = .bool then iffTruth (truth assumed a) (truth assumed b)
    else (Term.app .eq a b).plainTruth
  | t => t.plainTruth

end Term

end Discharge
