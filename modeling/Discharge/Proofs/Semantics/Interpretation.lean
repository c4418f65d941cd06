import Discharge.Proofs.Logic.Sorted
import Discharge.Proofs.Semantics.Meaning

/-!
# Interpretations of terms

An `Interpretation` assigns a value to every constant, a name together with a sort, and chooses the
results of divisions by zero, which the theories leave open. `Term.denote` is the value of a term
under an interpretation and values of its free bound numbers, the innermost first; `Term.Holds` is
the truth of a formula.

Main fact: a well-sorted term has a value of its sort (`Sorted.sort_denote`).
-/

namespace Discharge

noncomputable section

/-- Values of constants, and of divisions by zero. -/
structure Interpretation where
  const (name : String) (s : TermSort) : s.Carrier
  /-- The quotient of an integer by zero. -/
  quotientByZero : Int → Int
  /-- The remainder of an integer divided by zero. -/
  remainderByZero : Int → Int
  /-- The quotient of a real by zero. -/
  realQuotientByZero : ℝ → ℝ

namespace Interpretation

/-- The interpretation with another value of a constant. -/
def set (I : Interpretation) (name : String) (s : TermSort) (v : s.Carrier) : Interpretation :=
  { I with const := Function.update I.const name (Function.update (I.const name) s v) }

/-- The value of a constant. -/
def constant (I : Interpretation) (name : String) (s : TermSort) : Meaning :=
  .ofSort s (I.const name s)

/-- Integer division; the remainder that belongs to it is never negative. -/
def idiv (I : Interpretation) : Meaning → Meaning → Meaning
  | .int m, .int n => .int (if n = 0 then I.quotientByZero m else m / n)
  | _, _ => default

/-- The remainder of an integer division. -/
def mod (I : Interpretation) : Meaning → Meaning → Meaning
  | .int m, .int n => .int (if n = 0 then I.remainderByZero m else m % n)
  | _, _ => default

/-- Division of reals. -/
def rdiv (I : Interpretation) : Meaning → Meaning → Meaning
  | .real x, .real y => .real (if y = 0 then I.realQuotientByZero x else x / y)
  | _, _ => default

@[simp] theorem sort_constant (I : Interpretation) (name : String) (s : TermSort) :
    (I.constant name s).sort = s :=
  Meaning.sort_ofSort s _

@[simp] theorem constant_set_self (I : Interpretation) (name : String) (s : TermSort)
    (v : s.Carrier) : (I.set name s v).constant name s = .ofSort s v := by
  simp [constant, set]

/-- Giving a constant a value leaves those with another name or another sort. -/
theorem constant_set_of_ne (I : Interpretation) {name name' : String} {s s' : TermSort}
    (v : s.Carrier) (h : ¬ (name' = name ∧ s' = s)) :
    (I.set name s v).constant name' s' = I.constant name' s' := by
  by_cases hn : name' = name
  · subst hn
    have hs : s' ≠ s := fun e => h ⟨rfl, e⟩
    simp [constant, set, Function.update_of_ne hs]
  · simp [constant, set, Function.update_of_ne hn]

@[simp] theorem idiv_set (I : Interpretation) (name : String) (s : TermSort) (v : s.Carrier) :
    (I.set name s v).idiv = I.idiv := rfl
@[simp] theorem mod_set (I : Interpretation) (name : String) (s : TermSort) (v : s.Carrier) :
    (I.set name s v).mod = I.mod := rfl
@[simp] theorem rdiv_set (I : Interpretation) (name : String) (s : TermSort) (v : s.Carrier) :
    (I.set name s v).rdiv = I.rdiv := rfl

/-- A quotient with remainder is an integer. -/
theorem sort_idiv (I : Interpretation) {v w : Meaning} (hv : v.sort = .int) (hw : w.sort = .int) :
    (I.idiv v w).sort = .int := by
  obtain ⟨m, rfl⟩ := Meaning.exists_int hv
  obtain ⟨n, rfl⟩ := Meaning.exists_int hw
  rfl

/-- A remainder is an integer. -/
theorem sort_mod (I : Interpretation) {v w : Meaning} (hv : v.sort = .int) (hw : w.sort = .int) :
    (I.mod v w).sort = .int := by
  obtain ⟨m, rfl⟩ := Meaning.exists_int hv
  obtain ⟨n, rfl⟩ := Meaning.exists_int hw
  rfl

/-- A quotient of reals is a real. -/
theorem sort_rdiv (I : Interpretation) {v w : Meaning} (hv : v.sort = .real)
    (hw : w.sort = .real) : (I.rdiv v w).sort = .real := by
  obtain ⟨x, rfl⟩ := Meaning.exists_real hv
  obtain ⟨y, rfl⟩ := Meaning.exists_real hw
  rfl

end Interpretation

/-- The value of an operator's result. -/
def TermOp.denote (I : Interpretation) : TermOp → Meaning → Meaning → Meaning
  | .and => Meaning.connect And
  | .or => Meaning.connect Or
  | .implies => Meaning.connect fun p q => p → q
  | .eq => fun v w => .bool (v = w)
  | .lt => Meaning.compare (· < ·)
  | .le => Meaning.compare (· ≤ ·)
  | .gt => Meaning.compare (· > ·)
  | .ge => Meaning.compare (· ≥ ·)
  | .add => Meaning.arithmetic (· + ·) (· + ·)
  | .sub => Meaning.arithmetic (· - ·) (· - ·)
  | .mul => Meaning.arithmetic (· * ·) (· * ·)
  | .idiv => I.idiv
  | .mod => I.mod
  | .rdiv => I.rdiv
  | .select => Meaning.select

/-- That a property holds of all integers, or of some. -/
def Quantifier.over : Quantifier → (Int → Prop) → Prop
  | .all, p => ∀ n, p n
  | .ex, p => ∃ n, p n

/-- That a property holds of all lists, or of some, that begin with `k` more integers. -/
def Quantifier.overMany (kind : Quantifier) : Nat → (List Int → Prop) → List Int → Prop
  | 0, p, env => p env
  | k + 1, p, env => kind.over fun n => kind.overMany k p (n :: env)

namespace Term

/-- The value of a term. `env` holds the values of free bound numbers. -/
def denote (I : Interpretation) : Term → List Int → Meaning
  | .int n, _ => .int n
  | .real q, _ => .real q
  | .bool b, _ => .bool (b = true)
  | .const name s, _ => I.constant name s
  | .bound i, env => .int (env.getD i 0)
  | .neg a, env => (denote I a env).neg
  | .not a, env => (denote I a env).not
  | .toReal a, env => (denote I a env).widen
  | .app op a b, env => op.denote I (denote I a env) (denote I b env)
  | .store a i v, env => Meaning.store (denote I a env) (denote I i env) (denote I v env)
  | .quantified kind names body, env =>
    .bool (kind.overMany names.length (fun env => (denote I body env).truth) env)

/-- The truth of a formula without free bound numbers. -/
def Holds (I : Interpretation) (t : Term) : Prop := (t.denote I []).truth

/-! ## Sorts of values -/

section
variable {I : Interpretation} {op : TermOp} {v w : Meaning}

/-- What a connective denotes is a truth value. -/
theorem sort_denote_connective (ho : op.isConnective = true) : (op.denote I v w).sort = .bool := by
  cases op <;> first | rfl | cases ho

/-- What a comparison denotes is a truth value. -/
theorem sort_denote_comparison (ho : op.isComparison = true) : (op.denote I v w).sort = .bool := by
  cases op <;> first | rfl | cases ho

/-- A sum, difference or product of two numbers of one sort has that sort. -/
theorem sort_denote_ring (ho : op.isRing = true) (hs : v.sort = w.sort)
    (ha : v.sort.isArithmetic = true) : (op.denote I v w).sort = v.sort := by
  cases op <;> first | exact Meaning.sort_arithmetic hs ha | cases ho

/-- A division with remainder, or the remainder, is an integer. -/
theorem sort_denote_integral (ho : op.isIntegral = true) (hv : v.sort = .int)
    (hw : w.sort = .int) : (op.denote I v w).sort = .int := by
  cases op <;> first | exact I.sort_idiv hv hw | exact I.sort_mod hv hw | cases ho

end

/-- A well-sorted term has a value of its sort. -/
theorem Sorted.sort_denote {t : Term} {d : Nat} {s : TermSort} (h : Sorted d t s)
    (I : Interpretation) (env : List Int) : (t.denote I env).sort = s := by
  induction h generalizing env with
  | int | real | bool | bound | not | eq | quantified => rfl
  | const => exact I.sort_constant _ _
  | neg _ hs ih => exact (Meaning.sort_neg (by rw [ih]; exact hs)).trans (ih env)
  | toReal _ ih =>
    obtain ⟨n, hn⟩ := Meaning.exists_int (ih env)
    simp only [denote, hn]; rfl
  | connective ho => exact sort_denote_connective ho
  | comparison ho => exact sort_denote_comparison ho
  | ring ho hs _ _ iha ihb =>
    exact (sort_denote_ring ho ((iha env).trans (ihb env).symm) (by rw [iha]; exact hs)).trans
      (iha env)
  | integral ho _ _ iha ihb => exact sort_denote_integral ho (iha env) (ihb env)
  | rdiv _ _ iha ihb => exact I.sort_rdiv (iha env) (ihb env)
  | select _ _ iha ihi => exact Meaning.sort_select (iha env) (ihi env)
  | store _ _ _ iha ihi _ => exact Meaning.sort_store (iha env) (ihi env)

end Term

end

end Discharge
