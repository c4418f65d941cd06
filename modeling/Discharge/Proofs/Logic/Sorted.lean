import Discharge.Logic.Term

/-!
# Well-sorted terms

`Term.Sorted depth t s` says that `t` is built by the rules of the theories, has the sort `s`, and
that its bound numbers without a quantifier of their own are below `depth`. `check?_eq_some_iff`
says that `Term.check?` decides it, and `Sorted.sortOf_eq` that `Term.sortOf` gives the sort.

The rest says which operations keep terms well sorted: binding constants (`Sorted.quantify`),
putting terms in place of constants (`Sorted.substitute`), and the operators that widen their
operands.
-/

namespace Discharge

/-- The sort that two arithmetic sorts widen to. -/
def TermSort.widest (s t : TermSort) : TermSort := if s = .real then .real else t

/-- The arithmetic sorts are those of integers and of reals. -/
theorem TermSort.isArithmetic_iff {s : TermSort} :
    s.isArithmetic = true ↔ s = .int ∨ s = .real := by
  rcases s with (_ | _ | _) | _ <;> simp [isArithmetic]

namespace TermOp

/-- The connectives of formulas other than equality. -/
def isConnective : TermOp → Bool
  | .and => true
  | .or => true
  | .implies => true
  | _ => false

/-- The comparisons of numbers other than equality. -/
def isComparison : TermOp → Bool
  | .lt => true
  | .le => true
  | .gt => true
  | .ge => true
  | _ => false

/-- The operators that take and give numbers of one sort. -/
def isRing : TermOp → Bool
  | .add => true
  | .sub => true
  | .mul => true
  | _ => false

/-- Integer division and remainder. -/
def isIntegral : TermOp → Bool
  | .idiv => true
  | .mod => true
  | _ => false

variable {op : TermOp}

/-- A connective of Booleans is Boolean. -/
theorem sort?_connective (ho : op.isConnective = true) : op.sort? .bool .bool = some .bool := by
  cases op <;> first | rfl | cases ho

/-- A comparison of two numbers of one sort is Boolean. -/
theorem sort?_comparison (ho : op.isComparison = true) {s : TermSort}
    (hs : s.isArithmetic = true) : op.sort? s s = some .bool := by
  cases op <;> first | exact if_pos (by simp [hs]) | cases ho

/-- A sum, difference or product of two numbers of one sort has that sort. -/
theorem sort?_ring (ho : op.isRing = true) {s : TermSort} (hs : s.isArithmetic = true) :
    op.sort? s s = some s := by
  cases op <;> first | exact if_pos (by simp [hs]) | cases ho

/-- A division with remainder, and its remainder, are integers. -/
theorem sort?_integral (ho : op.isIntegral = true) : op.sort? .int .int = some .int := by
  cases op <;> first | rfl | cases ho

end TermOp

namespace Term

section
variable {op : TermOp}

/-- A connective is Boolean. -/
theorem sortOf_connective (ho : op.isConnective = true) (a b : Term) :
    (app op a b).sortOf = .bool := by
  cases op <;> first | rfl | cases ho

/-- A comparison is Boolean. -/
theorem sortOf_comparison (ho : op.isComparison = true) (a b : Term) :
    (app op a b).sortOf = .bool := by
  cases op <;> first | rfl | cases ho

/-- A sum, difference or product has the sort of its first operand. -/
theorem sortOf_ring (ho : op.isRing = true) (a b : Term) : (app op a b).sortOf = a.sortOf := by
  cases op <;> first | rfl | cases ho

/-- A division with remainder, and its remainder, have the sort of integers. -/
theorem sortOf_integral (ho : op.isIntegral = true) (a b : Term) :
    (app op a b).sortOf = .int := by
  cases op <;> first | rfl | cases ho

end

/-- The term is well sorted, of the given sort, and its free bound numbers are below `depth`. -/
inductive Sorted : Nat → Term → TermSort → Prop
  | int : Sorted d (.int n) .int
  | real : Sorted d (.real q) .real
  | bool : Sorted d (.bool b) .bool
  | const : Sorted d (.const name s) s
  | bound (hi : i < d) : Sorted d (.bound i) .int
  | neg (ha : Sorted d a s) (hs : s.isArithmetic = true) : Sorted d (.neg a) s
  | not (ha : Sorted d a .bool) : Sorted d (.not a) .bool
  | toReal (ha : Sorted d a .int) : Sorted d (.toReal a) .real
  | connective (ho : op.isConnective = true) (ha : Sorted d a .bool) (hb : Sorted d b .bool) :
      Sorted d (.app op a b) .bool
  | eq (ha : Sorted d a s) (hb : Sorted d b s) : Sorted d (.app .eq a b) .bool
  | comparison (ho : op.isComparison = true) (hs : s.isArithmetic = true)
      (ha : Sorted d a s) (hb : Sorted d b s) : Sorted d (.app op a b) .bool
  | ring (ho : op.isRing = true) (hs : s.isArithmetic = true)
      (ha : Sorted d a s) (hb : Sorted d b s) : Sorted d (.app op a b) s
  | integral (ho : op.isIntegral = true) (ha : Sorted d a .int) (hb : Sorted d b .int) :
      Sorted d (.app op a b) .int
  | rdiv (ha : Sorted d a .real) (hb : Sorted d b .real) : Sorted d (.app .rdiv a b) .real
  | select (ha : Sorted d a (.array s)) (hi : Sorted d i .int) :
      Sorted d (.app .select a i) (.basic s)
  | store (ha : Sorted d a (.array s)) (hi : Sorted d i .int) (hv : Sorted d v (.basic s)) :
      Sorted d (.store a i v) (.array s)
  | quantified (hb : Sorted (d + names.length) body .bool) :
      Sorted d (.quantified kind names body) .bool

/-! ## The rules, decided -/

/-- An operator that asks for one arithmetic sort has operands of that sort. -/
theorem same_sort_of_ite {s t u v : TermSort}
    (h : (if (s = t && s.isArithmetic) = true then some u else none) = some v) :
    s = t ∧ s.isArithmetic = true ∧ u = v := by
  split at h
  · next hc =>
    simp only [Bool.and_eq_true, decide_eq_true_eq] at hc
    exact ⟨hc.1, hc.2, Option.some.inj h⟩
  · cases h

/-- The rule of an operator whose operands are sorted as the operator asks. -/
theorem Sorted.app {op : TermOp} {s t u : TermSort} (hs : op.sort? s t = some u)
    (ha : Sorted d a s) (hb : Sorted d b t) : Sorted d (.app op a b) u := by
  cases op with
  | and | or | implies =>
    rcases s with (_ | _ | _) | _ <;> rcases t with (_ | _ | _) | _ <;>
      first | (cases hs; exact .connective rfl ha hb) | cases hs
  | eq =>
    simp only [TermOp.sort?] at hs
    split at hs
    · next he => cases hs; subst he; exact .eq ha hb
    · cases hs
  | lt | le | gt | ge =>
    obtain ⟨rfl, har, rfl⟩ := same_sort_of_ite hs
    exact .comparison rfl har ha hb
  | add | sub | mul =>
    obtain ⟨rfl, har, rfl⟩ := same_sort_of_ite hs
    exact .ring rfl har ha hb
  | idiv | mod =>
    rcases s with (_ | _ | _) | _ <;> rcases t with (_ | _ | _) | _ <;>
      first | (cases hs; exact .integral rfl ha hb) | cases hs
  | rdiv =>
    rcases s with (_ | _ | _) | _ <;> rcases t with (_ | _ | _) | _ <;>
      first | (cases hs; exact .rdiv ha hb) | cases hs
  | select =>
    rcases s with (_ | _ | _) | _ <;> rcases t with (_ | _ | _) | _ <;>
      first | (cases hs; exact .select ha hb) | cases hs

/-- What the check finds well sorted is so by the rules. -/
theorem sorted_of_check? : ∀ {t : Term} {d : Nat} {s : TermSort},
    t.check? d = some s → Sorted d t s
  | .int _, _, _, h => by cases h; exact .int
  | .real _, _, _, h => by cases h; exact .real
  | .bool _, _, _, h => by cases h; exact .bool
  | .const _ _, _, _, h => by cases h; exact .const
  | .bound i, d, _, h => by
    simp only [check?] at h
    split at h
    · next hi => cases h; exact .bound hi
    · cases h
  | .neg a, d, _, h => by
    simp only [check?] at h
    split at h
    · next s ha =>
      split at h
      · next hs => cases h; exact .neg (sorted_of_check? ha) hs
      · cases h
    · cases h
  | .not a, d, _, h => by
    simp only [check?] at h
    split at h
    · next ha => cases h; exact .not (sorted_of_check? ha)
    · cases h
  | .toReal a, d, _, h => by
    simp only [check?] at h
    split at h
    · next ha => cases h; exact .toReal (sorted_of_check? ha)
    · cases h
  | .app op a b, d, _, h => by
    simp only [check?] at h
    split at h
    · next ha hb => exact .app h (sorted_of_check? ha) (sorted_of_check? hb)
    · cases h
  | .store a i v, d, _, h => by
    simp only [check?] at h
    split at h
    · next ha hi hv =>
      split at h
      · next ht =>
        cases h
        exact .store (sorted_of_check? ha) (sorted_of_check? hi) (ht ▸ sorted_of_check? hv)
      · cases h
    · cases h
  | .quantified _ names body, d, _, h => by
    simp only [check?] at h
    split at h
    · next hb => cases h; exact .quantified (sorted_of_check? hb)
    · cases h

/-- What is well sorted by the rules passes the check. -/
theorem Sorted.check? {t : Term} {d : Nat} {s : TermSort} (h : Sorted d t s) :
    t.check? d = some s := by
  induction h with
  | int | real | bool | const => rfl
  | bound hi => simp [Term.check?, hi]
  | neg _ hs ih => simp [Term.check?, ih, hs]
  | not _ ih | toReal _ ih | quantified _ ih => simp [Term.check?, ih]
  | connective ho _ _ iha ihb => simp [Term.check?, iha, ihb, TermOp.sort?_connective ho]
  | eq _ _ iha ihb | rdiv _ _ iha ihb | select _ _ iha ihb =>
    simp [Term.check?, iha, ihb, TermOp.sort?]
  | comparison ho hs _ _ iha ihb => simp [Term.check?, iha, ihb, TermOp.sort?_comparison ho hs]
  | ring ho hs _ _ iha ihb => simp [Term.check?, iha, ihb, TermOp.sort?_ring ho hs]
  | integral ho _ _ iha ihb => simp [Term.check?, iha, ihb, TermOp.sort?_integral ho]
  | store _ _ _ iha ihi ihv => simp [Term.check?, iha, ihi, ihv]

/-- The check decides well-sortedness. -/
theorem check?_eq_some_iff {t : Term} {d : Nat} {s : TermSort} :
    t.check? d = some s ↔ Sorted d t s :=
  ⟨sorted_of_check?, Sorted.check?⟩

/-- The sort of a well-sorted term is the one read off its shape. -/
theorem Sorted.sortOf_eq {t : Term} {d : Nat} {s : TermSort} (h : Sorted d t s) :
    t.sortOf = s := by
  induction h with
  | int | real | bool | const | bound | not | toReal | eq | rdiv | quantified => rfl
  | neg _ _ ih | store _ _ _ ih => exact ih
  | connective ho => exact sortOf_connective ho _ _
  | comparison ho => exact sortOf_comparison ho _ _
  | ring ho _ _ _ iha => rw [sortOf_ring ho]; exact iha
  | integral ho => exact sortOf_integral ho _ _
  | select _ _ iha => simp [sortOf, iha, elementSort]

/-! ## Operands of well-sorted terms -/

section
variable {op : TermOp} {a b : Term} {d : Nat} {s : TermSort}

/-- The operand of a negation is Boolean. -/
theorem Sorted.of_not (h : Sorted d (.not a) s) : Sorted d a .bool := by
  cases h with
  | not ha => exact ha

/-- A connective joins formulas. -/
theorem Sorted.of_connective (ho : op.isConnective = true) (h : Sorted d (.app op a b) s) :
    Sorted d a .bool ∧ Sorted d b .bool := by
  cases h with
  | connective _ ha hb => exact ⟨ha, hb⟩
  | eq | rdiv | select => cases ho
  | comparison ho' | ring ho' | integral ho' =>
    exact absurd ho' (by revert ho; cases op <;> decide)

/-- An equality is between terms of one sort. -/
theorem Sorted.of_eq (h : Sorted d (.app .eq a b) s) :
    Sorted d a a.sortOf ∧ Sorted d b a.sortOf := by
  cases h with
  | eq ha hb => exact ⟨by rw [ha.sortOf_eq]; exact ha, by rw [ha.sortOf_eq]; exact hb⟩
  | connective ho | comparison ho | ring ho | integral ho => cases ho

/-- A comparison is between numbers of one sort. -/
theorem Sorted.of_comparison (ho : op.isComparison = true) (h : Sorted d (.app op a b) s) :
    a.sortOf.isArithmetic = true ∧ Sorted d a a.sortOf ∧ Sorted d b a.sortOf := by
  cases h with
  | comparison _ hs ha hb => rw [ha.sortOf_eq]; exact ⟨hs, ha, hb⟩
  | eq | rdiv | select => cases ho
  | connective ho' | ring ho' | integral ho' =>
    exact absurd ho' (by revert ho; cases op <;> decide)

/-- Sums and products are of numbers of one sort, which is their own. -/
theorem Sorted.of_ring (ho : op.isRing = true) (h : Sorted d (.app op a b) s) :
    s.isArithmetic = true ∧ Sorted d a s ∧ Sorted d b s := by
  cases h with
  | ring _ hs ha hb => exact ⟨hs, ha, hb⟩
  | eq | rdiv | select => cases ho
  | connective ho' | comparison ho' | integral ho' =>
    exact absurd ho' (by revert ho; cases op <;> decide)

/-- Integer division is of integers. -/
theorem Sorted.of_integral (ho : op.isIntegral = true) (h : Sorted d (.app op a b) s) :
    Sorted d a .int ∧ Sorted d b .int := by
  cases h with
  | integral _ ha hb => exact ⟨ha, hb⟩
  | eq | rdiv | select => cases ho
  | connective ho' | comparison ho' | ring ho' =>
    exact absurd ho' (by revert ho; cases op <;> decide)

/-- Real division is of reals. -/
theorem Sorted.of_rdiv (h : Sorted d (.app .rdiv a b) s) : Sorted d a .real ∧ Sorted d b .real := by
  cases h with
  | rdiv ha hb => exact ⟨ha, hb⟩
  | connective ho | comparison ho | ring ho | integral ho => cases ho

/-- Reading is from an array, at an integer. -/
theorem Sorted.of_select (h : Sorted d (.app .select a b) s) :
    ∃ e, Sorted d a (.array e) ∧ Sorted d b .int := by
  cases h with
  | select ha hb => exact ⟨_, ha, hb⟩
  | connective ho | comparison ho | ring ho | integral ho => cases ho

/-- An update is of an array, at an integer, with a value of the array's elements. -/
theorem Sorted.of_store {v : Term} {e : BasicSort} (h : Sorted d (.store a b v) (.array e)) :
    Sorted d a (.array e) ∧ Sorted d b .int ∧ Sorted d v (.basic e) := by
  cases h with
  | store ha hb hv => exact ⟨ha, hb, hv⟩

/-- A formula with numbers as operands is an equality or a comparison of numbers of one sort. -/
theorem Sorted.of_arithmetic (h : Sorted d (.app op a b) .bool)
    (har : a.sortOf.isArithmetic = true) :
    (op = .eq ∨ op.isComparison = true) ∧ Sorted d a a.sortOf ∧ Sorted d b a.sortOf := by
  cases h with
  | eq ha hb => rw [ha.sortOf_eq]; exact ⟨.inl rfl, ha, hb⟩
  | comparison ho hs ha hb => rw [ha.sortOf_eq]; exact ⟨.inr ho, ha, hb⟩
  | connective ho ha | select ha => rw [ha.sortOf_eq] at har; cases har
  | ring ho hs => cases hs

end

/-! ## What keeps terms well sorted -/

/-- More bound numbers may be free. -/
theorem Sorted.mono {t : Term} {d e : Nat} {s : TermSort} (h : Sorted d t s) (hde : d ≤ e) :
    Sorted e t s := by
  induction h generalizing e with
  | int => exact .int
  | real => exact .real
  | bool => exact .bool
  | const => exact .const
  | bound hi => exact .bound (Nat.lt_of_lt_of_le hi hde)
  | neg _ hs ih => exact .neg (ih hde) hs
  | not _ ih => exact .not (ih hde)
  | toReal _ ih => exact .toReal (ih hde)
  | connective ho _ _ iha ihb => exact .connective ho (iha hde) (ihb hde)
  | eq _ _ iha ihb => exact .eq (iha hde) (ihb hde)
  | comparison ho hs _ _ iha ihb => exact .comparison ho hs (iha hde) (ihb hde)
  | ring ho hs _ _ iha ihb => exact .ring ho hs (iha hde) (ihb hde)
  | integral ho _ _ iha ihb => exact .integral ho (iha hde) (ihb hde)
  | rdiv _ _ iha ihb => exact .rdiv (iha hde) (ihb hde)
  | select _ _ iha ihi => exact .select (iha hde) (ihi hde)
  | store _ _ _ iha ihi ihv => exact .store (iha hde) (ihi hde) (ihv hde)
  | quantified _ ih => exact .quantified (ih (by omega))

/-- The number of a bound name is below the number of names. -/
theorem boundIndex?_lt {names : List String} {name : String} {i : Nat}
    (h : boundIndex? names name = some i) : i < names.length := by
  obtain ⟨hi, -⟩ := List.idxOf?_eq_some_iff.1 h
  simpa using hi

/-- Binding constants leaves the sort; what is bound is numbered after the bound numbers that the
term has already. -/
theorem Sorted.abstract {t : Term} {d : Nat} {s : TermSort} (names : List String)
    (h : Sorted d t s) : Sorted (d + names.length) (t.abstract names d) s := by
  induction h with
  | int => exact .int
  | real => exact .real
  | bool => exact .bool
  | @const d name s =>
    simp only [Term.abstract]
    split
    · next hs =>
      subst hs
      split
      · next hi => exact .bound (by have := boundIndex?_lt hi; omega)
      · exact .const
    · exact .const
  | bound hi => exact .bound (by omega)
  | neg _ hs ih => exact .neg ih hs
  | not _ ih => exact .not ih
  | toReal _ ih => exact .toReal ih
  | connective ho _ _ iha ihb => exact .connective ho iha ihb
  | eq _ _ iha ihb => exact .eq iha ihb
  | comparison ho hs _ _ iha ihb => exact .comparison ho hs iha ihb
  | ring ho hs _ _ iha ihb => exact .ring ho hs iha ihb
  | integral ho _ _ iha ihb => exact .integral ho iha ihb
  | rdiv _ _ iha ihb => exact .rdiv iha ihb
  | select _ _ iha ihi => exact .select iha ihi
  | store _ _ _ iha ihi ihv => exact .store iha ihi ihv
  | quantified _ ih => exact .quantified (by rw [Nat.add_right_comm]; exact ih)

/-- A quantifier over constants of a closed formula is a closed formula. -/
theorem Sorted.quantify {t : Term} (kind : Quantifier) (names : List String)
    (h : Sorted 0 t .bool) : Sorted 0 (t.quantify kind names) .bool := by
  unfold Term.quantify
  split
  · exact h
  · exact .quantified (h.abstract names)

/-- What a substitution puts in place of a constant comes from one of its entries, for that
constant. -/
theorem Substitution.mem_of_lookup? {σ : Substitution} {name : String} {s : TermSort} {t : Term}
    (h : σ.lookup? name s = some t) : ∃ f ∈ σ, f.1.1 = name ∧ .basic f.1.2 = s ∧ f.2 = t := by
  obtain ⟨f, hf, rfl⟩ := Option.map_eq_some_iff.1 h
  have hp := List.find?_some hf
  simp only [Bool.and_eq_true, beq_iff_eq] at hp
  exact ⟨f, List.mem_of_find?_eq_some hf, hp.1, hp.2, rfl⟩

/-- Each entry of the substitution puts a closed term of the constant's sort. -/
def Substitution.Sorted (σ : Substitution) : Prop :=
  ∀ f ∈ σ, Term.Sorted 0 f.2 (.basic f.1.2)

/-- Putting closed terms in place of constants of their sort leaves the sort. -/
theorem Sorted.substitute {t : Term} {d : Nat} {s : TermSort} {σ : Substitution}
    (hσ : σ.Sorted) (h : Sorted d t s) : Sorted d (t.substitute σ) s := by
  induction h with
  | int => exact .int
  | real => exact .real
  | bool => exact .bool
  | @const d name s =>
    simp only [Term.substitute]
    cases hl : σ.lookup? name s with
    | none => exact .const
    | some u =>
      obtain ⟨f, hf, -, rfl, rfl⟩ := Substitution.mem_of_lookup? hl
      exact (hσ f hf).mono (Nat.zero_le _)
  | bound hi => exact .bound hi
  | neg _ hs ih => exact .neg ih hs
  | not _ ih => exact .not ih
  | toReal _ ih => exact .toReal ih
  | connective ho _ _ iha ihb => exact .connective ho iha ihb
  | eq _ _ iha ihb => exact .eq iha ihb
  | comparison ho hs _ _ iha ihb => exact .comparison ho hs iha ihb
  | ring ho hs _ _ iha ihb => exact .ring ho hs iha ihb
  | integral ho _ _ iha ihb => exact .integral ho iha ihb
  | rdiv _ _ iha ihb => exact .rdiv iha ihb
  | select _ _ iha ihi => exact .select iha ihi
  | store _ _ _ iha ihi ihv => exact .store iha ihi ihv
  | quantified _ ih => exact .quantified ih

/-! ## Operators that widen their operands -/

/-- Widening a term that fits gives it the sort that is expected. -/
theorem Sorted.coerce {t : Term} {s u : TermSort} (h : Sorted d t s) (hf : s.fits u = true) :
    Sorted d (t.coerce u) u := by
  simp only [TermSort.fits, Bool.or_eq_true, Bool.and_eq_true, beq_iff_eq] at hf
  unfold Term.coerce
  rw [h.sortOf_eq]
  rcases hf with rfl | ⟨rfl, rfl⟩
  · split
    · next hc =>
      simp only [Bool.and_eq_true, decide_eq_true_eq] at hc
      rw [hc.1] at hc
      cases hc.2
    · exact h
  · exact .toReal h

section
variable {l r : Term} {s t : TermSort}

/-- Balanced operands have the sort that both widen to. -/
theorem Sorted.balance (hl : Sorted d l s) (hr : Sorted d r t) (hs : s.isArithmetic = true)
    (ht : t.isArithmetic = true) :
    Sorted d (Term.balance l r).1 (s.widest t) ∧ Sorted d (Term.balance l r).2 (s.widest t) := by
  have hl' := hl.sortOf_eq
  have hr' := hr.sortOf_eq
  rcases TermSort.isArithmetic_iff.1 hs with rfl | rfl <;>
    rcases TermSort.isArithmetic_iff.1 ht with rfl | rfl <;>
    simp only [Term.balance, Term.coerce, TermSort.widest, hl', hr']
  · exact ⟨hl, hr⟩
  · exact ⟨.toReal hl, hr⟩
  · exact ⟨hl, .toReal hr⟩
  · exact ⟨hl, hr⟩

/-- The sort that two arithmetic sorts widen to is arithmetic. -/
theorem isArithmetic_widest (s : TermSort) (ht : t.isArithmetic = true) :
    (s.widest t).isArithmetic = true := by
  unfold TermSort.widest; split
  · rfl
  · exact ht

/-- Two numbers that are brought to one sort make a number of that sort. -/
theorem Sorted.arithmetic {op : TermOp} (ho : op.isRing = true) (hl : Sorted d l s)
    (hr : Sorted d r t) (hs : s.isArithmetic = true) (ht : t.isArithmetic = true) :
    Sorted d (Term.arithmetic op l r) (s.widest t) :=
  have h := hl.balance hr hs ht
  .ring ho (isArithmetic_widest s ht) h.1 h.2

/-- The quotient of two numbers has the wider sort of the two. -/
theorem Sorted.division (hl : Sorted d l s) (hr : Sorted d r t) (hs : s.isArithmetic = true)
    (ht : t.isArithmetic = true) : Sorted d (Term.division l r) (s.widest t) := by
  obtain ⟨h₁, h₂⟩ := hl.balance hr hs ht
  have hw := isArithmetic_widest s ht
  simp only [Term.division, h₁.sortOf_eq]
  generalize s.widest t = u at h₁ h₂ hw
  rcases TermSort.isArithmetic_iff.1 hw with rfl | rfl
  · exact .integral rfl h₁ h₂
  · exact .rdiv h₁ h₂

/-- A comparison from the other side is a comparison. -/
theorem isComparison_flip {op : TermOp} : op.flip.isComparison = op.isComparison := by
  cases op <;> rfl

/-- Comparing two numbers that are brought to one sort is Boolean. -/
theorem Sorted.compare {op : TermOp} (ho : op.isComparison = true ∨ op = .eq) (hl : Sorted d l s)
    (hr : Sorted d r t) (hs : s.isArithmetic = true) (ht : t.isArithmetic = true) :
    Sorted d (Term.compare op l r) .bool := by
  obtain ⟨h₁, h₂⟩ := hl.balance hr hs ht
  simp only [Term.compare]
  rcases ho with ho | rfl
  · have hw := isArithmetic_widest s ht
    split
    · exact .comparison (by rw [isComparison_flip, ho]) hw h₂ h₁
    · exact .comparison ho hw h₁ h₂
  · split
    · exact .eq h₂ h₁
    · exact .eq h₁ h₂

/-- An equivalence of two terms of one sort is Boolean. -/
theorem Sorted.iff (hl : Sorted d l s) (hr : Sorted d r s) : Sorted d (Term.iff l r) .bool := by
  unfold Term.iff
  split
  · exact .eq hr hl
  · exact .eq hl hr

/-- Equality takes two numbers, or two terms of one sort. -/
theorem Sorted.equality (hl : Sorted d l s) (hr : Sorted d r t)
    (h : s = t ∨ s.isArithmetic = true ∧ t.isArithmetic = true) :
    Sorted d (Term.equality l r) .bool := by
  unfold Term.equality
  rw [hl.sortOf_eq]
  split
  · next hs =>
    refine hl.compare (.inr rfl) hr hs ?_
    rcases h with rfl | ⟨-, ht⟩
    · exact hs
    · exact ht
  · next hs =>
    rcases h with rfl | ⟨ha, -⟩
    · split
      · exact hl.iff hr
      · exact .eq hl hr
    · exact absurd ha hs

end

end Term

end Discharge
