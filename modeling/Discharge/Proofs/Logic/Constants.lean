import Discharge.Proofs.Logic.Sorted
import Discharge.Search.View

/-!
# Constants of terms

What binding and replacing constants does to the constants of a term, and how the two go together.
Nothing that is put in place of a constant is caught by a quantifier around it
(`constants_substitute`), two replacements can be made at once (`substitute_substitute`), and a
replacement of constants by constants commutes with binding if it leaves the bound constants alone
and puts none of them anywhere (`substitute_abstract`).
-/

namespace Discharge

namespace Term

attribute [local simp] abstract constants substitute

variable {σ τ : Substitution} {names : List String} {name : String} {s : TermSort} {t u l r : Term}
  {d : Nat} {c : String × TermSort}

/-! ## Constants of what is built -/

/-- A name has no index among bound names if it is none of them. -/
theorem boundIndex?_eq_none_iff : boundIndex? names name = none ↔ name ∉ names := by
  rw [boundIndex?, List.idxOf?_eq_none_iff, List.mem_reverse]

/-- A bound constant becomes a bound number, any other one is left. -/
theorem abstract_const (names : List String) (d : Nat) (name : String) (s : TermSort) :
    (∃ i, s = .int ∧ boundIndex? names name = some i ∧
        (const name s).abstract names d = .bound (i + d)) ∨
      ¬ (s = .int ∧ name ∈ names) ∧ (const name s).abstract names d = .const name s := by
  simp only [abstract]
  by_cases hs : s = .int
  · rw [if_pos hs]
    cases hb : boundIndex? names name with
    | none => exact .inr ⟨fun h => boundIndex?_eq_none_iff.1 hb h.2, rfl⟩
    | some i => exact .inl ⟨i, hs, rfl, rfl⟩
  · rw [if_neg hs]
    exact .inr ⟨fun h => hs h.1, rfl⟩

/-- A name with an index among bound names is one of them. -/
theorem mem_of_boundIndex? {i : Nat} (h : boundIndex? names name = some i) : name ∈ names := by
  refine Decidable.not_not.1 fun hn => ?_
  rw [boundIndex?_eq_none_iff.2 hn] at h
  cases h

/-- What is bound is no constant any more. -/
theorem mem_constants_abstract : c ∈ (t.abstract names d).constants ↔
    c ∈ t.constants ∧ ¬ (c.2 = .int ∧ c.1 ∈ names) := by
  induction t generalizing d with
  | int | real | bool | bound => simp
  | const name s =>
    rcases abstract_const names d name s with ⟨i, rfl, hb, heq⟩ | ⟨hn, heq⟩
    · rw [heq]
      simp only [constants, List.mem_singleton, List.not_mem_nil, false_iff]
      rintro ⟨rfl, hn⟩
      exact hn ⟨rfl, mem_of_boundIndex? hb⟩
    · rw [heq]
      simp only [constants, List.mem_singleton, iff_self_and]
      rintro rfl
      exact hn
  | neg a ih | not a ih | toReal a ih | quantified kind ns a ih => exact ih
  | app op a b iha ihb => simp [iha, ihb, or_and_right]
  | store a i v iha ihi ihv => simp [iha, ihi, ihv, or_and_right]

/-- If none of the names is that of an integer constant, nothing is bound. -/
theorem abstract_eq_self (h : ∀ c ∈ t.constants, ¬ (c.2 = .int ∧ c.1 ∈ names)) :
    t.abstract names d = t := by
  induction t generalizing d with
  | int | real | bool | bound => rfl
  | const name s =>
    rcases abstract_const names d name s with ⟨i, rfl, hb, -⟩ | ⟨-, heq⟩
    · exact absurd ⟨rfl, mem_of_boundIndex? hb⟩ (h _ (List.mem_singleton.2 rfl))
    · exact heq
  | neg a ih | not a ih | toReal a ih | quantified kind ns a ih => simp only [abstract, ih h]
  | app op a b iha ihb =>
    simp only [constants, List.forall_mem_append] at h
    simp only [abstract, iha h.1, ihb h.2]
  | store a i v iha ihi ihv =>
    simp only [constants, List.forall_mem_append] at h
    simp only [abstract, iha h.1.1, ihi h.1.2, ihv h.2]

/-- A quantifier binds the integer constants with its names, and leaves the others. -/
theorem mem_constants_quantify {kind : Quantifier} : c ∈ (t.quantify kind names).constants ↔
    c ∈ t.constants ∧ ¬ (c.2 = .int ∧ c.1 ∈ names) := by
  unfold quantify
  split
  · next h => simp [List.isEmpty_iff.1 h]
  · exact mem_constants_abstract

@[simp] theorem constants_coerce : (t.coerce s).constants = t.constants := by
  unfold coerce
  split <;> rfl

/-- Comparisons have the constants of their sides, on whichever side these are written. -/
theorem mem_constants_compare (op : TermOp) :
    c ∈ (compare op l r).constants ↔ c ∈ l.constants ∨ c ∈ r.constants := by
  simp only [compare, balance]
  split
  · simp [or_comm]
  · simp

/-- The constants of an equivalence are those of its sides. -/
theorem mem_constants_iff : c ∈ (iff l r).constants ↔ c ∈ l.constants ∨ c ∈ r.constants := by
  unfold iff
  split
  · simp [or_comm]
  · simp

/-- The constants of an equality are those of its sides. -/
theorem mem_constants_equality :
    c ∈ (equality l r).constants ↔ c ∈ l.constants ∨ c ∈ r.constants := by
  unfold equality
  split
  · exact mem_constants_compare .eq
  · split
    · exact mem_constants_iff
    · simp

/-- The constants of an arithmetic term are those of its operands. -/
theorem constants_arithmetic (op : TermOp) :
    (arithmetic op l r).constants = l.constants ++ r.constants := by
  simp [arithmetic, balance]

/-- The constants of a division are those of its operands. -/
theorem constants_division : (division l r).constants = l.constants ++ r.constants := by
  simp [division, balance]

/-! ## Replacements -/

namespace Substitution

/-- The term in place of a constant, which is the constant itself if there is no other. -/
def apply (σ : Substitution) (c : String × TermSort) : Term :=
  (σ.lookup? c.1 c.2).getD (.const c.1 c.2)

/-- Constants of the same sorts are put in place of constants. -/
def Renames (σ : Substitution) : Prop := ∀ p ∈ σ, ∃ name, p.2 = .const name (.basic p.1.2)

/-- The replacement without what integer constants of the given names stand for. -/
def under (σ : Substitution) (names : List String) : Substitution :=
  σ.filter fun p => ¬ (p.1.2 = .int ∧ p.1.1 ∈ names)

/-- Under a quantifier a substitution has nothing for the integer constants that are bound. -/
theorem lookup?_under (σ : Substitution) (names : List String) (name : String) (s : TermSort) :
    (σ.under names).lookup? name s =
      if s = .int ∧ name ∈ names then none else σ.lookup? name s := by
  -- An entry for the constant is taken out exactly if the constant is one of those named.
  have hkey (p : (String × BasicSort) × Term) :
      (p.1.1 == name && TermSort.basic p.1.2 == s) = true →
        (p.1.2 = .int ∧ p.1.1 ∈ names ↔ s = .int ∧ name ∈ names) := by
    simp only [Bool.and_eq_true, beq_iff_eq]
    rintro ⟨rfl, rfl⟩
    simp
  unfold lookup? under
  rw [List.find?_filter]
  split
  · next h =>
    rw [List.find?_eq_none.2 fun p _ => ?_]
    · rfl
    · intro hp
      simp only [decide_eq_true_eq] at hp
      exact hp.1 ((hkey p hp.2).2 h)
  · next h =>
    congr 2
    funext p
    by_cases hp : (p.1.1 == name && TermSort.basic p.1.2 == s) = true
    · simp [hp, mt (hkey p hp).1 h]
    · simp [hp]

/-- A renamed constant, which has one of the new names if it has not kept its own. -/
theorem Renames.apply_eq (h : σ.Renames) (c : String × TermSort) :
    σ.apply c = .const c.1 c.2 ∨ ∃ p ∈ σ, p.2 = σ.apply c ∧ ∃ name, p.2 = .const name c.2 := by
  unfold apply
  cases hl : σ.lookup? c.1 c.2 with
  | none => exact .inl rfl
  | some a =>
    obtain ⟨p, hp, -, hs, rfl⟩ := mem_of_lookup? hl
    obtain ⟨name, hname⟩ := h p hp
    exact .inr ⟨p, hp, rfl, name, hs ▸ hname⟩

/-- A substitution that renames puts a constant of the same sort in the place of each constant. -/
theorem Renames.exists_apply (h : σ.Renames) (c : String × TermSort) :
    ∃ name, σ.apply c = .const name c.2 := by
  rcases h.apply_eq c with hc | ⟨p, -, hp, name, hname⟩
  · exact ⟨c.1, hc⟩
  · exact ⟨name, hp.symm.trans hname⟩

end Substitution

/-- After a replacement, each place of a constant has the constants of what is put there: none of
them is caught by a quantifier around it. -/
theorem constants_substitute (σ : Substitution) (t : Term) :
    (t.substitute σ).constants = t.constants.flatMap fun c => (σ.apply c).constants := by
  induction t with
  | int | real | bool | bound => rfl
  | const name s => exact (List.append_nil _).symm
  | neg a ih | not a ih | toReal a ih | quantified kind ns a ih => exact ih
  | app op a b iha ihb => simp only [substitute, constants, iha, ihb, List.flatMap_append]
  | store a i v iha ihi ihv =>
    simp only [substitute, constants, iha, ihi, ihv, List.flatMap_append]

/-- Where nothing is put in place of the constants, nothing changes. -/
theorem substitute_eq_self (h : ∀ c ∈ t.constants, σ.lookup? c.1 c.2 = none) :
    t.substitute σ = t := by
  induction t with
  | int | real | bool | bound => rfl
  | const name s => rw [substitute, h _ (List.mem_singleton.2 rfl), Option.getD_none]
  | neg a ih | not a ih | toReal a ih | quantified kind ns a ih => simp only [substitute, ih h]
  | app op a b iha ihb =>
    simp only [constants, List.forall_mem_append] at h
    simp only [substitute, iha h.1, ihb h.2]
  | store a i v iha ihi ihv =>
    simp only [constants, List.forall_mem_append] at h
    simp only [substitute, iha h.1.1, ihi h.1.2, ihv h.2]

/-- What a replacement after another one makes of the constants is made of them at once. -/
theorem substitute_substitute {ρ : Substitution}
    (h : ∀ c ∈ t.constants, (σ.apply c).substitute τ = ρ.apply c) :
    (t.substitute σ).substitute τ = t.substitute ρ := by
  induction t with
  | int | real | bool | bound => rfl
  | const name s => exact h _ (List.mem_singleton.2 rfl)
  | neg a ih | not a ih | toReal a ih | quantified kind ns a ih => simp only [substitute, ih h]
  | app op a b iha ihb =>
    simp only [constants, List.forall_mem_append] at h
    simp only [substitute, iha h.1, ihb h.2]
  | store a i v iha ihi ihv =>
    simp only [constants, List.forall_mem_append] at h
    simp only [substitute, iha h.1.1, ihi h.1.2, ihv h.2]

/-! ## Replacements and quantifiers -/

/-- Bound constants are not replaced, and the others are replaced as before if no new constant is
among those that are bound. -/
theorem substitute_abstract (hσ : σ.Renames)
    (hnew : ∀ p ∈ σ, ∀ name ∈ names, p.2 ≠ .const name .int) :
    (t.abstract names d).substitute σ = (t.substitute (σ.under names)).abstract names d := by
  induction t generalizing d with
  | int | real | bool | bound => rfl
  | const name s =>
    have happly : (const name s).substitute (σ.under names) = (σ.under names).apply (name, s) := rfl
    rw [happly, Substitution.apply, Substitution.lookup?_under]
    rcases abstract_const names d name s with ⟨i, rfl, hb, heq⟩ | ⟨hn, heq⟩
    · rw [if_pos ⟨rfl, mem_of_boundIndex? hb⟩, heq, Option.getD_none, heq]
      rfl
    · rw [if_neg hn, heq]
      change σ.apply (name, s) = (σ.apply (name, s)).abstract names d
      rcases hσ.apply_eq (name, s) with hc | ⟨p, hp, hpc, n, hc⟩
      · rw [hc, heq]
      · rw [← hpc, hc]
        rcases abstract_const names d n s with ⟨i, rfl, hb, -⟩ | ⟨-, heq⟩
        · exact absurd hc (hnew p hp n (mem_of_boundIndex? hb))
        · exact heq.symm
  | neg a ih | not a ih | toReal a ih | quantified kind ns a ih =>
    simp only [abstract, substitute, ih]
  | app op a b iha ihb => simp only [abstract, substitute, iha, ihb]
  | store a i v iha ihi ihv => simp only [abstract, substitute, iha, ihi, ihv]

/-- A substitution that renames goes under a quantifier that binds none of the new names. -/
theorem substitute_quantify {kind : Quantifier} (hσ : σ.Renames)
    (hnew : ∀ p ∈ σ, ∀ name ∈ names, p.2 ≠ .const name .int) :
    (t.quantify kind names).substitute σ = (t.substitute (σ.under names)).quantify kind names := by
  unfold quantify
  split
  · next h =>
    have hunder : σ.under names = σ := by
      rw [List.isEmpty_iff.1 h]
      exact List.filter_eq_self.2 fun _ _ => by simp
    rw [hunder]
  · simp only [substitute, substitute_abstract hσ hnew]

end Term

end Discharge
