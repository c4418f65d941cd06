import Discharge.Proofs.Decision.Combination
import Discharge.Proofs.Decision.Law

/-!
# Refutations are sound

What `Refutation.check` accepts shows that no interpretation makes all assumed formulas true
(`Refutation.not_hold`). Each node of a refutation is one case: a leaf finds a contradiction, and an
inner node adds a formula that holds wherever the others do.
-/

namespace Discharge

open Term (Sorted)

noncomputable section

/-! ## Collections of formulas -/

namespace Assumptions

variable {I : Interpretation} {a : Assumptions}

/-- Well-sorted assumptions stay so with one more formula that is well sorted. -/
theorem WellSorted.insert {f : Term} (ha : a.WellSorted) (hf : Sorted 0 f .bool) :
    (a.insert f).WellSorted := by
  intro g hg
  rcases List.mem_cons.1 hg with rfl | hg
  · exact hf
  · exact ha g hg

/-- Assumptions that hold do so with one more formula that holds. -/
theorem Hold.insert {f : Term} (ha : a.Hold I) (hf : f.Holds I) : (a.insert f).Hold I := by
  intro g hg
  rcases List.mem_cons.1 hg with rfl | hg
  · exact hf
  · exact ha g hg

/-- Well-sorted assumptions stay so with further formulas that are well sorted. -/
theorem WellSorted.insertAll : ∀ {a : Assumptions}, a.WellSorted → ∀ (ts : List Term),
    (∀ t ∈ ts, Sorted 0 t .bool) → (a.insertAll ts).WellSorted
  | _, ha, [], _ => ha
  | _, ha, t :: ts, hs =>
    WellSorted.insertAll (ha.insert (hs t List.mem_cons_self)) ts fun u hu =>
      hs u (List.mem_cons_of_mem t hu)

/-- Assumptions that hold do so with further formulas that hold. -/
theorem Hold.insertAll : ∀ {a : Assumptions}, a.Hold I → ∀ (ts : List Term),
    (∀ t ∈ ts, t.Holds I) → (a.insertAll ts).Hold I
  | _, ha, [], _ => ha
  | _, ha, t :: ts, hs =>
    Hold.insertAll (ha.insert (hs t List.mem_cons_self)) ts fun u hu =>
      hs u (List.mem_cons_of_mem t hu)

/-- Assumptions from a list are well sorted if its formulas are. -/
theorem wellSorted_ofList {ts : List Term} (h : ∀ t ∈ ts, Sorted 0 t .bool) :
    (ofList ts).WellSorted :=
  WellSorted.insertAll (a := empty) (fun _ h => absurd h List.not_mem_nil) ts h

/-- Assumptions from a list hold if its formulas do. -/
theorem hold_ofList {ts : List Term} (h : ∀ t ∈ ts, t.Holds I) : (ofList ts).Hold I :=
  Hold.insertAll (a := empty) (fun _ h => absurd h List.not_mem_nil) ts h

/-- The value of a constant that no formula mentions does not count. -/
theorem Hold.set {name : String} {s : TermSort} (ha : a.Hold I) (v : s.Carrier)
    (hn : a.formulas.any (·.mentions name) = false) : a.Hold (I.set name s v) := by
  intro f hf
  exact (Term.holds_set (by simpa using List.any_eq_false.1 hn f hf)).2 (ha f hf)

end Assumptions

namespace Term

variable {I : Interpretation} {t : Term}

/-- What is tested of a formula is that it is well sorted and Boolean. -/
theorem isFormula_iff : t.isFormula = true ↔ Sorted 0 t .bool := by
  rw [isFormula, beq_iff_eq, check?_eq_some_iff]

/-- The opposite of a formula is a formula. -/
theorem Sorted.opposite (h : Sorted 0 t .bool) : Sorted 0 t.opposite .bool := by
  unfold Term.opposite
  split
  · exact h.of_not
  · exact .not h

/-- The opposite of a formula holds just if the formula does not. -/
theorem holds_opposite : t.opposite.Holds I ↔ ¬ t.Holds I := by
  unfold opposite
  split
  · rw [holds_not, Classical.not_not]
  · exact holds_not

/-- A disjunction of formulas is a formula. -/
theorem Sorted.disjunction : ∀ (ts : List Term), (∀ t ∈ ts, Sorted 0 t .bool) →
    Sorted 0 (Term.disjunction ts) .bool
  | [], _ => .bool
  | [t], h => h t List.mem_cons_self
  | t :: u :: ts, h =>
    .connective rfl (h t List.mem_cons_self)
      (Sorted.disjunction (u :: ts) fun v hv => h v (List.mem_cons_of_mem t hv))

/-- A disjunction holds if one of its formulas does. -/
theorem holds_disjunction : ∀ {ts : List Term} {t : Term}, t ∈ ts → t.Holds I →
    (disjunction ts).Holds I
  | [u], t, hm, ht => by
    rw [List.mem_singleton] at hm
    exact hm ▸ ht
  | u :: v :: ts, t, hm, ht => by
    refine holds_or.2 ?_
    rcases List.mem_cons.1 hm with rfl | hm
    · exact .inl ht
    · exact .inr (holds_disjunction hm ht)

end Term

/-! ## The check -/

/-- No interpretation makes the assumptions of a refutation true. -/
theorem Refutation.not_hold {r : Refutation} {assumed : Assumptions} (hs : assumed.WellSorted)
    (h : r.check assumed = true) (I : Interpretation) : ¬ assumed.Hold I := by
  induction r generalizing assumed I with
  | clash f =>
    intro hI
    simp only [check, Bool.and_eq_true, Bool.or_eq_true, beq_iff_eq] at h
    obtain ⟨hf, ho⟩ := h
    have hm := Assumptions.mem_of_contains hf
    rcases ho with ho | ho
    · exact Term.holds_opposite.1 (hI _ (Assumptions.mem_of_contains ho)) (hI _ hm)
    · have := Term.partsTruth_iff hI f (hs _ hm) false ho
      exact Bool.false_ne_true (this.1 (hI _ hm))
  | sum atoms summands => exact Summand.not_hold_of_contradict hs h
  | split f yes no ihYes ihNo =>
    intro hI
    simp only [check, Bool.and_eq_true] at h
    obtain ⟨⟨hf, hno⟩, hyes⟩ := h
    have hf := Term.isFormula_iff.1 hf
    by_cases hfI : f.Holds I
    · exact ihYes (hs.insert hf) hyes I (hI.insert hfI)
    · exact ihNo (hs.insert (.not hf)) hno I (hI.insert hfI)
  | cut literals proof rest ihProof ihRest =>
    intro hI
    simp only [check, Bool.and_eq_true, List.all_eq_true] at h
    obtain ⟨⟨hl, hproof⟩, hrest⟩ := h
    have hl (t : Term) (ht : t ∈ literals) := Term.isFormula_iff.1 (hl t ht)
    by_cases hall : ∀ t ∈ literals, ¬ t.Holds I
    · refine ihProof (hs.insertAll _ ?_) hproof I (hI.insertAll _ ?_)
      · exact List.forall_mem_map.2 fun t ht => (hl t ht).opposite
      · exact List.forall_mem_map.2 fun t ht => Term.holds_opposite.2 (hall t ht)
    · push Not at hall
      obtain ⟨t, ht, htI⟩ := hall
      exact ihRest (hs.insert (.disjunction _ hl)) hrest I
        (hI.insert (Term.holds_disjunction ht htI))
  | law l rest ih =>
    intro hI
    simp only [check] at h
    split at h
    · next f hf =>
      rw [Bool.and_eq_true] at h
      have hsf := Term.isFormula_iff.1 h.1
      exact ih (hs.insert hsf) h.2 I (hI.insert (Law.formula?_holds hf hsf))
    · cases h
  | witness name w rest ih =>
    intro hI
    simp only [check] at h
    split at h
    · next f hf =>
      simp only [Bool.and_eq_true, Bool.not_eq_true'] at h
      obtain ⟨⟨⟨hsf, hw⟩, hn⟩, hrest⟩ := h
      have hsf := Term.isFormula_iff.1 hsf
      -- the other formulas do not see the value that makes the witness's formula true
      obtain ⟨v, hv⟩ := Witness.exists_holds (I := I) hf hsf hw
      exact ih (hs.insert hsf) hrest _ ((hI.set (s := .int) v hn).insert hv)
    · cases h

end

end Discharge
