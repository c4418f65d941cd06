import Discharge.Proofs.Encoding.Rules
import Discharge.Proofs.Logic.Sorted

/-!
# Encoded expressions are well sorted

`Defined ps ds` says that `ds` are the definitions that successive attempts to define predicates
lead to, of which those in `ps` were accepted. The bodies of such definitions are closed formulas
(`Defined.wellSorted`), and so is every expression encoded over them a closed, well-sorted term
(`Definitions.WellSorted.encode`).
-/

namespace Discharge

open Term (Sorted)

/-- Definitions that attempts to define predicates lead to. `ps` are the accepted predicates, the
latest first. -/
inductive Defined : List Predicate → Definitions → Prop
  | empty : Defined [] .empty
  | accept (h : Defined ps ds) (hp : ds.define p = .ok ds') : Defined (p :: ps) ds'
  | refuse (h : Defined ps ds) (hp : ds.define p = .error e) : Defined ps ds

/-- The body of each definition is a closed formula. -/
def Definitions.WellSorted (ds : Definitions) : Prop :=
  ∀ entry ∈ ds.entries, Sorted 0 entry.2.body .bool

/-- A definition that is found is one of the entries. -/
theorem Definitions.mem_of_lookup? {ds : Definitions} {name : String} {d : Definition}
    (h : ds.lookup? name = some d) : ∃ entry ∈ ds.entries, entry.2 = d := by
  obtain ⟨entry, he, rfl⟩ := Option.map_eq_some_iff.1 h
  exact ⟨entry, List.mem_of_find?_eq_some he, rfl⟩

/-! ## What operators build -/

section
variable {op : BinOp} {build : Term → Term → Term} {d : Nat} {l r : Term}

/-- A connective of Booleans is well sorted. -/
theorem sorted_of_booleans (h : op.rule = .booleans build) (hl : Sorted d l .bool)
    (hr : Sorted d r .bool) : Sorted d (build l r) .bool := by
  cases op with
  | and | or | implies => cases h; exact .connective rfl hl hr
  | iff => cases h; exact hl.iff hr
  | _ => cases h

/-- An equality of terms with like sorts is well sorted. -/
theorem sorted_of_alike (h : op.rule = .alike build) {s t : TermSort} (hl : Sorted d l s)
    (hr : Sorted d r t) (hs : s = t ∨ s.isArithmetic = true ∧ t.isArithmetic = true) :
    Sorted d (build l r) .bool := by
  cases op with
  | eq => cases h; exact hl.equality hr hs
  | ne => cases h; exact .not (hl.equality hr hs)
  | _ => cases h

/-- A remainder of integers is well sorted. -/
theorem sorted_of_integers (h : op.rule = .integers build) (hl : Sorted d l .int)
    (hr : Sorted d r .int) : Sorted d (build l r) .int := by
  cases op with
  | mod => cases h; exact .integral rfl hl hr
  | _ => cases h

/-- An operator on numbers gives a number or a truth value. -/
theorem sorted_of_numbers (h : op.rule = .numbers build) {s t : TermSort} (hl : Sorted d l s)
    (hr : Sorted d r t) (hs : s.isArithmetic = true) (ht : t.isArithmetic = true) :
    ∃ u, Sorted d (build l r) u := by
  cases op with
  | mul | add | sub => cases h; exact ⟨_, hl.arithmetic rfl hr hs ht⟩
  | div | floatDiv => cases h; exact ⟨_, hl.division hr hs ht⟩
  | lt | le | gt | ge => cases h; exact ⟨_, hl.compare (.inl rfl) hr hs ht⟩
  | _ => cases h

end

/-! ## Expressions -/

/-- A variable's constant is a closed term. -/
theorem Variable.sorted_of_encode {v : Variable} {t : Term} (h : v.encode = .ok t) :
    ∃ s, Sorted 0 t s := by
  obtain ⟨s, -, h⟩ := bind_eq_ok.1 h
  cases h
  exact ⟨s, .const⟩

/-- A term that is well sorted has the sort read off its shape. -/
theorem Term.Sorted.of_sortOf {t : Term} {d : Nat} {s : TermSort} (h : ∃ u, Sorted d t u)
    (hs : t.sortOf = s) : Sorted d t s := by
  obtain ⟨u, hu⟩ := h
  rw [← hs, hu.sortOf_eq]
  exact hu

/-- Actual arguments give a substitution of closed terms of the parameters' sorts. -/
theorem Actuals.sorted {P : Exp → Term → Prop} {formals : List (String × BasicSort)}
    {args : List Exp} {σ : Term.Substitution} (h : Actuals P formals args σ)
    (hP : ∀ {e t}, P e t → ∃ s, Sorted 0 t s) : σ.Sorted := by
  induction h with
  | nil => exact fun f hf => absurd hf List.not_mem_nil
  | cons ha hf _ ih =>
    intro f hm
    rcases List.mem_cons.1 hm with rfl | hm
    · exact (Sorted.of_sortOf (hP ha) rfl).coerce hf
    · exact ih f hm

namespace Definitions.WellSorted

variable {ds : Definitions}

/-- The rules of encoding over well-sorted definitions give closed, well-sorted terms. -/
theorem rules (hd : ds.WellSorted) : EncodingRules ds fun _ t => ∃ s, Sorted 0 t s where
  var := Variable.sorted_of_encode
  int _ := ⟨_, .int⟩
  float _ := ⟨_, .real⟩
  bool := ⟨_, .bool⟩
  call hl hσ := by
    obtain ⟨entry, he, rfl⟩ := mem_of_lookup? hl
    exact ⟨_, (hd entry he).substitute (hσ.sorted And.right)⟩
  sub _ ha _ hi hsa hsi := ⟨_, .select (.of_sortOf ha hsa) (.of_sortOf hi hsi)⟩
  upd _ ha _ hi _ hv hsa hsi hsv :=
    ⟨_, .store (.of_sortOf ha hsa) (.of_sortOf hi hsi) ((Sorted.of_sortOf hv rfl).coerce hsv)⟩
  not _ ha hs := ⟨_, .not (.of_sortOf ha hs)⟩
  neg _ ha hs := ⟨_, .neg (.of_sortOf ha rfl) hs⟩
  booleans hop _ hl _ hr hsl hsr :=
    ⟨_, sorted_of_booleans hop (.of_sortOf hl hsl) (.of_sortOf hr hsr)⟩
  alike hop _ hl _ hr hs := ⟨_, sorted_of_alike hop (.of_sortOf hl rfl) (.of_sortOf hr rfl) hs⟩
  integers hop _ hl _ hr hsl hsr :=
    ⟨_, sorted_of_integers hop (.of_sortOf hl hsl) (.of_sortOf hr hsr)⟩
  numbers hop _ hl _ hr hsl hsr :=
    sorted_of_numbers hop (.of_sortOf hl rfl) (.of_sortOf hr rfl) hsl hsr
  quantified _ hb hs := ⟨_, (Sorted.of_sortOf hb hs).quantify _ _⟩
  len h := by
    obtain ⟨v, -, -, rfl⟩ := encodeLength_eq_ok h
    exact ⟨_, .const⟩

/-- An expression encoded over well-sorted definitions is a closed, well-sorted term. -/
theorem encode (hd : ds.WellSorted) {e : Exp} {t : Term} (h : e.encode ds = .ok t) :
    ∃ s, Sorted 0 t s :=
  hd.rules.holds e h

end Definitions.WellSorted

/-! ## Definitions -/

/-- What an accepted predicate adds: the encoding of its body, which is a formula, and its formal
parameters. -/
theorem Definitions.define_eq_ok {ds ds' : Definitions} {p : Predicate}
    (h : ds.define p = .ok ds') :
    ds.lookup? p.name = none ∧ ∃ fs body, formals p.name p.parameters = .ok fs ∧
      p.body.encode ds = .ok body ∧ body.sortOf = .bool ∧ ds' = ds.add p.name ⟨body, fs⟩ := by
  simp only [define, Definitions.encode] at h
  split at h
  · obtain ⟨d, h, -⟩ := bind_eq_ok.1 h
    cases h
  · next hc =>
    simp only [bind_eq_ok, expect_eq_ok] at h
    obtain ⟨d, ⟨fs, hfs, body, hb, _, ⟨hs, rfl⟩, hd⟩, h⟩ := h
    cases hd; cases h
    exact ⟨by simpa [contains] using hc, fs, _, hfs, hb, admits_bool.1 hs, rfl⟩

/-- The bodies of definitions that were accepted are closed formulas. -/
theorem Defined.wellSorted {ps : List Predicate} {ds : Definitions} (h : Defined ps ds) :
    ds.WellSorted := by
  induction h with
  | empty => exact fun entry he => absurd he List.not_mem_nil
  | accept _ hp ih =>
    obtain ⟨-, fs, body, -, hb, hs, rfl⟩ := Definitions.define_eq_ok hp
    intro entry he
    rcases List.mem_append.1 he with he | he
    · exact ih entry he
    · rw [List.mem_singleton.1 he]
      exact .of_sortOf (ih.encode hb) hs
  | refuse _ _ ih => exact ih

end Discharge
