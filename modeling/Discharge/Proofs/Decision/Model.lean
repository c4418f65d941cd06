import Discharge.Decision.Model
import Discharge.Proofs.Decision.Algebraic
import Discharge.Proofs.Decision.Literal

/-!
# Consistent models exist

A consistent model says nothing but closed formulas (`Model.sorted_of_mem_facts`), and some
interpretation makes all that it says true (`Model.exists_holds`): the one that reads values off the
model, for a root that exists because its polynomial changes its sign.
-/

namespace Discharge

open Term (Sorted)

noncomputable section

/-! ## Scalars -/

namespace Scalar

/-- The value of a scalar, given the root that algebraic values are made of. -/
def value (ρ : ℝ) : Scalar → Meaning
  | .int n => .int n
  | .real q => .real q
  | .bool b => .bool (b = true)
  | .algebraic a => .real (Univariate.evaluateAt a.coefficients ρ)

@[simp] theorem sort_value (ρ : ℝ) (x : Scalar) : (x.value ρ).sort = .basic x.sort := by
  cases x <;> rfl

/-- A scalar that is a real is its number. -/
theorem value_eq_real {ρ : ℝ} {x : Scalar} (hx : x.sort = .real) :
    x.value ρ = .real (x.value ρ).number := by
  obtain ⟨z, hz⟩ := Meaning.exists_real (v := x.value ρ) (by rw [sort_value, hx])
  rw [hz]
  rfl

section
variable {root : Term} {d : Nat} {I : Interpretation} {ρ : ℝ} {env : List Int}

/-- The term of a polynomial in the root is real. -/
theorem sorted_polynomialTerm (hr : Sorted d root .real) :
    ∀ p : List Rat, Sorted d (polynomialTerm root p) .real
  | [] => .real
  | [_] => .real
  | _ :: c :: cs => .ring rfl rfl .real (.ring rfl rfl hr (sorted_polynomialTerm hr (c :: cs)))

/-- The term of a polynomial in the root denotes the value of the polynomial there. -/
theorem denote_polynomialTerm (hr : root.denote I env = .real ρ) :
    ∀ p : List Rat, (polynomialTerm root p).denote I env = .real (Univariate.evaluateAt p ρ)
  | [] => by simp [polynomialTerm, Term.denote, Univariate.evaluateAt]
  | [c] => by simp [polynomialTerm, Term.denote, Univariate.evaluateAt]
  | c :: c' :: cs => by
    simp only [polynomialTerm, Term.denote, TermOp.denote, hr, denote_polynomialTerm hr (c' :: cs),
      Meaning.arithmetic]
    rfl

/-- The term of a scalar has the scalar's sort. -/
theorem sorted_term (hr : Sorted d root .real) (x : Scalar) :
    Sorted d (x.term root) (.basic x.sort) := by
  cases x with
  | int => exact .int
  | real => exact .real
  | bool => exact .bool
  | algebraic a => exact sorted_polynomialTerm hr _

/-- The term of a scalar has its value. -/
theorem denote_term (hr : root.denote I env = .real ρ) (x : Scalar) :
    (x.term root).denote I env = x.value ρ := by
  cases x with
  | int | real | bool => rfl
  | algebraic a => exact denote_polynomialTerm hr _

end

/-- A scalar that is a number lies in its enclosure. -/
theorem enclosure_contains {r : Root} {ρ : ℝ} (hρ : (⟨r.low, r.high⟩ : Enclosure).Contains ρ)
    (x : Scalar) : (x.enclosure r).Contains (x.value ρ).number := by
  cases x with
  | int n => simpa [enclosure, value] using Enclosure.point_contains n
  | real q => exact Enclosure.point_contains q
  | bool b => simpa [enclosure, value, Meaning.number] using Enclosure.point_contains 0
  | algebraic a => exact Enclosure.evaluate_contains hρ _

end Scalar

/-! ## Tables -/

/-- Where no key comes twice, the entry of a key is the one that is found. -/
theorem find?_of_nodup {κ α : Type} [BEq κ] [LawfulBEq κ] {l : List (κ × α)}
    (hl : (l.map Prod.fst).Nodup) {e : κ × α} (he : e ∈ l) :
    l.find? (fun e' => e'.1 == e.1) = some e := by
  induction l with
  | nil => cases he
  | cons e' l ih =>
    obtain ⟨hn, hl⟩ := List.nodup_cons.1 hl
    rcases List.mem_cons.1 he with rfl | he
    · simp
    · have hne : ¬ e'.1 = e.1 := fun h => hn (h ▸ List.mem_map_of_mem he)
      rw [List.find?_cons_of_neg (by simpa using hne)]
      exact ih hl he

namespace ValueTable

/-- The value that a table gives an integer, if it restricts it. -/
def at? (t : ValueTable) (i : Int) : Option Scalar :=
  ((t.entries.find? fun e => e.1 == i).map Prod.snd).or
    (((t.steps.find? fun e => decide (i < e.1)).map Prod.snd).or t.default)

section
variable {t : ValueTable} {root : Term} {r : Root} {s : BasicSort} {I : Interpretation} {ρ : ℝ}
  {read : Term → Term}

/-- The values of a consistent table are of its sort. -/
theorem sort_of_at? (ht : t.isConsistent r s = true) {i : Int} {x : Scalar} (h : t.at? i = some x) :
    x.sort = s := by
  simp only [isConsistent, Bool.and_eq_true, List.all_eq_true] at ht
  obtain ⟨⟨hs, -⟩, -⟩ := ht
  have hx : x ∈ t.entries.map Prod.snd ++ t.steps.map Prod.snd ++ t.default.toList := by
    rcases Option.or_eq_some_iff.1 h with h | ⟨-, h⟩
    · obtain ⟨e, he, rfl⟩ := Option.map_eq_some_iff.1 h
      simp [List.mem_map_of_mem (f := Prod.snd) (List.mem_of_find?_eq_some he)]
    · rcases Option.or_eq_some_iff.1 h with h | ⟨-, h⟩
      · obtain ⟨e, he, rfl⟩ := Option.map_eq_some_iff.1 h
        simp [List.mem_map_of_mem (f := Prod.snd) (List.mem_of_find?_eq_some he)]
      · simp [h]
  exact of_decide_eq_true (hs x hx).1

/-- That a term has a value, as a formula. -/
theorem sorted_readFact {d : Nat} {u : Term} {x : Scalar} (hr : Sorted d root .real)
    (hu : Sorted d u (.basic x.sort)) : Sorted d (readFact root u x) .bool := by
  unfold readFact
  split
  · exact hu
  · exact .not hu
  · exact .eq hu (Scalar.sorted_term hr x)

/-- A term that has the value makes the formula true. -/
theorem readFact_holds {u : Term} {x : Scalar} {env : List Int} (hr : root.denote I env = .real ρ)
    (hu : u.denote I env = x.value ρ) : ((readFact root u x).denote I env).truth := by
  unfold readFact
  split
  · rw [hu]; rfl
  · simp [Term.denote, hu, Scalar.value]
  · rw [Term.denote, hu, Scalar.denote_term hr]
    rfl

/-- A formula about the indices outside a table is well sorted if it is so for one index. -/
theorem sorted_outside {f : Term} (hf : Sorted 1 f .bool) : Sorted 0 (t.outside f) .bool := by
  refine .quantified ?_
  generalize t.entries = entries
  induction entries with
  | nil => exact hf
  | cons e entries ih => exact .connective rfl (.eq (.bound (Nat.zero_lt_one)) .int) ih

/-- What is said of the places outside a table. -/
theorem outside_holds {f : Term}
    (h : ∀ i : Int, (∀ e ∈ t.entries, e.1 ≠ i) → (f.denote I [i]).truth) :
    (t.outside f).Holds I := by
  intro i
  show (Term.denote I _ [i]).truth
  replace h := h i
  generalize t.entries = entries at h ⊢
  induction entries with
  | nil => exact h nofun
  | cons e entries ih =>
    by_cases he : e.1 = i
    · exact .inl (by simp [Term.denote, TermOp.denote, he])
    · exact .inr (ih fun hn => h (List.forall_mem_cons.2 ⟨he, hn⟩))

/-- A formula that is asked for from a bound on is well sorted if it is so without the bound. -/
theorem sorted_unlessBelow {bound : Option Int} {g : Term} (hg : Sorted 1 g .bool) :
    Sorted 1 (unlessBelow bound g) .bool := by
  cases bound with
  | none => exact hg
  | some p => exact .connective rfl (.comparison rfl rfl (.bound Nat.zero_lt_one) .int) hg

/-- The fact about one piece of a table is well sorted. -/
theorem sorted_pieceFact {previous stop : Option Int} {x : Scalar} (hr : ∀ d, Sorted d root .real)
    (hread : ∀ {u d}, Sorted d u .int → Sorted d (read u) (.basic s)) (hx : x.sort = s) :
    Sorted 0 (t.pieceFact root read previous stop x) .bool := by
  have hb {d : Nat} : Sorted (d + 1) (.bound 0) .int := .bound (Nat.zero_lt_succ d)
  have hf := sorted_readFact (x := x) (hr 1) (by rw [hx]; exact hread hb)
  refine sorted_outside (sorted_unlessBelow ?_)
  cases stop with
  | none => exact hf
  | some b => exact .connective rfl (.comparison rfl rfl .int hb) hf

/-- A formula that is asked for from a bound on holds at an index if it does so where the index is
not below the bound. -/
theorem unlessBelow_holds {bound : Option Int} {g : Term} {i : Int}
    (h : (∀ p, bound = some p → p ≤ i) → (g.denote I [i]).truth) :
    ((unlessBelow bound g).denote I [i]).truth := by
  cases bound with
  | none => exact h nofun
  | some p =>
    by_cases hp : i < p
    · exact .inl (by simpa [Term.denote, TermOp.denote] using hp)
    · exact .inr (h fun p' hp' => by cases hp'; omega)

/-- What is said of a piece, if the function has the value there. -/
theorem pieceFact_holds {previous stop : Option Int} {x : Scalar} {f : Int → Meaning}
    (hr : ∀ env, root.denote I env = .real ρ)
    (hread : ∀ {u env i}, u.denote I env = .int i → (read u).denote I env = f i)
    (h : ∀ i : Int, (∀ e ∈ t.entries, e.1 ≠ i) → (∀ p, previous = some p → p ≤ i) →
      (∀ b, stop = some b → i < b) → f i = x.value ρ) :
    (t.pieceFact root read previous stop x).Holds I := by
  refine outside_holds fun i hi => unlessBelow_holds fun hp => ?_
  cases stop with
  | none => exact readFact_holds (hr _) ((hread rfl).trans (h i hi hp nofun))
  | some b =>
    by_cases hb : b ≤ i
    · exact .inl (by simpa [Term.denote, TermOp.denote] using hb)
    · refine .inr (readFact_holds (hr _) ((hread rfl).trans (h i hi hp fun b' hb' => ?_)))
      cases hb'
      omega

/-- The facts about the pieces of a table are well sorted. -/
theorem sorted_piecesFrom (hr : ∀ d, Sorted d root .real)
    (hread : ∀ {u d}, Sorted d u .int → Sorted d (read u) (.basic s))
    (hd : ∀ x ∈ t.default, x.sort = s) :
    ∀ {previous : Option Int} {steps : List (Int × Scalar)}, (∀ e ∈ steps, e.2.sort = s) →
      ∀ f ∈ t.piecesFrom root read previous steps, Sorted 0 f .bool
  | _, [], _, f, hf => by
    unfold piecesFrom at hf
    split at hf
    · next x hx =>
      rw [List.mem_singleton] at hf
      exact hf ▸ sorted_pieceFact hr hread (hd x hx)
    · cases hf
  | _, (b, x) :: steps, hs, f, hf => by
    unfold piecesFrom at hf
    obtain ⟨hx, hs⟩ := List.forall_mem_cons.1 hs
    rcases List.mem_cons.1 hf with rfl | hf
    · exact sorted_pieceFact hr hread hx
    · exact sorted_piecesFrom hr hread hd hs f hf

/-- What is said of the pieces after some place, if the function has their values: that of the first
step above an integer, or else the default. -/
theorem piecesFrom_hold {f : Int → Meaning} (hr : ∀ env, root.denote I env = .real ρ)
    (hread : ∀ {u env i}, u.denote I env = .int i → (read u).denote I env = f i) :
    ∀ {previous : Option Int} {steps : List (Int × Scalar)},
      (steps.map Prod.fst).Pairwise (· < ·) →
      (∀ p, previous = some p → ∀ e ∈ steps, p < e.1) →
      (∀ i x, (∀ e ∈ t.entries, e.1 ≠ i) → (∀ p, previous = some p → p ≤ i) →
        ((steps.find? fun e => decide (i < e.1)).map Prod.snd).or t.default = some x →
        f i = x.value ρ) →
      ∀ g ∈ t.piecesFrom root read previous steps, g.Holds I
  | previous, [], _, _, h, g, hg => by
    unfold piecesFrom at hg
    split at hg
    · next x hx =>
      rw [List.mem_singleton] at hg
      exact hg ▸ pieceFact_holds hr hread fun i hi hp _ => h i x hi hp hx
    · cases hg
  | previous, (b, x) :: steps, ha, hp, h, g, hg => by
    unfold piecesFrom at hg
    obtain ⟨hlt, ha⟩ := List.pairwise_cons.1 ha
    rcases List.mem_cons.1 hg with rfl | hg
    · refine pieceFact_holds hr hread fun i hi hpi hb => h i x hi hpi ?_
      simp [hb b rfl]
    · refine piecesFrom_hold hr hread ha ?_ ?_ g hg
      · rintro p hb e he
        cases hb
        exact hlt _ (List.mem_map_of_mem he)
      · intro i y hi hpi hy
        have hbi : b ≤ i := hpi b rfl
        refine h i y hi (fun p hp' => ?_) ?_
        · exact (le_of_lt (hp p hp' _ List.mem_cons_self)).trans hbi
        · rwa [List.find?_cons_of_neg (by simpa using hbi)]

/-- What a consistent table says are closed formulas. -/
theorem sorted_of_mem_facts (ht : t.isConsistent r s = true) (hr : ∀ d, Sorted d root .real)
    (hread : ∀ {u d}, Sorted d u .int → Sorted d (read u) (.basic s)) :
    ∀ f ∈ t.facts root read, Sorted 0 f .bool := by
  intro f hf
  simp only [isConsistent, Bool.and_eq_true, List.all_eq_true, List.mem_append, List.mem_map] at ht
  obtain ⟨⟨hs, -⟩, -⟩ := ht
  rcases List.mem_append.1 hf with hf | hf
  · refine sorted_piecesFrom hr hread (fun x hx => ?_) (fun e he => ?_) f hf
    · exact of_decide_eq_true (hs x (.inr (Option.mem_toList.2 hx))).1
    · exact of_decide_eq_true (hs e.2 (.inl (.inr ⟨e, he, rfl⟩))).1
  · obtain ⟨e, he, rfl⟩ := List.mem_map.1 hf
    have hx : e.2.sort = s := of_decide_eq_true (hs e.2 (.inl (.inl ⟨e, he, rfl⟩))).1
    exact sorted_readFact (hr 0) (by rw [hx]; exact hread .int)

/-- What a consistent table says holds of a function that has the table's values. -/
theorem facts_hold {f : Int → Meaning} (ht : t.isConsistent r s = true)
    (hr : ∀ env, root.denote I env = .real ρ)
    (hread : ∀ {u env i}, u.denote I env = .int i → (read u).denote I env = f i)
    (h : ∀ i x, t.at? i = some x → f i = x.value ρ) :
    ∀ g ∈ t.facts root read, g.Holds I := by
  intro g hg
  simp only [isConsistent, Bool.and_eq_true, decide_eq_true_eq] at ht
  obtain ⟨⟨-, hnd⟩, ha⟩ := ht
  rcases List.mem_append.1 hg with hg | hg
  · refine piecesFrom_hold hr hread ha ?_ (fun i x hi _ hx => h i x ?_) g hg
    · exact fun _ h => nomatch h
    · have : t.entries.find? (fun e => e.1 == i) = none := by
        simpa [List.find?_eq_none] using hi
      rw [at?, this, Option.map_none, Option.none_or]
      exact hx
  · obtain ⟨e, he, rfl⟩ := List.mem_map.1 hg
    refine readFact_holds (hr _) ((hread rfl).trans (h e.1 e.2 ?_))
    rw [at?, find?_of_nodup hnd he]
    rfl

end

end ValueTable

/-! ## Models -/

/-- The value that a table gives an integer, or an arbitrary one. -/
def ValueTable.read (t : ValueTable) (ρ : ℝ) (s : BasicSort) (i : Int) : s.Carrier :=
  match t.at? i with
  | some x => (x.value ρ).toBasic s
  | none => .arbitrary s

/-- What a consistent table gives is a value of its sort. -/
theorem ValueTable.read_eq {t : ValueTable} {r : Root} {s : BasicSort} {ρ : ℝ} {i : Int}
    {x : Scalar} (ht : t.isConsistent r s = true) (h : t.at? i = some x) :
    Meaning.ofBasic s (t.read ρ s i) = x.value ρ := by
  rw [read, h]
  exact Meaning.ofBasic_toBasic (by rw [Scalar.sort_value, sort_of_at? ht h])

/-- The quotient of a real by zero: that of the first dividend in a list that the real is equal to,
or else a default. -/
def quotientAt (ρ fallback : ℝ) : List (Scalar × Scalar) → ℝ → ℝ
  | [], _ => fallback
  | (a, x) :: rest, z =>
    if (a.value ρ).number = z then (x.value ρ).number else quotientAt ρ fallback rest z

/-- A dividend that is none of those in the list has the default as its quotient by zero. -/
theorem quotientAt_of_forall_ne {ρ fallback z : ℝ} :
    ∀ {l : List (Scalar × Scalar)}, (∀ e ∈ l, (e.1.value ρ).number ≠ z) →
      quotientAt ρ fallback l z = fallback
  | [], _ => rfl
  | (a, x) :: l, h => by
    obtain ⟨ha, h⟩ := List.forall_mem_cons.1 h
    rw [quotientAt, if_neg ha, quotientAt_of_forall_ne h]

/-- Dividends that all differ have the quotients of their own. -/
theorem quotientAt_of_mem {ρ fallback : ℝ} :
    ∀ {l : List (Scalar × Scalar)},
      (l.map Prod.fst).Pairwise (fun a b => (a.value ρ).number ≠ (b.value ρ).number) →
      ∀ e ∈ l, quotientAt ρ fallback l (e.1.value ρ).number = (e.2.value ρ).number
  | (a, x) :: l, hl, e, he => by
    obtain ⟨ha, hl⟩ := List.pairwise_cons.1 hl
    rcases List.mem_cons.1 he with rfl | he
    · rw [quotientAt, if_pos rfl]
    · rw [quotientAt, if_neg (ha _ (List.mem_map_of_mem he))]
      exact quotientAt_of_mem hl e he

namespace Model

variable {m : Model} {ρ : ℝ}

/-- The real is the root that the model's algebraic values are made of. -/
def IsRoot (m : Model) (ρ : ℝ) : Prop :=
  match m.root with
  | some (_, r) => r.IsRoot ρ
  | none => ρ = 0

/-- The keys of the constants that are no arrays: their names and sorts. -/
def scalarEntries (m : Model) (ρ : ℝ) : List ((String × BasicSort) × Meaning) :=
  m.scalars.map (fun p => ((p.1, p.2.sort), p.2.value ρ)) ++
    m.root.toList.map fun p => ((p.1, BasicSort.real), .real ρ)

/-- The interpretation that reads values off the model. -/
def interpretation (m : Model) (ρ : ℝ) : Interpretation where
  const name s :=
    match s with
    | .basic s =>
      match (m.scalarEntries ρ).find? fun e => e.1 == (name, s) with
      | some e => e.2.toBasic s
      | none => .arbitrary s
    | .array s => fun i =>
      match (m.arrays.map fun e => ((e.1, e.2.1), e.2.2)).find? fun e => e.1 == (name, s) with
      | some e => e.2.read ρ s i
      | none => .arbitrary s
  quotientByZero := m.integerQuotients.read ρ .int
  remainderByZero := m.remainders.read ρ .int
  realQuotientByZero :=
    quotientAt ρ ((m.realQuotient.map fun x => (x.value ρ).number).getD 0) m.realQuotients

/-- The parts of a model's consistency. -/
structure Consistent (m : Model) : Prop where
  isolated : ∀ p ∈ m.root, p.2.isIsolated = true
  scalars : (m.scalars.map (fun p => (p.1, p.2.sort)) ++
    m.root.toList.map (fun p => (p.1, BasicSort.real))).Nodup
  known : ∀ p ∈ m.scalars, p.2.isKnown m.rootValue = true
  arrays : (m.arrays.map fun e => (e.1, e.2.1)).Nodup
  tables : ∀ e ∈ m.arrays, e.2.2.isConsistent m.rootValue e.2.1 = true
  quotients : m.integerQuotients.isConsistent m.rootValue .int = true
  remainders : m.remainders.isConsistent m.rootValue .int = true
  reals : ∀ e ∈ m.realQuotients, e.1.sort = .real ∧ e.2.sort = .real
  real : ∀ x ∈ m.realQuotient, x.sort = .real
  apart : (m.realQuotients.map Prod.fst).Pairwise fun a b =>
    (a.enclosure m.rootValue).isApart (b.enclosure m.rootValue) = true

/-- What is tested of a model makes it consistent. -/
theorem consistent_of_isConsistent (h : m.isConsistent = true) : m.Consistent := by
  simp only [isConsistent, Bool.and_eq_true, decide_eq_true_eq, List.all_eq_true,
    Option.all_eq_true, areApart] at h
  obtain ⟨⟨⟨⟨⟨⟨⟨⟨⟨h₁, h₂⟩, h₃⟩, h₄⟩, h₅⟩, h₆⟩, h₇⟩, h₈⟩, h₉⟩, h₁₀⟩ := h
  exact {
    isolated := h₁
    scalars := h₂
    known := h₃
    arrays := h₄
    tables := h₅
    quotients := h₆
    remainders := h₇
    reals := fun e he => ⟨(h₈ e he).1.1.1, (h₈ e he).1.1.2⟩
    real := fun x hx => (h₉ x hx).1
    apart := h₁₀ }

/-! ### What a model says, as formulas -/

/-- The term of the root is real. -/
theorem sorted_rootTerm (m : Model) (d : Nat) : Sorted d m.rootTerm .real := by
  unfold rootTerm
  split
  · exact .const
  · exact .real

/-- The facts about the root are well sorted. -/
theorem sorted_rootFacts {name : String} {r : Root} :
    ∀ f ∈ rootFacts name r, Sorted 0 f .bool := by
  have hx : Sorted 0 (.const name .real) .real := .const
  intro f hf
  simp only [rootFacts, List.mem_cons, List.not_mem_nil, or_false] at hf
  rcases hf with rfl | rfl | rfl
  · exact .eq (Scalar.sorted_polynomialTerm hx _) .real
  · exact .comparison rfl rfl .real hx
  · exact .comparison rfl rfl hx .real

/-- The facts about quotients of reals by zero are well sorted. -/
theorem sorted_realQuotientFacts (hm : m.Consistent) :
    ∀ f ∈ m.realQuotientFacts, Sorted 0 f .bool := by
  intro f hf
  unfold realQuotientFacts at hf
  split at hf
  · cases hf
  · next x hx =>
    rw [List.mem_singleton] at hf
    subst hf
    have hp : Sorted 1 (.toReal (.bound 0)) .real := .toReal (.bound Nat.zero_lt_one)
    refine .quantified ?_
    have hreals := hm.reals
    generalize m.realQuotients = l at hreals
    induction l with
    | nil =>
      exact ValueTable.sorted_readFact (m.sorted_rootTerm 1)
        (by rw [hm.real x hx]; exact .rdiv hp .real)
    | cons e l ih =>
      obtain ⟨he, hreals⟩ := List.forall_mem_cons.1 hreals
      have ha := Scalar.sorted_term (m.sorted_rootTerm 1) e.1
      rw [he.1] at ha
      exact .connective rfl (.eq hp ha) (ih hreals)

/-- What a consistent model says are closed formulas. -/
theorem sorted_of_mem_facts (hm : m.Consistent) : ∀ f ∈ m.facts, Sorted 0 f .bool := by
  intro f hf
  have hr (d : Nat) := m.sorted_rootTerm d
  simp only [facts, List.mem_append] at hf
  rcases hf with (((((hf | hf) | hf) | hf) | hf) | hf) | hf
  · split at hf
    · exact sorted_rootFacts f hf
    · cases hf
  · obtain ⟨p, -, rfl⟩ := List.mem_map.1 hf
    exact ValueTable.sorted_readFact (hr 0) .const
  · obtain ⟨e, he, hf⟩ := List.mem_flatMap.1 hf
    exact ValueTable.sorted_of_mem_facts (hm.tables e he) hr (fun hu => .select .const hu) f hf
  · exact ValueTable.sorted_of_mem_facts hm.quotients hr (fun hu => .integral rfl hu .int) f hf
  · exact ValueTable.sorted_of_mem_facts hm.remainders hr (fun hu => .integral rfl hu .int) f hf
  · obtain ⟨e, he, rfl⟩ := List.mem_map.1 hf
    obtain ⟨ha, hx⟩ := hm.reals e he
    have ha' := Scalar.sorted_term (hr 0) e.1
    have hx' := Scalar.sorted_term (hr 0) e.2
    rw [ha] at ha'
    rw [hx] at hx'
    exact .eq (.rdiv ha' .real) hx'
  · exact sorted_realQuotientFacts hm f hf

/-! ### What a model says is true where values are read off it -/

/-- The root lies between its ends. -/
theorem rootValue_contains (hρ : m.IsRoot ρ) :
    (⟨m.rootValue.low, m.rootValue.high⟩ : Enclosure).Contains ρ := by
  unfold IsRoot at hρ
  unfold rootValue
  split at hρ
  · next name r hr =>
    rw [hr]
    exact ⟨hρ.1.le, hρ.2.1.le⟩
  · next hr =>
    rw [hr]
    simp [Enclosure.Contains, hρ]

/-- The root's polynomial vanishes at it. -/
theorem evaluateAt_rootValue (hρ : m.IsRoot ρ) :
    Univariate.evaluateAt m.rootValue.coefficients ρ = 0 := by
  unfold IsRoot at hρ
  unfold rootValue
  split at hρ
  · next name r hr =>
    rw [hr]
    exact hρ.2.2
  · next hr =>
    rw [hr]
    simp [Univariate.evaluateAt, hρ]

/-- The quotient of a real by zero is the one that is chosen for it. -/
theorem rdiv_zero_denote {u : Term} {env : List Int} {z : ℝ}
    (hu : u.denote (m.interpretation ρ) env = .real z) :
    (Term.app .rdiv u (.real 0)).denote (m.interpretation ρ) env =
      .real ((m.interpretation ρ).realQuotientByZero z) := by
  simp [Term.denote, TermOp.denote, hu, Interpretation.rdiv]

section
variable (hm : m.Consistent) (hρ : m.IsRoot ρ)
include hm

/-- A constant that the model gives a value has it. -/
theorem constant_of_mem {e : (String × BasicSort) × Meaning} (he : e ∈ m.scalarEntries ρ)
    (hs : e.2.sort = .basic e.1.2) :
    (m.interpretation ρ).constant e.1.1 (.basic e.1.2) = e.2 := by
  have hnd : ((m.scalarEntries ρ).map Prod.fst).Nodup := by
    simpa [scalarEntries, Function.comp_def] using hm.scalars
  have hfind := find?_of_nodup hnd he
  simp only [Interpretation.constant, interpretation, Meaning.ofSort, hfind]
  exact Meaning.ofBasic_toBasic hs

/-- The values of an array that the model gives a table. -/
theorem select_denote {e : String × BasicSort × ValueTable} (he : e ∈ m.arrays) {u : Term}
    {env : List Int} {i : Int} (hu : u.denote (m.interpretation ρ) env = .int i) :
    (Term.app .select (.const e.1 (.array e.2.1)) u).denote (m.interpretation ρ) env =
      .ofBasic e.2.1 (e.2.2.read ρ e.2.1 i) := by
  have hnd : ((m.arrays.map fun e => ((e.1, e.2.1), e.2.2)).map Prod.fst).Nodup := by
    simpa [Function.comp_def] using hm.arrays
  have hfind := find?_of_nodup hnd (List.mem_map_of_mem he)
  have hc : (m.interpretation ρ).constant e.1 (.array e.2.1) =
      .array e.2.1 fun i => e.2.2.read ρ e.2.1 i := by
    simp only [Interpretation.constant, interpretation, Meaning.ofSort, hfind]
  rw [Term.denote, Term.denote, hc, hu]
  rfl

include hρ

/-- The term of the root denotes the root. -/
theorem denote_rootTerm (env : List Int) :
    m.rootTerm.denote (m.interpretation ρ) env = .real ρ := by
  unfold IsRoot at hρ
  unfold rootTerm
  split
  · next name r hr =>
    refine constant_of_mem hm (e := ((name, .real), .real ρ)) ?_ rfl
    simp [scalarEntries, hr]
  · next hr =>
    rw [hr] at hρ
    simp [Term.denote, show ρ = 0 from hρ]

/-- The facts about the root hold in the interpretation of the model. -/
theorem rootFacts_hold {name : String} {r : Root} (hr : m.root = some (name, r)) :
    ∀ f ∈ rootFacts name r, f.Holds (m.interpretation ρ) := by
  have hx : (Term.const name .real).denote (m.interpretation ρ) [] = .real ρ := by
    have := denote_rootTerm hm hρ []
    rwa [rootTerm, hr] at this
  have hroot : r.IsRoot ρ := by
    rwa [IsRoot, hr] at hρ
  obtain ⟨hl, hh, h0⟩ := hroot
  intro f hf
  simp only [rootFacts, List.mem_cons, List.not_mem_nil, or_false] at hf
  rcases hf with rfl | rfl | rfl
  · rw [Term.holds_eq, Scalar.denote_polynomialTerm hx, h0]
    simp [Term.denote]
  · rw [Term.holds_lt, Term.number, Term.number, hx]
    exact hl
  · rw [Term.holds_lt, Term.number, Term.number, hx]
    exact hh

/-- Dividends among the reals differ from each other. -/
theorem realQuotients_pairwise :
    (m.realQuotients.map Prod.fst).Pairwise fun a b =>
      (a.value ρ).number ≠ (b.value ρ).number :=
  hm.apart.imp fun h =>
    Enclosure.ne_of_isApart h (Scalar.enclosure_contains (rootValue_contains hρ) _)
      (Scalar.enclosure_contains (rootValue_contains hρ) _)

/-- The facts about quotients of reals by zero hold in the interpretation of the model. -/
theorem realQuotientFacts_hold : ∀ f ∈ m.realQuotientFacts, f.Holds (m.interpretation ρ) := by
  intro f hf
  unfold realQuotientFacts at hf
  split at hf
  · cases hf
  · next x hx =>
    rw [List.mem_singleton] at hf
    subst hf
    intro i
    have hplace : (Term.toReal (.bound 0)).denote (m.interpretation ρ) [i] = .real i := rfl
    have hroot := denote_rootTerm hm hρ [i]
    show (Term.denote _ _ [i]).truth
    -- the place is one of the dividends, or the quotient is the default
    have hfact (hne : ∀ e ∈ m.realQuotients, (e.1.value ρ).number ≠ i) :
        ((ValueTable.readFact m.rootTerm (.app .rdiv (.toReal (.bound 0)) (.real 0)) x).denote
          (m.interpretation ρ) [i]).truth := by
      refine ValueTable.readFact_holds hroot ?_
      rw [rdiv_zero_denote hplace, Scalar.value_eq_real (hm.real x hx)]
      simp only [interpretation, quotientAt_of_forall_ne hne, hx, Option.map_some, Option.getD_some]
    have hreals := hm.reals
    generalize m.realQuotients = l at hfact hreals
    induction l with
    | nil => exact hfact nofun
    | cons e l ih =>
      obtain ⟨he, hreals⟩ := List.forall_mem_cons.1 hreals
      by_cases hi : (e.1.value ρ).number = i
      · refine .inl ?_
        show Meaning.real i = Term.denote _ _ [i]
        rw [Scalar.denote_term hroot, Scalar.value_eq_real he.1, hi]
      · exact .inr (ih (fun hne => hfact (List.forall_mem_cons.2 ⟨hi, hne⟩)) hreals)

/-- What a consistent model says is true where values are read off it. -/
theorem facts_hold : ∀ f ∈ m.facts, f.Holds (m.interpretation ρ) := by
  intro f hf
  have hr := denote_rootTerm hm hρ
  simp only [facts, List.mem_append] at hf
  rcases hf with (((((hf | hf) | hf) | hf) | hf) | hf) | hf
  · split at hf
    · next name r h => exact rootFacts_hold hm hρ h f hf
    · cases hf
  · obtain ⟨p, hp, rfl⟩ := List.mem_map.1 hf
    refine ValueTable.readFact_holds (hr []) ?_
    exact constant_of_mem hm (e := ((p.1, p.2.sort), p.2.value ρ))
      (List.mem_append_left _ (List.mem_map_of_mem hp)) (Scalar.sort_value ρ p.2)
  · obtain ⟨e, he, hf⟩ := List.mem_flatMap.1 hf
    exact ValueTable.facts_hold (hm.tables e he) hr (fun hu => select_denote hm he hu)
      (fun i x hx => ValueTable.read_eq (hm.tables e he) hx) f hf
  · refine ValueTable.facts_hold (f := fun i => .int ((m.interpretation ρ).quotientByZero i))
      hm.quotients hr (fun hu => ?_) (fun i x hx => ValueTable.read_eq hm.quotients hx) f hf
    simp [Term.denote, TermOp.denote, hu, Interpretation.idiv]
  · refine ValueTable.facts_hold (f := fun i => .int ((m.interpretation ρ).remainderByZero i))
      hm.remainders hr (fun hu => ?_) (fun i x hx => ValueTable.read_eq hm.remainders hx) f hf
    simp [Term.denote, TermOp.denote, hu, Interpretation.mod]
  · obtain ⟨e, he, rfl⟩ := List.mem_map.1 hf
    obtain ⟨ha, hx⟩ := hm.reals e he
    have hq : (m.interpretation ρ).realQuotientByZero (e.1.value ρ).number =
        (e.2.value ρ).number := quotientAt_of_mem (realQuotients_pairwise hm hρ) e he
    rw [Term.holds_eq,
      rdiv_zero_denote ((Scalar.denote_term (hr []) e.1).trans (Scalar.value_eq_real ha)),
      Scalar.denote_term (hr []), Scalar.value_eq_real hx]
    exact congrArg Meaning.real hq
  · exact realQuotientFacts_hold hm hρ f hf

end

/-- The root that a consistent model speaks of exists. -/
theorem exists_isRoot (hm : m.Consistent) : ∃ ρ, m.IsRoot ρ := by
  unfold IsRoot
  split
  · next name r hr => exact Root.exists_isRoot (hm.isolated (name, r) hr)
  · exact ⟨0, rfl⟩

/-- A consistent model describes some interpretation. -/
theorem exists_holds (hm : m.Consistent) :
    ∃ I : Interpretation, ∀ f ∈ m.facts, f.Holds I := by
  obtain ⟨ρ, hρ⟩ := exists_isRoot hm
  exact ⟨m.interpretation ρ, facts_hold hm hρ⟩

end Model

end

end Discharge
