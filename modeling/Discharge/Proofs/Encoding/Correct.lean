import Discharge.Proofs.Encoding.WellSorted
import Discharge.Proofs.Semantics.Expression

/-!
# Encoding preserves meaning

The term of an expression has, under every interpretation, the value that the expression means
(`Defined.denote_encode`). The proof is by the rules of encoding, and for calls by induction on the
definitions: a predicate's body, encoded over the earlier definitions, means what its term says
(`Realizes.accept`).
-/

namespace Discharge

open Term (Sorted)

noncomputable section

/-! ## Operators that widen their operands -/

section
variable {t l r : Term} {d : Nat} {s u : TermSort} (I : Interpretation) (env : List Int)

/-- Widening is left out where it changes nothing. -/
theorem Meaning.widen_of_ne {v : Meaning} (h : v.sort ≠ .int) : v.widen = v := by
  cases v with
  | int n => exact absurd rfl h
  | real | bool | array => rfl

/-- A term that is widened to a sort denotes the widened value. -/
theorem Term.Sorted.denote_coerce (h : Sorted d t s) :
    (t.coerce u).denote I env = if u = .real then (t.denote I env).widen else t.denote I env := by
  unfold Term.coerce
  rw [h.sortOf_eq]
  by_cases hu : u = .real
  · by_cases hs : s = .int
    · simp [hu, hs, Term.denote]
    · simp [hu, hs, Meaning.widen_of_ne (show (t.denote I env).sort ≠ .int by rwa [h.sort_denote])]
  · simp [hu]

/-- Balanced operands are widened beside each other. -/
theorem Term.Sorted.denote_balance (hl : Sorted d l s) (hr : Sorted d r u) :
    (Term.balance l r).1.denote I env = (l.denote I env).widenBeside (r.denote I env) ∧
      (Term.balance l r).2.denote I env = (r.denote I env).widenBeside (l.denote I env) := by
  simp only [Term.balance, Meaning.widenBeside, hl.denote_coerce I env, hr.denote_coerce I env,
    hl.sort_denote, hr.sort_denote, hl.sortOf_eq, hr.sortOf_eq, and_self]

/-- A comparison from the other side denotes the same with its sides exchanged. -/
theorem TermOp.denote_flip {op : TermOp} (ho : op.isComparison = true ∨ op = .eq)
    (v w : Meaning) : op.flip.denote I v w = op.denote I w v := by
  rcases ho with ho | rfl
  · cases op <;> first | rfl | cases ho
  · exact congrArg Meaning.bool (propext eq_comm)

/-- A comparison compares the widened operands, on whichever sides they are written. -/
theorem Term.Sorted.denote_compare {op : TermOp} (ho : op.isComparison = true ∨ op = .eq)
    (hl : Sorted d l s) (hr : Sorted d r u) :
    (Term.compare op l r).denote I env =
      op.denote I ((l.denote I env).widenBeside (r.denote I env))
        ((r.denote I env).widenBeside (l.denote I env)) := by
  obtain ⟨h₁, h₂⟩ := hl.denote_balance I env hr
  simp only [Term.compare]
  split
  · simp only [Term.denote, TermOp.denote_flip I ho, h₁, h₂]
  · simp only [Term.denote, h₁, h₂]

/-- An arithmetic term denotes the operator's value on the operands, each widened beside the other.
-/
theorem Term.Sorted.denote_arithmetic {op : TermOp} (hl : Sorted d l s) (hr : Sorted d r u) :
    (Term.arithmetic op l r).denote I env =
      op.denote I ((l.denote I env).widenBeside (r.denote I env))
        ((r.denote I env).widenBeside (l.denote I env)) := by
  obtain ⟨h₁, h₂⟩ := hl.denote_balance I env hr
  simp only [Term.arithmetic, Term.denote, h₁, h₂]

/-- Division is that of integers if both operands are, else that of reals. -/
theorem Term.Sorted.denote_division (hl : Sorted d l s) (hr : Sorted d r u)
    (hs : s.isArithmetic = true) (hu : u.isArithmetic = true) :
    (Term.division l r).denote I env = I.quotient (l.denote I env) (r.denote I env) := by
  obtain ⟨h₁, h₂⟩ := hl.denote_balance I env hr
  have hsl := hl.sort_denote I env
  have hsr := hr.sort_denote I env
  simp only [Term.division, Term.denote, h₁, h₂, (hl.balance hr hs hu).1.sortOf_eq,
    Interpretation.quotient, Meaning.widenBeside, hsl, hsr]
  have hwl (h : s = .real) : (l.denote I env).widen = l.denote I env :=
    Meaning.widen_of_ne (by rw [hsl, h]; decide)
  have hwr (h : u = .real) : (r.denote I env).widen = r.denote I env :=
    Meaning.widen_of_ne (by rw [hsr, h]; decide)
  rcases TermSort.isArithmetic_iff.1 hs with rfl | rfl <;>
    rcases TermSort.isArithmetic_iff.1 hu with rfl | rfl
  · rfl
  · simp [TermSort.widest, TermOp.denote, hwr]
  · simp [TermSort.widest, TermOp.denote, hwl]
  · simp [TermSort.widest, TermOp.denote, hwl, hwr]

/-- Equality compares the widened operands. -/
theorem Term.Sorted.denote_equality (hl : Sorted d l s) (hr : Sorted d r u)
    (h : s = u ∨ s.isArithmetic = true ∧ u.isArithmetic = true) :
    (Term.equality l r).denote I env = .bool ((l.denote I env).alike (r.denote I env)) := by
  have hsl := hl.sort_denote I env
  have hsr := hr.sort_denote I env
  unfold Term.equality
  rw [hl.sortOf_eq]
  split
  · exact hl.denote_compare I env (.inr rfl) hr
  · next hs =>
    obtain rfl : s = u := h.resolve_right fun h => hs h.1
    have hreal : s ≠ .real := fun e => hs (e ▸ rfl)
    simp only [Meaning.alike, Meaning.widenBeside, hsl, hsr, hreal, if_false]
    split
    · unfold Term.iff
      split
      · exact congrArg Meaning.bool (propext eq_comm)
      · rfl
    · rfl

/-- Equality of formulas is their equivalence. -/
theorem Term.Sorted.denote_iff (hl : Sorted d l .bool) (hr : Sorted d r .bool) :
    (Term.iff l r).denote I env = Meaning.connect Iff (l.denote I env) (r.denote I env) := by
  have h := Meaning.truth_inj (hl.sort_denote I env) (hr.sort_denote I env)
  unfold Term.iff
  split
  · exact congrArg Meaning.bool (propext (eq_comm.trans h))
  · exact congrArg Meaning.bool (propext h)

end

/-! ## What operators build -/

section
variable {op : BinOp} {build : Term → Term → Term} {d : Nat} {l r : Term} (I : Interpretation)
  (env : List Int)

/-- A connective denotes its meaning on the values of its operands. -/
theorem denote_of_booleans (h : op.rule = .booleans build) (hl : Sorted d l .bool)
    (hr : Sorted d r .bool) :
    (build l r).denote I env = op.meaning I (l.denote I env) (r.denote I env) := by
  cases op with
  | and | or | implies => cases h; rfl
  | iff => cases h; exact hl.denote_iff I env hr
  | _ => cases h

/-- An equality denotes its meaning on the values of its operands. -/
theorem denote_of_alike (h : op.rule = .alike build) {s t : TermSort} (hl : Sorted d l s)
    (hr : Sorted d r t) (hs : s = t ∨ s.isArithmetic = true ∧ t.isArithmetic = true) :
    (build l r).denote I env = op.meaning I (l.denote I env) (r.denote I env) := by
  cases op with
  | eq => cases h; exact hl.denote_equality I env hr hs
  | ne => cases h; exact congrArg Meaning.not (hl.denote_equality I env hr hs)
  | _ => cases h

/-- A remainder denotes its meaning on the values of its operands. -/
theorem denote_of_integers (h : op.rule = .integers build) :
    (build l r).denote I env = op.meaning I (l.denote I env) (r.denote I env) := by
  cases op with
  | mod => cases h; rfl
  | _ => cases h

/-- An arithmetic operator or a comparison denotes its meaning on the values of its operands. -/
theorem denote_of_numbers (h : op.rule = .numbers build) {s t : TermSort} (hl : Sorted d l s)
    (hr : Sorted d r t) (hs : s.isArithmetic = true) (ht : t.isArithmetic = true) :
    (build l r).denote I env = op.meaning I (l.denote I env) (r.denote I env) := by
  cases op with
  | mul | add | sub => cases h; exact hl.denote_arithmetic I env hr
  | div | floatDiv => cases h; exact hl.denote_division I env hr hs ht
  | lt | le | gt | ge =>
    cases h
    rw [hl.denote_compare I env (.inl rfl) hr]
    simp only [TermOp.denote, BinOp.meaning, Meaning.compare, Meaning.number_widenBeside]
  | _ => cases h

end

/-! ## Calls -/

/-- Each definition has the meaning that the table gives its name. -/
def Realizes (P : String → Option PredicateMeaning) (ds : Definitions) : Prop :=
  ∀ {name d}, ds.lookup? name = some d →
    ∃ p, P name = some p ∧ p.formals = d.formals ∧ ∀ I, p.holds I ↔ d.body.Holds I

/-- Giving a parameter's constant a value widens it already. -/
theorem Term.Sorted.bind_coerce {t : Term} {s : TermSort} (h : Sorted 0 t s)
    (I J : Interpretation) (c : String × BasicSort) (rest : List ((String × BasicSort) × Meaning)) :
    I.bind ((c, (t.coerce (.basic c.2)).denote J []) :: rest) =
      I.bind ((c, t.denote J []) :: rest) := by
  simp only [Interpretation.bind, h.denote_coerce J []]
  split
  · next hc =>
    obtain ⟨name, s'⟩ := c
    cases hc
    rcases t.denote J [] with _ | _ | _ | _ <;> rfl
  · rfl

/-- Actual arguments give the parameters' constants the meanings of the arguments. -/
theorem Actuals.bind {P : String → Option PredicateMeaning}
    {formals : List (String × BasicSort)} {args : List Exp} {σ : Term.Substitution}
    {Q : Exp → Term → Prop} (h : Actuals Q formals args σ) (I : Interpretation)
    (hQ : ∀ {e t}, Q e t → (∃ s, Sorted 0 t s) ∧ t.denote I [] = e.meaning P I) :
    I.bind (σ.values I) = I.bind (formals.zip (Exp.meanings P args I)) := by
  induction h with
  | nil => rfl
  | @cons arg a formals args σ formal ha hf _ ih =>
    obtain ⟨⟨s, hs⟩, hm⟩ := hQ ha
    simp only [Term.Substitution.values, List.map_cons, Exp.meanings, List.zip_cons_cons]
    rw [hs.bind_coerce I I]
    simp only [Interpretation.bind, hm]
    exact congrArg (Interpretation.set · _ _ _) ih

/-! ## Expressions -/

/-- Over definitions that mean what the table says, the rules of encoding preserve meaning. -/
theorem Definitions.WellSorted.meaning_rules {ds : Definitions} (hd : ds.WellSorted)
    {P : String → Option PredicateMeaning} (hP : Realizes P ds) :
    EncodingRules ds fun e t => ∀ I, t.denote I [] = e.meaning P I where
  var {v t} h I := by
    obtain ⟨s, hs, h⟩ := bind_eq_ok.1 h
    cases h
    simp only [Exp.meaning, Variable.meaning, Ty.encodeSort] at hs ⊢
    split at hs <;> cases hs
    next hs => rw [hs]; rfl
  int _ _ := rfl
  float h _ := by simp only [Exp.meaning, h]; rfl
  bool _ := rfl
  call {name ps body args d σ} hl hσ I := by
    obtain ⟨p, hp, hf, hb⟩ := hP hl
    obtain ⟨entry, he, rfl⟩ := mem_of_lookup? hl
    have hs : σ.Sorted := hσ.sorted fun h => hd.encode h.1
    have hbind := hσ.bind (P := P) I fun h => ⟨hd.encode h.1, h.2 I⟩
    obtain ⟨q, hq⟩ := Meaning.exists_bool ((hd entry he).sort_denote (I.bind (σ.values I)) [])
    simp only [Exp.meaning, hp]
    rw [(hd entry he).denote_substitute hs, hf, ← hbind, hq]
    refine congrArg Meaning.bool (propext ?_)
    rw [hb, Term.Holds, hq]
    rfl
  sub _ ha _ hi _ _ I := by simp only [Term.denote, Exp.meaning, ha, hi]; rfl
  upd {array index value length a i v s} hea ha _ hi hev hv hsa _ _ I := by
    obtain ⟨u, hu⟩ := hd.encode hev
    obtain ⟨f, hf⟩ := Meaning.exists_array ((Sorted.of_sortOf (hd.encode hea) hsa).sort_denote I [])
    -- an integer stored in an array of reals is widened by the term or by the array
    simp only [Term.denote, Exp.meaning, ← ha, ← hi, ← hv, hu.denote_coerce I [], hf]
    split
    · next hs =>
      cases hs
      rcases v.denote I [] with _ | _ | _ | _ <;> rcases i.denote I [] with _ | _ | _ | _ <;> rfl
    · rfl
  not _ ha _ I := congrArg Meaning.not (ha I)
  neg _ ha _ I := congrArg Meaning.neg (ha I)
  booleans hop hel hl her hr hsl hsr I := by
    rw [denote_of_booleans I [] hop (.of_sortOf (hd.encode hel) hsl)
      (.of_sortOf (hd.encode her) hsr), hl, hr]
    rfl
  alike hop hel hl her hr hs I := by
    rw [denote_of_alike I [] hop (.of_sortOf (hd.encode hel) rfl) (.of_sortOf (hd.encode her) rfl)
      hs, hl, hr]
    rfl
  integers hop _ hl _ hr _ _ I := by
    rw [denote_of_integers I [] hop, hl, hr]
    rfl
  numbers hop hel hl her hr hsl hsr I := by
    rw [denote_of_numbers I [] hop (.of_sortOf (hd.encode hel) rfl)
      (.of_sortOf (hd.encode her) rfl) hsl hsr, hl, hr]
    rfl
  quantified {kind names body b} he hb hs I := by
    have hb' : Sorted 0 b .bool := .of_sortOf (hd.encode he) hs
    have hq := hb'.holds_quantify I kind (names.map constantName)
    obtain ⟨q, hq'⟩ :=
      Meaning.exists_bool ((hb'.quantify kind (names.map constantName)).sort_denote I [])
    rw [Term.Holds, hq'] at hq
    rw [hq']
    simp only [Exp.meaning, ← hb]
    exact congrArg Meaning.bool (propext hq)
  len h I := by
    obtain ⟨v, hv, -, rfl⟩ := encodeLength_eq_ok h
    simp only [Exp.meaning, hv]; rfl

/-! ## Definitions -/

/-- The parameters of an accepted predicate are its variables, all of them atomic. -/
theorem Definitions.formals_eq_ok {predicate : String} :
    ∀ {vs : List Variable} {fs : List (String × BasicSort)}, formals predicate vs = .ok fs →
      fs = vs.filterMap Variable.formal?
  | [], _, h => by cases h; rfl
  | v :: vs, _, h => by
    simp only [formals] at h
    split at h
    · cases h
    · next s hs =>
      obtain ⟨rest, hr, h⟩ := bind_eq_ok.1 h
      cases h
      rw [List.filterMap_cons_some (b := (constantName v.name, s)) (by simp [Variable.formal?, hs]),
        formals_eq_ok hr]

/-- The definition that is found after one more was added. -/
theorem Definitions.lookup?_add {ds : Definitions} {name name' : String} {d : Definition}
    (hn : ds.lookup? name = none) :
    (ds.add name d).lookup? name' = if name = name' then some d else ds.lookup? name' := by
  simp only [lookup?, add, List.find?_append, Option.map_eq_none_iff] at hn ⊢
  split
  · next h => subst h; simp [hn]
  · next h => simp [h]

/-- A definition means what its predicate does if the earlier definitions do. -/
theorem Realizes.accept {ds ds' : Definitions} {ps : List Predicate} {p : Predicate}
    (hd : ds.WellSorted) (hP : Realizes (PredicateMeaning.table ps) ds)
    (hp : ds.define p = .ok ds') : Realizes (PredicateMeaning.table (p :: ps)) ds' := by
  obtain ⟨hn, fs, body, hfs, hb, -, rfl⟩ := Definitions.define_eq_ok hp
  intro name d hl
  rw [Definitions.lookup?_add hn] at hl
  simp only [PredicateMeaning.table]
  by_cases hname : p.name = name
  · rw [if_pos hname] at hl ⊢
    cases hl
    refine ⟨_, rfl, (Definitions.formals_eq_ok hfs).symm, fun I => ?_⟩
    rw [Term.Holds, (hd.meaning_rules hP).holds p.body hb I]
  · rw [if_neg hname] at hl ⊢
    exact hP hl

/-- Definitions mean what the accepted predicates do. -/
theorem Defined.realizes {ps : List Predicate} {ds : Definitions} (h : Defined ps ds) :
    Realizes (PredicateMeaning.table ps) ds := by
  induction h with
  | empty => exact fun hl => nomatch hl
  | accept h hp ih => exact ih.accept h.wellSorted hp
  | refuse _ _ ih => exact ih

/-- Encoding preserves meaning: over definitions that any attempts to define predicates lead to, the
term of an expression has under every interpretation the value that the expression means. -/
theorem Defined.denote_encode {ps : List Predicate} {ds : Definitions} (h : Defined ps ds)
    {e : Exp} {t : Term} (he : e.encode ds = .ok t) (I : Interpretation) :
    t.denote I [] = e.meaning (PredicateMeaning.table ps) I :=
  (h.wellSorted.meaning_rules h.realizes).holds e he I

/-- A predicate that compares its real parameter `x` with the integer `y`, called with the integer
`n`: both sides are widened, and `y` is the one at the call. -/
theorem denote_encode_above :
    let above : Predicate :=
      ⟨"above", [.plain "x" .float], .bin .gt (.var (.plain "x" .float)) (.var (.plain "y" .int))⟩
    let call := above.call [.var (.plain "n" .int)]
    ∃ ds, Definitions.empty.define above = .ok ds ∧
      call.encode ds =
        .ok (.app .gt (.toReal (.const "n" .int)) (.toReal (.const "y" .int))) ∧
      ∀ I, Term.denote I (.app .gt (.toReal (.const "n" .int)) (.toReal (.const "y" .int))) [] =
        call.meaning (PredicateMeaning.table [above]) I :=
  ⟨⟨[("above", ⟨.app .gt (.const "x" .real) (.toReal (.const "y" .int)), [("x", .real)]⟩)]⟩,
    rfl, rfl, fun I => Defined.denote_encode (.accept .empty rfl) rfl I⟩

end

end Discharge
