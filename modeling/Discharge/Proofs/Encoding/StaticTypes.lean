import Discharge.Proofs.Encoding.Parts
import Discharge.Proofs.Syntax.RoundTrip

/-!
# Static types and sorts

Three recursions look at the types of an expression: `Exp.typeOf`, the reader where it chooses
between integer and real division, and the encoder. On what is read and encoded they agree: every
part outside the arguments of lengths has a static type, whose sort is that of its term, and a
division is real where it was read as one (`Defined.static_types`).
-/

namespace Discharge

/-! ## Divisions as they are read -/

/-- A division has the operator that the types of its operands choose. -/
def Exp.Divides : Exp → Prop
  | .bin op left right => op = .div ∨ op = .floatDiv → divisionOf left right = .ok op
  | _ => True

variable {ds : Definitions} {ps : List Predicate} {scope : Scope} {e part : Exp} {st : Stratum}
  {o : Bool} {l : List Token} {t u : Tree} {op : BinOp}

/-- All exposed divisions are as they are read. -/
def Exp.Disambiguated (e : Exp) : Prop := ∀ part, e.Exposes part → part.Divides

/-- An expression has its divisions as they are read if it has itself and all its parts have. -/
theorem Exp.Disambiguated.intro (he : e.Divides) (h : ∀ part ∈ e.parts, part.Disambiguated) :
    e.Disambiguated := by
  intro part hp
  rcases hp.head with rfl | ⟨o, ho, hp⟩
  · exact he
  · exact h o.2 (mem_parts_of_operand ho) part hp

/-- An operand has its divisions as they are read if the whole has. -/
theorem Exp.Disambiguated.operand (h : e.Disambiguated) {place : Place}
    (ho : (place, part) ∈ e.operands) : part.Disambiguated :=
  fun _ hp => h _ (.of_operand ho hp)

/-- An exposed part has its divisions as they are read if the whole has. -/
theorem Exp.Disambiguated.exposed (h : e.Disambiguated) (hp : e.Exposes part) :
    part.Disambiguated := by
  induction hp with
  | self => exact h
  | operand _ ho ih => exact ih.operand ho

/-- Both sides of a binary expression have their divisions as they are read if the whole has. -/
theorem Exp.Disambiguated.sides {left right : Exp} (h : (Exp.bin op left right).Disambiguated) :
    left.Disambiguated ∧ right.Disambiguated := by
  obtain ⟨p, hp⟩ := Exp.mem_parts.1 (by simp : left ∈ (Exp.bin op left right).parts)
  obtain ⟨q, hq⟩ := Exp.mem_parts.1 (by simp : right ∈ (Exp.bin op left right).parts)
  exact ⟨h.operand hp, h.operand hq⟩

/-- An operator of the grammar is resolved as a division only by the types of its operands. -/
theorem Resolves.divides {k : Nat} (hop : op ∈ operatorsAt k)
    (h : Resolves ps scope (.bin op t u) e) : e.Divides := by
  cases h with
  | bin _ hdiv =>
    rintro (rfl | rfl)
    · exact absurd rfl hdiv
    · exact absurd (mem_operatorsAt.1 hop) nofun
  | division _ ho => exact fun _ => ho

/-- A binary expression has its divisions as they are read if the operands that it is resolved from
have. -/
theorem Exp.Disambiguated.of_bin {k : Nat} (hop : op ∈ operatorsAt k)
    (h : Resolves ps scope (.bin op t u) e)
    (ht : ∀ {e}, Resolves ps scope t e → e.Disambiguated)
    (hu : ∀ {e}, Resolves ps scope u e → e.Disambiguated) : e.Disambiguated := by
  obtain ⟨o, a, b, rfl, -, ha, hb⟩ := h.of_bin
  refine .intro (h.divides hop) ?_
  rw [Exp.parts_bin]
  exact List.forall_mem_cons.2 ⟨ht ha, List.forall_mem_singleton.2 (hu hb)⟩

/-- An expression without parts has its divisions as they are read if it is no division itself. -/
theorem Exp.Disambiguated.of_leaf (he : e.Divides) (h : e.parts = []) : e.Disambiguated :=
  .intro he (by rw [h]; exact List.forall_mem_nil _)

/-- The divisions in what was read are chosen by types. -/
theorem Derives.disambiguated (h : Derives st o l t) (hr : Resolves ps scope t e) :
    e.Disambiguated := by
  induction h generalizing scope e with
  | float | int | truth | name | len => cases hr; exact .of_leaf trivial rfl
  | call n parts _ ih =>
    cases hr with
    | call _ p _ has =>
      refine .intro trivial fun part hpart => ?_
      rw [Predicate.call, Exp.parts_call] at hpart
      obtain ⟨k, hk, rfl⟩ := List.getElem_of_mem hpart
      have hku := has.forall₂.length_eq ▸ hk
      obtain ⟨q, hq, hqk⟩ := List.mem_map.1 (List.getElem_mem hku)
      have hres := has.forall₂.get hku hk
      rw [List.get_eq_getElem, List.get_eq_getElem, ← hqk] at hres
      exact ih q hq hres
  | paren _ ih | operand _ ih | tighter _ ih => exact ih hr
  | sub _ _ iha ihi =>
    cases hr with
    | sub ha hi =>
      exact .intro trivial
        (List.forall_mem_cons.2 ⟨iha ha, List.forall_mem_singleton.2 (ihi hi)⟩)
  | upd _ _ _ iha ihi ihv =>
    cases hr with
    | upd length ha hi hb =>
      exact .intro trivial (List.forall_mem_cons.2 ⟨iha ha, List.forall_mem_cons.2
        ⟨ihi hi, List.forall_mem_singleton.2 (ihv hb)⟩⟩)
  | not _ ih =>
    cases hr with
    | not ha => exact .intro trivial (List.forall_mem_singleton.2 (ih ha))
  | neg _ ih =>
    cases hr with
    | neg ha => exact .intro trivial (List.forall_mem_singleton.2 (ih ha))
  | quantified _ _ _ _ ih =>
    cases hr with
    | quantified _ _ hb => exact .intro trivial (List.forall_mem_singleton.2 (ih hb))
  | left hop _ _ _ ihx ihy => exact .of_bin hop hr ihx ihy
  | right _ _ ihx ihy => exact .of_bin (k := implicationLevel) (by decide) hr ihx ihy

/-! ## Types and sorts -/

/-- The type of a number computed from two numbers has the wider of their sorts. -/
theorem Ty.HasSort.widest {a b : Ty} {s t : TermSort} (ha : a.HasSort s) (hb : b.HasSort t)
    (hs : s.isArithmetic = true) (ht : t.isArithmetic = true) :
    (if a = .float || b = .float then Ty.float else .int).HasSort (s.widest t) := by
  rcases TermSort.isArithmetic_iff.1 hs with rfl | rfl <;>
    rcases TermSort.isArithmetic_iff.1 ht with rfl | rfl <;> cases ha <;> cases hb <;> constructor

/-- Where the types of the operands choose an operator, it is real division if one of them is
`float`. -/
theorem divisionOf_eq_ok {left right : Exp} (h : divisionOf left right = .ok op) :
    ∃ a b, left.typeOf = .ok a ∧ right.typeOf = .ok b ∧
      op = if a = .float || b = .float then .floatDiv else .div := by
  unfold divisionOf at h
  split at h
  · cases h
  · next a ha =>
    split at h
    · cases h
    · next b hb => cases h; exact ⟨a, b, ha, hb, rfl⟩

/-- The static type of an application. -/
theorem Exp.typeOf_bin {left right : Exp} {a b : Ty} {r s t : TermSort}
    (hdiv : (Exp.bin op left right).Divides) (h : op.HasSignature s t r)
    (ha : left.typeOf = .ok a) (has : a.HasSort s) (hb : right.typeOf = .ok b)
    (hbs : b.HasSort t) : ∃ c, (Exp.bin op left right).typeOf = .ok c ∧ c.HasSort r := by
  have hplain (hp : op.isPlainArithmetic = true) (hs : s.isArithmetic = true)
      (ht : t.isArithmetic = true) :
      ∃ c, (Exp.bin op left right).typeOf = .ok c ∧ c.HasSort (s.widest t) := by
    have hfd : op ≠ .floatDiv := by rintro rfl; cases hp
    have hmod : op ≠ .mod := by rintro rfl; cases hp
    refine ⟨_, ?_, has.widest hbs hs ht⟩
    unfold Exp.typeOf
    rw [if_neg hfd, if_neg hmod, if_pos hp, ha, hb]
    rfl
  cases h with
  | connective ho | equality ho | comparison ho =>
    cases op <;> first | exact ⟨_, rfl, .bool⟩ | cases ho
  | remainder => exact ⟨_, rfl, .int⟩
  | numeric ho hs ht =>
    cases op with
    | mul | add | sub | div => exact hplain rfl hs ht
    | floatDiv =>
      obtain ⟨a', b', ha', hb', hop⟩ := divisionOf_eq_ok (hdiv (.inr rfl))
      cases ha.symm.trans ha'
      cases hb.symm.trans hb'
      have hw := has.widest hbs hs ht
      split at hop
      · next hf => rw [if_pos hf] at hw; exact ⟨_, rfl, hw⟩
      · cases hop
    | _ => cases ho

/-- A subscript of an array has the type of the elements, whatever the index. -/
theorem Exp.typeOf_sub {array : Exp} {base : Ty} (h : array.typeOf = .ok (.array base))
    (index : Exp) : (Exp.sub array index).typeOf = .ok base := by
  unfold Exp.typeOf
  rw [h]
  rfl

/-- An update has the type of its array. -/
theorem Exp.typeOf_upd (array index value : Exp) (length : Variable) :
    (Exp.upd array index value length).typeOf = array.typeOf := by
  rw [Exp.typeOf]

/-- A negative has the type of its operand. -/
theorem Exp.typeOf_neg (arg : Exp) : (Exp.neg arg).typeOf = arg.typeOf := by
  rw [Exp.typeOf]

/-- The static type of an expression with a sort has that sort. -/
theorem Exp.HasSort.typeOf : ∀ {e : Exp} {s : TermSort}, e.HasSort ds s → e.Disambiguated →
    ∃ a, e.typeOf = .ok a ∧ a.HasSort s
  | .var v, _, .var h => fun _ => ⟨v.type, rfl, h⟩
  | .float _, _, .float _ => fun _ => ⟨.float, rfl, .float⟩
  | .int _, _, .int _ | .len _, _, .lenVar _ | .len _, _, .lenUpd _ => fun _ => ⟨.int, rfl, .int⟩
  | .bool _, _, .bool | .call .., _, .call .. | .not _, _, .not _
  | .quantified .., _, .quantified _ => fun _ => ⟨.bool, rfl, .bool⟩
  | .sub array index, _, .sub ha _ => fun hdis => by
    obtain ⟨_, hta, hsa⟩ := ha.typeOf (hdis.operand List.mem_cons_self)
    obtain ⟨base, rfl, hb⟩ := hsa.exists_array
    exact ⟨base, Exp.typeOf_sub hta index, hb⟩
  | .upd array index value length, _, .upd ha _ _ _ => fun hdis => by
    rw [Exp.typeOf_upd]
    exact ha.typeOf (hdis.operand List.mem_cons_self)
  | .neg arg, _, .neg ha _ => fun hdis => by
    rw [Exp.typeOf_neg]
    exact ha.typeOf (hdis.operand List.mem_cons_self)
  | .bin op left right, _, .bin hl hr hsig => fun hdis => by
    obtain ⟨a, hta, hsa⟩ := hl.typeOf hdis.sides.1
    obtain ⟨b, htb, hsb⟩ := hr.typeOf hdis.sides.2
    exact Exp.typeOf_bin (hdis _ .self) hsig hta hsa htb hsb

/-! ## Divisions and their terms -/

/-- Two integers are divided with remainder. -/
theorem Term.division_of_int {l r : Term} (hl : l.sortOf = .int) (hr : r.sortOf = .int) :
    Term.division l r = .app .idiv l r := by
  simp [division, balance, coerce, hl, hr]

/-- Where an operand is real the division is that of reals. -/
theorem Term.division_of_real {l r : Term} (h : l.sortOf = .real ∨ r.sortOf = .real) :
    ∃ a b, Term.division l r = .app .rdiv a b := by
  refine ⟨l.coerce r.sortOf, r.coerce l.sortOf, ?_⟩
  have hne : (l.coerce r.sortOf).sortOf ≠ .int := by
    unfold coerce
    split
    · exact nofun
    · next hc =>
      rcases h with h | h
      · rw [h]; exact nofun
      · rw [h] at hc; simpa using hc
  exact congrArg (fun op => app op _ _) (if_neg hne)

/-- A division of numbers is one of integers or one of real numbers. -/
theorem Term.division_cases {l r : Term} (hl : l.sortOf.isArithmetic = true)
    (hr : r.sortOf.isArithmetic = true) :
    (l.sortOf = .int ∧ r.sortOf = .int) ∧ (∃ a b, Term.division l r = .app .idiv a b) ∨
      (l.sortOf = .real ∨ r.sortOf = .real) ∧ ∃ a b, Term.division l r = .app .rdiv a b := by
  rcases TermSort.isArithmetic_iff.1 hl with hli | hlr
  · rcases TermSort.isArithmetic_iff.1 hr with hri | hrr
    · exact .inl ⟨⟨hli, hri⟩, _, _, division_of_int hli hri⟩
    · exact .inr ⟨.inr hrr, division_of_real (.inr hrr)⟩
  · exact .inr ⟨.inl hlr, division_of_real (.inl hlr)⟩

/-- A division is real exactly if an operand is. -/
theorem Exp.Divides.floatDiv_iff {left right : Exp} {a b : Ty} {s r : TermSort}
    (h : (Exp.bin op left right).Divides) (hop : op = .div ∨ op = .floatDiv)
    (ha : left.typeOf = .ok a) (has : a.HasSort s) (hb : right.typeOf = .ok b)
    (hbr : b.HasSort r) : op = .floatDiv ↔ s = .real ∨ r = .real := by
  obtain ⟨a', b', ha', hb', heq⟩ := divisionOf_eq_ok (h hop)
  cases ha.symm.trans ha'
  cases hb.symm.trans hb'
  rw [heq, ← has.eq_float_iff, ← hbr.eq_float_iff]
  split <;> simp_all

/-- The operands of a division are numbers. -/
theorem BinOp.HasSignature.isArithmetic_of_division {s r u : TermSort}
    (h : op.HasSignature s r u) (hop : op = .div ∨ op = .floatDiv) :
    s.isArithmetic = true ∧ r.isArithmetic = true := by
  cases h with
  | numeric _ hs hr => exact ⟨hs, hr⟩
  | remainder => rcases hop with hop | hop <;> cases hop
  | connective ho | equality ho | comparison ho => rcases hop with rfl | rfl <;> cases ho

/-- Static types, the reader and the encoder agree. Of an expression that was read and is encoded,
every part outside the arguments of lengths has a static type, and the sort of that type is the sort
of the part's term. A division among these parts was read as real exactly if its term is real
division, which it is exactly if an operand's term is real, and as integer division exactly if its
term is, which it is exactly if both operands' terms are integers. -/
theorem Defined.static_types (h : Defined ps ds) {text : String} {declared : List Variable}
    {predicates : List Predicate} {term : Term}
    (hread : Exp.parse text declared predicates = .ok e) (he : e.encode ds = .ok term) :
    (∀ part, e.Exposes part → ∃ a u, part.typeOf = .ok a ∧ part.encode ds = .ok u ∧
      a.sort? = .ok u.sortOf) ∧
    ∀ op left right, e.Exposes (.bin op left right) → op = .div ∨ op = .floatDiv →
      ∃ l r, left.encode ds = .ok l ∧ right.encode ds = .ok r ∧
        (Exp.bin op left right).encode ds = .ok (Term.division l r) ∧
        (op = .floatDiv ↔ ∃ a b, Term.division l r = .app .rdiv a b) ∧
        (op = .floatDiv ↔ l.sortOf = .real ∨ r.sortOf = .real) ∧
        (op = .div ↔ ∃ a b, Term.division l r = .app .idiv a b) ∧
        (op = .div ↔ l.sortOf = .int ∧ r.sortOf = .int) := by
  have hd := h.wellSorted
  have hs := hd.hasSort_of_encode he
  obtain ⟨t, ht, hr⟩ := Exp.parse_eq_ok.1 hread
  obtain ⟨o, hderives, -⟩ := Tree.legible_of_ofText? ht
  -- Only the resolver writes real division, so every division of `e` was chosen by types.
  have hdis : e.Disambiguated := hderives.disambiguated (t.resolves hr)
  refine ⟨fun part hp => ?_, fun op left right hp hop => ?_⟩
  · obtain ⟨s, hps⟩ := hp.hasSort hs
    obtain ⟨a, ha, has⟩ := hps.typeOf (hdis.exposed hp)
    obtain ⟨u, hu, rfl⟩ := hps.encode hd
    exact ⟨a, u, ha, hu, Ty.hasSort_iff.1 has⟩
  · obtain ⟨s, hps⟩ := hp.hasSort hs
    have hdisp := hdis.exposed hp
    cases hps with
    | bin hl hr hsig =>
      obtain ⟨a, hta, hsa⟩ := hl.typeOf hdisp.sides.1
      obtain ⟨b, htb, hsb⟩ := hr.typeOf hdisp.sides.2
      have hreal := (hdisp _ .self).floatDiv_iff hop hta hsa htb hsb
      obtain ⟨hsl, hsr⟩ := hsig.isArithmetic_of_division hop
      obtain ⟨l, hel, rfl⟩ := hl.encode hd
      obtain ⟨r, her, rfl⟩ := hr.encode hd
      have hbin := encode_bin hel her rfl rfl hsig
      have hcombine : op.combine l r = Term.division l r := by rcases hop with rfl | rfl <;> rfl
      refine ⟨l, r, hel, her, hcombine ▸ hbin, ?_⟩
      rcases Term.division_cases hsl hsr with ⟨⟨hli, hri⟩, _, _, hterm⟩ | ⟨hlr, _, _, hterm⟩
      · have hop : op = .div := hop.resolve_right fun hf => by simpa [hli, hri] using hreal.1 hf
        simp [hop, hterm, hli, hri]
      · have hop : op = .floatDiv := hreal.2 hlr
        have hint : ¬ (l.sortOf = .int ∧ r.sortOf = .int) := by
          rintro ⟨hli, hri⟩
          simp [hli, hri] at hlr
        simp [hop, hterm, hlr, hint]

/-- A real division beside a subscript in which integers are divided. -/
theorem static_types_of_subscript :
    let declared : List Variable :=
      [.plain "x" .float, .plain "i" .int, .plain "j" .int, .arrayOf "z" .int]
    let ratio : Exp := .bin .floatDiv (.var (.plain "x" .float)) (.var (.plain "i" .int))
    let index : Exp := .bin .div (.var (.plain "j" .int)) (.var (.plain "i" .int))
    let e : Exp := .bin .gt ratio (.sub (.var (.arrayOf "z" .int)) index)
    Exp.parse "x / i > z[j / i]" declared [] = .ok e ∧
      (∃ a u, ratio.typeOf = .ok a ∧ ratio.encode .empty = .ok u ∧ a.sort? = .ok u.sortOf) ∧
      ∃ l r, index.encode .empty = .ok (Term.division l r) ∧
        ∃ a b, Term.division l r = .app .idiv a b := by
  intro declared ratio index e
  have hread : Exp.parse "x / i > z[j / i]" declared [] = .ok e := by cbv
  obtain ⟨term, he⟩ : ∃ term, e.encode .empty = .ok term := ⟨_, rfl⟩
  have hratio : e.Exposes ratio := .operand .self List.mem_cons_self
  have hsub : e.Exposes (.sub (.var (.arrayOf "z" .int)) index) :=
    .operand .self (List.mem_cons_of_mem _ List.mem_cons_self)
  have hindex : e.Exposes index := hsub.operand (List.mem_cons_of_mem _ List.mem_cons_self)
  obtain ⟨htypes, hdivisions⟩ := Defined.static_types .empty hread he
  obtain ⟨l, r, -, -, henc, -, -, hiff, -⟩ := hdivisions _ _ _ hindex (.inl rfl)
  exact ⟨hread, htypes ratio hratio, l, r, henc, hiff.1 rfl⟩

end Discharge
