import Discharge.Proofs.Encoding.Congruence
import Discharge.Proofs.Encoding.Defects
import Discharge.Proofs.Encoding.Registry
import Discharge.Session

/-!
# Free constants

Where the constants of an expression's term come from. `Exp.Occurs` reaches a part of an expression
through operands and collects the names that quantifiers bind on the way. A constant of the term is
that of a reference or of a length, or one that a called predicate's body has free, at a place where
no quantifier hides it; and the references and lengths outside arguments that nothing hides are
constants of the term (`Exp.keepsNames`).

A quantifier hides the integer constants of its names. It is not their names that count there but
those of their constants, which end before a null character.
-/

namespace Discharge

/-- The constants of a definition's body other than its parameters. -/
def Definition.free (d : Definition) : List (String × TermSort) :=
  d.body.constants.filter fun c => ∀ formal ∈ d.formals, c ≠ (formal.1, .basic formal.2)

/-- Whether the place is that of an argument in a call. -/
def Place.IsActual : Place → Prop
  | .actual _ _ => True
  | _ => False

/-- Whether the constants of what stands at the place get into the term. Those of an argument do if
the predicate's body has its parameter, and no parameter before it is of that name and sort. -/
def Place.IsUsed (ds : Definitions) : Place → Prop
  | .actual name k => ∃ d formal, ds.lookup? name = some d ∧ d.formals.idxOf? formal = some k ∧
      (formal.1, .basic formal.2) ∈ d.body.constants
  | _ => True

namespace Exp

/-! ## Occurrences -/

/-- The names that the expression binds in its operands. -/
def binds : Exp → List String
  | .quantified _ names _ => names
  | _ => []

/-- The variable whose constant is the term of the expression: that of a reference, or the length
variable of a length. -/
def standsFor? : Exp → Option Variable
  | .var v => some v
  | .len arg => arg.length?
  | _ => none

/-- `Occurs via part bound e`: the part stands in `e`, reached through operands at places `via`, under
quantifiers that bind the names `bound`. -/
inductive Occurs (via : Place → Prop) (part : Exp) : List String → Exp → Prop
  | here : Occurs via part [] part
  | inside {bound e place operand} (ho : (place, operand) ∈ e.operands) (hp : via place)
      (h : Occurs via part bound operand) : Occurs via part (e.binds ++ bound) e

end Exp

/-- Under quantifiers that bind the names `bound`, the constant is bound: it is an integer of the name
that `named` gives for one of them. -/
def Hides (named : String → String) (bound : List String) (c : String × TermSort) : Prop :=
  c.2 = .int ∧ c.1 ∈ bound.map named

namespace Exp

/-- A reference or a length in `e`, at a place where no quantifier hides it, has this constant. -/
def Shows (named : String → String) (via : Place → Prop) (e : Exp) (c : String × TermSort) : Prop :=
  ∃ part v bound, Occurs via part bound e ∧ part.standsFor? = some v ∧ v.type.HasSort c.2 ∧
    c.1 = named v.name ∧ ¬ Hides named bound c

/-- A predicate that `e` calls at a place where no quantifier hides the constant has it free. -/
def CallsWith (named : String → String) (ds : Definitions) (e : Exp) (c : String × TermSort) : Prop :=
  ∃ name parameters body args bound d,
    Occurs (fun _ => True) (.call name parameters body args) bound e ∧
      ds.lookup? name = some d ∧ c ∈ d.free ∧ ¬ Hides named bound c

/-- No name gets into the term or out of it: the free constants of the term are those that `e` shows
and those that the predicates it calls have free, and what `e` shows outside arguments is among them.
In a check over definitions without free constants the term has only what `e` shows. -/
structure KeepsNames (named : String → String) (ds : Definitions) (e : Exp) (t : Term) : Prop where
  origin : ∀ c ∈ t.constants, e.Shows named (fun _ => True) c ∨ e.CallsWith named ds c
  kept : ∀ c, e.Shows named (¬ ·.IsActual) c → c ∈ t.constants
  closed : (∀ entry ∈ ds.entries, entry.2.free = []) → ∀ options v, ds.check options e = .ok v →
    ∃ tactic, options.tactic? = some tactic ∧ v = t.verdict tactic ∧
      ∀ c ∈ t.constants, e.Shows named (fun _ => True) c

end Exp

variable {ds : Definitions} {e part operand : Exp} {place : Place} {c : String × TermSort}
  {l r t : Term} {bound : List String} {named : String → String} {via : Place → Prop}

/-! ## Through operands -/

/-- Every place but those of actuals gets its term into the whole. -/
theorem Place.isUsed_of_not_isActual (h : ¬ place.IsActual) : place.IsUsed ds := by
  cases place with
  | actual name k => exact absurd trivial h
  | _ => exact trivial

/-- An occurrence through some places is one through all of more places. -/
theorem Exp.Occurs.imp {via' : Place → Prop} (hvia : ∀ place, via place → via' place)
    (h : Occurs via part bound e) : Occurs via' part bound e := by
  induction h with
  | here => exact .here
  | inside ho hp _ ih => exact .inside ho (hvia _ hp) ih

/-- A constant is hidden by names in two lists if it is hidden by those of one. -/
theorem hides_append {names : List String} :
    Hides named (names ++ bound) c ↔ Hides named names c ∨ Hides named bound c := by
  simp only [Hides, List.map_append, List.mem_append, and_or_left]

/-- Only quantifiers hide anything. -/
theorem not_hides_nil : ¬ Hides named [] c := fun h => List.not_mem_nil h.2

namespace Exp

/-- What an operand shows, the expression does unless it hides it. -/
theorem Shows.of_operand (ho : (place, operand) ∈ e.operands) (hp : via place)
    (h : operand.Shows named via c) (hn : ¬ Hides named e.binds c) : e.Shows named via c := by
  obtain ⟨part, v, bound, hocc, hv, hs, hc, hb⟩ := h
  exact ⟨part, v, _, .inside ho hp hocc, hv, hs, hc, fun hh => (hides_append.1 hh).elim hn hb⟩

/-- A call in an operand is one in the whole, unless the whole binds the constant. -/
theorem CallsWith.of_operand (ho : (place, operand) ∈ e.operands)
    (h : operand.CallsWith named ds c) (hn : ¬ Hides named e.binds c) : e.CallsWith named ds c := by
  obtain ⟨name, parameters, body, args, bound, d, hocc, hd, hc, hb⟩ := h
  exact ⟨name, parameters, body, args, _, d, .inside ho trivial hocc, hd, hc,
    fun hh => (hides_append.1 hh).elim hn hb⟩

/-- An expression that stands for a variable shows the variable's constant. -/
theorem Shows.of_standsFor? {v : Variable} (hv : e.standsFor? = some v) (hs : v.type.HasSort c.2)
    (hc : c.1 = named v.name) : e.Shows named via c :=
  ⟨e, v, [], .here, hv, hs, hc, not_hides_nil⟩

/-- Where a constant of an operand's term comes from, it comes into the expression. -/
theorem Shows.or_of_part (hp : part ∈ e.parts)
    (h : part.Shows named (fun _ => True) c ∨ part.CallsWith named ds c)
    (hn : ¬ Hides named e.binds c) : e.Shows named (fun _ => True) c ∨ e.CallsWith named ds c := by
  obtain ⟨place, ho⟩ := mem_parts.1 hp
  exact h.imp (·.of_operand ho trivial hn) (·.of_operand ho hn)

end Exp

/-! ## Constants of terms -/

/-- A variable is encoded as its constant, if its type has a sort. -/
theorem Variable.encode_eq_ok {v : Variable} :
    v.encode = .ok t ↔ ∃ s, v.type.HasSort s ∧ t = .const (constantName v.name) s := by
  rw [Variable.encode, bind_eq_ok]
  constructor
  · rintro ⟨s, hs, h⟩
    cases h
    exact ⟨s, Ty.hasSort_iff_encodeSort.2 hs, rfl⟩
  · rintro ⟨s, hs, rfl⟩
    exact ⟨s, Ty.hasSort_iff_encodeSort.1 hs, rfl⟩

/-- What an operator builds has the constants of both sides. -/
theorem mem_constants_combine {op : BinOp} (hop : op ≠ .unknown) :
    c ∈ (op.combine l r).constants ↔ c ∈ l.constants ∨ c ∈ r.constants := by
  cases op with
  | mul | add | sub =>
    rw [← List.mem_append, ← Term.constants_arithmetic]
    rfl
  | div | floatDiv =>
    rw [← List.mem_append, ← Term.constants_division]
    rfl
  | lt | le | gt | ge => exact Term.mem_constants_compare _
  | and | or | implies | mod => exact List.mem_append
  | eq | ne => exact Term.mem_constants_equality
  | iff => exact Term.mem_constants_iff
  | unknown => exact absurd rfl hop

/-- A constant of a body that no actual is put in place of is free in the definition. -/
theorem Definition.mem_free_of_lookup? {d : Definition} {σ : Term.Substitution}
    (hσ : σ.map Prod.fst = d.formals) (hc : c ∈ d.body.constants) (hl : σ.lookup? c.1 c.2 = none) :
    c ∈ d.free := by
  refine List.mem_filter.2 ⟨hc, decide_eq_true fun formal hf heq => ?_⟩
  obtain ⟨p, hp, rfl⟩ := List.mem_map.1 (hσ ▸ hf)
  obtain ⟨hname, hsort⟩ := Prod.mk.inj heq
  rw [Term.Substitution.lookup?, Option.map_eq_none_iff] at hl
  exact List.find?_eq_none.1 hl p hp (by simp [hname, hsort])

/-- A constant of a body with actuals in place of its parameters is free in the definition, or a
constant of an actual. -/
theorem Definition.mem_constants_substitute {d : Definition} {σ : Term.Substitution}
    (hσ : σ.map Prod.fst = d.formals) (h : c ∈ (d.body.substitute σ).constants) :
    c ∈ d.free ∨ ∃ p ∈ σ, c ∈ p.2.constants := by
  rw [Term.constants_substitute, List.mem_flatMap] at h
  obtain ⟨b, hb, hc⟩ := h
  unfold Term.Substitution.apply at hc
  cases hl : σ.lookup? b.1 b.2 with
  | some a =>
    obtain ⟨p, hp, -, -, rfl⟩ := Term.Substitution.mem_of_lookup? hl
    rw [hl] at hc
    exact .inr ⟨p, hp, hc⟩
  | none =>
    rw [hl] at hc
    cases List.mem_singleton.1 hc
    exact .inl (mem_free_of_lookup? hσ hb hl)

/-! ## Where constants come from -/

/-- The parameters of the terms of actual arguments. -/
theorem Actuals.map_fst {P : Exp → Term → Prop} {formals : List (String × BasicSort)}
    {args : List Exp} {σ : Term.Substitution} (h : Actuals P formals args σ) :
    σ.map Prod.fst = formals := by
  induction h with
  | nil => rfl
  | cons _ _ _ ih => rw [List.map_cons, ih]

/-- Each term of the actual arguments is that of one of them, widened or not. -/
theorem Actuals.exists_of_mem {P : Exp → Term → Prop} {formals : List (String × BasicSort)}
    {args : List Exp} {σ : Term.Substitution} {p : (String × BasicSort) × Term}
    (h : Actuals P formals args σ) (hp : p ∈ σ) :
    ∃ arg ∈ args, ∃ a s, P arg a ∧ p.2 = a.coerce s := by
  induction h with
  | nil => cases hp
  | cons ha _ _ ih =>
    rcases List.mem_cons.1 hp with rfl | hp
    · exact ⟨_, List.mem_cons_self, _, _, ha, rfl⟩
    · obtain ⟨arg, harg, has⟩ := ih hp
      exact ⟨arg, List.mem_cons_of_mem _ harg, has⟩

namespace Exp

/-- Where the constants of an application come from, given those of its sides. -/
theorem shows_of_combine {op : BinOp} {left right : Exp} (hop : op ≠ .unknown)
    (hl : ∀ c ∈ l.constants, left.Shows constantName (fun _ => True) c ∨
      left.CallsWith constantName ds c)
    (hr : ∀ c ∈ r.constants, right.Shows constantName (fun _ => True) c ∨
      right.CallsWith constantName ds c) :
    ∀ c ∈ (op.combine l r).constants, (bin op left right).Shows constantName (fun _ => True) c ∨
      (bin op left right).CallsWith constantName ds c := by
  intro c hc
  rcases (mem_constants_combine hop).1 hc with hc | hc
  · exact Shows.or_of_part (by simp) (hl c hc) not_hides_nil
  · exact Shows.or_of_part (by simp) (hr c hc) not_hides_nil

/-- Each constant of a term is shown by a part of the expression, or comes from the body of a called
predicate. -/
theorem originRules : EncodingRules ds fun e t => ∀ c ∈ t.constants,
    e.Shows constantName (fun _ => True) c ∨ e.CallsWith constantName ds c where
  var h c hc := by
    obtain ⟨s, hs, rfl⟩ := Variable.encode_eq_ok.1 h
    cases List.mem_singleton.1 hc
    exact .inl (.of_standsFor? rfl hs rfl)
  int _ _ hc := nomatch hc
  float _ _ hc := nomatch hc
  bool _ hc := nomatch hc
  call {_ _ _ _ d _} hd hσ c hc := by
    rcases Definition.mem_constants_substitute hσ.map_fst hc with hc | ⟨p, hp, hc⟩
    · exact .inr ⟨_, _, _, _, [], d, .here, hd, hc, not_hides_nil⟩
    · obtain ⟨arg, harg, a, s, ⟨-, ih⟩, heq⟩ := hσ.exists_of_mem hp
      rw [heq, Term.constants_coerce] at hc
      exact Shows.or_of_part (by simpa using harg) (ih c hc) not_hides_nil
  sub _ iha _ ihi _ _ c hc := by
    rcases List.mem_append.1 hc with hc | hc
    · exact Shows.or_of_part (by simp) (iha c hc) not_hides_nil
    · exact Shows.or_of_part (by simp) (ihi c hc) not_hides_nil
  upd _ iha _ ihi _ ihv _ _ _ c hc := by
    rw [Term.constants, Term.constants_coerce, List.mem_append, List.mem_append] at hc
    rcases hc with (hc | hc) | hc
    · exact Shows.or_of_part (by simp) (iha c hc) not_hides_nil
    · exact Shows.or_of_part (by simp) (ihi c hc) not_hides_nil
    · exact Shows.or_of_part (by simp) (ihv c hc) not_hides_nil
  not _ ih _ c hc := Shows.or_of_part (.head _) (ih c hc) not_hides_nil
  neg _ ih _ c hc := Shows.or_of_part (.head _) (ih c hc) not_hides_nil
  booleans hop _ ihl _ ihr _ _ := by
    obtain ⟨hsig, rfl⟩ := BinOp.signature_of_booleans hop
    exact shows_of_combine hsig.ne_unknown ihl ihr
  alike hop _ ihl _ ihr hs := by
    obtain ⟨hsig, rfl⟩ := BinOp.signature_of_alike hop hs
    exact shows_of_combine hsig.ne_unknown ihl ihr
  integers hop _ ihl _ ihr _ _ := by
    obtain ⟨hsig, rfl⟩ := BinOp.signature_of_integers hop
    exact shows_of_combine hsig.ne_unknown ihl ihr
  numbers hop _ ihl _ ihr hsl hsr := by
    obtain ⟨⟨u, hsig⟩, rfl⟩ := BinOp.signature_of_numbers hop hsl hsr
    exact shows_of_combine hsig.ne_unknown ihl ihr
  quantified _ ih _ c hc := by
    obtain ⟨hc, hn⟩ := Term.mem_constants_quantify.1 hc
    exact Shows.or_of_part (.head _) (ih c hc) hn
  len h c hc := by
    obtain ⟨v, hv, htype, rfl⟩ := encodeLength_eq_ok h
    cases List.mem_singleton.1 hc
    exact .inl (.of_standsFor? hv (htype ▸ .int) rfl)

/-- Each constant of an expression's term is shown by the expression, unless a called predicate has it
free. -/
theorem shows_of_mem_constants (e : Exp) {t : Term} (ht : e.encode ds = .ok t)
    (hc : c ∈ t.constants) :
    e.Shows constantName (fun _ => True) c ∨ e.CallsWith constantName ds c :=
  originRules.holds e ht c hc

/-! ## What is kept -/

/-- An argument is put in place of its parameter. -/
theorem exists_encode_arg {formal : String × BasicSort} : ∀ {args : List Exp}
    {formals : List (String × BasicSort)} {σ : Term.Substitution} {k : Nat} (hk : k < args.length),
      encodeArgs ds formals args = .ok σ → formals.idxOf? formal = some k →
        ∃ u, args[k].encode ds = .ok u ∧
          σ.lookup? formal.1 (.basic formal.2) = some (u.coerce (.basic formal.2))
  | _ :: _, [], _, _, _, _, hi => by cases hi
  | arg :: args, f :: formals, _, k, hk, h, hi => by
    obtain ⟨u, σ, hu, -, hσ, rfl⟩ := encodeArgs_cons_eq_ok.1 h
    rw [List.idxOf?_cons] at hi
    unfold Term.Substitution.lookup?
    rw [List.find?_cons]
    by_cases hf : f = formal
    · subst hf
      simp only [beq_self_eq_true, if_true] at hi
      cases hi
      exact ⟨_, hu, by simp⟩
    · have hne : (f.1 == formal.1 && TermSort.basic f.2 == TermSort.basic formal.2) = false := by
        refine Bool.eq_false_iff.2 fun heq => hf ?_
        simp only [Bool.and_eq_true, beq_iff_eq, TermSort.basic.injEq] at heq
        exact Prod.ext heq.1 heq.2
      rw [beq_false_of_ne hf, if_neg Bool.false_ne_true, Option.map_eq_some_iff] at hi
      obtain ⟨j, hj, rfl⟩ := hi
      rw [hne]
      exact exists_encode_arg (Nat.lt_of_succ_lt_succ hk) hσ hj

/-- An operand at a place that is used has a term, whose constants the expression's term has unless
the expression binds them. -/
theorem exists_encode_operand (ho : (place, operand) ∈ e.operands) (hp : place.IsUsed ds)
    (ht : e.encode ds = .ok t) : ∃ u, operand.encode ds = .ok u ∧
      ∀ c ∈ u.constants, ¬ Hides constantName e.binds c → c ∈ t.constants := by
  have hpart := mem_parts_of_operand ho
  cases e with
  | var | int | float | bool | len | bare => cases ho
  | call name parameters body args =>
    obtain ⟨k, hk, heq⟩ := List.mem_mapIdx.1 ho
    cases heq
    obtain ⟨d, formal, hd, hi, hformal⟩ := hp
    obtain ⟨d', σ, hd', hl, hσ, rfl⟩ := encode_call_eq_ok.1 ht
    obtain rfl := Option.some.inj (hd.symm.trans hd')
    obtain ⟨u, hu, hlookup⟩ := exists_encode_arg hk hσ hi
    refine ⟨u, hu, fun c hc _ => ?_⟩
    rw [Term.constants_substitute]
    refine List.mem_flatMap.2 ⟨_, hformal, ?_⟩
    rw [Term.Substitution.apply, hlookup, Option.getD_some, Term.constants_coerce]
    exact hc
  | sub array index =>
    obtain ⟨a, i, s, ha, hi, -, -, rfl⟩ := encode_sub_eq_ok.1 ht
    simp only [parts_sub, List.mem_cons, List.not_mem_nil, or_false] at hpart
    rcases hpart with rfl | rfl
    · exact ⟨a, ha, fun c hc _ => List.mem_append_left _ hc⟩
    · exact ⟨i, hi, fun c hc _ => List.mem_append_right _ hc⟩
  | upd array index value length =>
    obtain ⟨a, i, v, s, ha, hi, hv, -, -, -, rfl⟩ := encode_upd_eq_ok.1 ht
    simp only [parts_upd, List.mem_cons, List.not_mem_nil, or_false] at hpart
    simp only [Term.constants, Term.constants_coerce, List.mem_append]
    rcases hpart with rfl | rfl | rfl
    · exact ⟨a, ha, fun c hc _ => .inl (.inl hc)⟩
    · exact ⟨i, hi, fun c hc _ => .inl (.inr hc)⟩
    · exact ⟨v, hv, fun c hc _ => .inr hc⟩
  | not arg =>
    obtain ⟨a, ha, -, rfl⟩ := encode_not_eq_ok.1 ht
    obtain rfl := List.mem_singleton.1 hpart
    exact ⟨a, ha, fun c hc _ => hc⟩
  | neg arg =>
    obtain ⟨a, ha, -, rfl⟩ := encode_neg_eq_ok.1 ht
    obtain rfl := List.mem_singleton.1 hpart
    exact ⟨a, ha, fun c hc _ => hc⟩
  | bin op left right =>
    obtain ⟨l, r, u, hl, hr, hsig, rfl⟩ := encode_bin_eq_ok.1 ht
    simp only [parts_bin, List.mem_cons, List.not_mem_nil, or_false] at hpart
    simp only [mem_constants_combine hsig.ne_unknown]
    rcases hpart with rfl | rfl
    · exact ⟨l, hl, fun c hc _ => .inl hc⟩
    · exact ⟨r, hr, fun c hc _ => .inr hc⟩
  | quantified kind names body =>
    obtain ⟨b, hb, -, rfl⟩ := encode_quantified_eq_ok.1 ht
    obtain rfl := List.mem_singleton.1 hpart
    exact ⟨b, hb, fun c hc hn => Term.mem_constants_quantify.2 ⟨hc, hn⟩⟩

/-- A reference or a length that is encoded is its variable's constant. -/
theorem encode_of_standsFor? {v : Variable} {s : TermSort} (hv : e.standsFor? = some v)
    (hs : v.type.HasSort s) (ht : e.encode ds = .ok t) : t = .const (constantName v.name) s := by
  cases e with
  | var w =>
    cases hv
    rw [encode] at ht
    obtain ⟨s', hs', rfl⟩ := Variable.encode_eq_ok.1 ht
    rw [hs'.unique hs]
  | len arg =>
    obtain ⟨w, hw, htype, rfl⟩ := encode_len_eq_ok.1 ht
    obtain rfl := Option.some.inj (hw.symm.trans hv)
    rw [htype] at hs
    rw [hs.unique .int]
  | _ => cases hv

/-- The constants of a part at places that are used are constants of the term where no quantifier
hides them. -/
theorem Occurs.mem_constants (h : Occurs (·.IsUsed ds) part bound e)
    (hpart : ∀ u, part.encode ds = .ok u → c ∈ u.constants) (hn : ¬ Hides constantName bound c)
    (ht : e.encode ds = .ok t) : c ∈ t.constants := by
  induction h generalizing t with
  | here => exact hpart t ht
  | @inside bound e place operand ho hp _ ih =>
    obtain ⟨u, hu, hconstants⟩ := exists_encode_operand ho hp ht
    have hsplit := fun hh => hn (hides_append.2 hh)
    exact hconstants c (ih (fun hh => hsplit (.inr hh)) hu) fun hh => hsplit (.inl hh)

/-- The check of an encoded expression is the verdict on its term. -/
theorem check_eq_ok {options : Options} {v : Verdict} (ht : e.encode ds = .ok t)
    (h : ds.check options e = .ok v) :
    ∃ tactic, options.tactic? = some tactic ∧ v = t.verdict tactic := by
  simp only [Definitions.check, ht] at h
  split at h
  · cases h
  · next goal hgoal =>
    obtain ⟨-, rfl⟩ := expect_eq_ok.1 hgoal
    split at h
    · cases h
    · next tactic htactic =>
      cases h
      exact ⟨tactic, htactic, rfl⟩

/-- Whatever is defined, no name gets into a term or out of it, where names are those of constants. A
name without a null character is that of its constant. -/
theorem keepsNames (ds : Definitions) (e : Exp) (t : Term) (ht : e.encode ds = .ok t) :
    e.KeepsNames constantName ds t ∧
      ∀ name : String, '\x00' ∉ name.toList → constantName name = name := by
  refine ⟨⟨fun c => shows_of_mem_constants e ht, ?_, ?_⟩, fun _ => constantName_eq_self⟩
  · rintro ⟨_, s⟩ ⟨part, v, bound, hocc, hv, hs, rfl, hn⟩
    refine (hocc.imp fun _ => Place.isUsed_of_not_isActual).mem_constants (fun u hu => ?_) hn ht
    rw [encode_of_standsFor? hv hs hu]
    exact List.mem_singleton.2 rfl
  · intro hclosed options v hcheck
    obtain ⟨tactic, htactic, rfl⟩ := check_eq_ok ht hcheck
    refine ⟨tactic, htactic, rfl, fun c hc => (shows_of_mem_constants e ht hc).resolve_right ?_⟩
    rintro ⟨name, _, _, _, _, d, -, hd, hfree, -⟩
    obtain ⟨entry, hentry, rfl⟩ := Definitions.mem_of_lookup? hd
    rw [hclosed entry hentry] at hfree
    cases hfree

/-- What a called predicate has free is in the term; its parameter and the bound name are not. -/
theorem keepsNames_of_call :
    let above : Predicate :=
      ⟨"above", [.plain "n" .int], .bin .gt (.var (.plain "n" .int)) (.var (.plain "m" .int))⟩
    let e : Exp := .quantified .all ["k"] (above.call [.var (.plain "k" .int)])
    ∃ ds t, Definitions.empty.define above = .ok ds ∧ e.encode ds = .ok t ∧
      t.constants = [("m", .int)] ∧ e.KeepsNames constantName ds t :=
  ⟨_, _, rfl, rfl, rfl, (keepsNames _ _ _ rfl).1⟩

/-- With the names themselves, a reference to `b` would not be bound by a quantifier over `b` with a
null character after it, but it is. -/
theorem not_keepsNames_of_null : ¬ ∀ (ds : Definitions) (e : Exp) (t : Term),
    e.encode ds = .ok t → e.KeepsNames id ds t := by
  intro h
  let comparison : Exp := .bin .gt (.var (.plain "b" .int)) (.var (.plain "n" .int))
  have ht : (Exp.quantified .all ["b\x00"] comparison).encode .empty =
      .ok (.quantified .all ["b"] (.app .gt (.bound 0) (.const "n" .int))) := rfl
  have hocc : Occurs (¬ ·.IsActual) (.var (.plain "b" .int)) ["b\x00"]
      (.quantified .all ["b\x00"] comparison) :=
    .inside (e := .quantified .all ["b\x00"] comparison) (.head _) id
      (.inside (e := comparison) (.head _) id .here)
  have hshows : (Exp.quantified .all ["b\x00"] comparison).Shows id (¬ ·.IsActual) ("b", .int) :=
    ⟨_, _, _, hocc, rfl, .int, rfl, by simp [Hides]⟩
  exact absurd ((h _ _ _ ht).kept _ hshows) (by decide)

end Exp

end Discharge
