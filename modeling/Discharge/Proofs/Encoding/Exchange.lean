import Discharge.Proofs.Encoding.BoundNames
import Discharge.Proofs.Syntax.Scoping

/-!
# Parts in place of others

`Term.Exchanges u u'` relates a term to those that have `u'` at some of the places of `u`. If a part of
an expression, whose term is `u`, is replaced by one whose term is `u'`, then the term of the whole
only has `u'` where the part's term has come to stand (`Exp.Replaces.exchanges`). The bodies of called
predicates may be exchanged in this way, too. What is needed is that neither quantifiers nor
parameters catch a constant of the two terms. They do not if these constants have names that no text
can hold.
-/

namespace Discharge

open Token (IsName)

/-- The second term is the first one with `u'` in place of `u` at some places. -/
inductive Term.Exchanges (u u' : Term) : Term → Term → Prop
  | same : Exchanges u u' t t
  | here : Exchanges u u' u u'
  | neg (h : Exchanges u u' a a') : Exchanges u u' (.neg a) (.neg a')
  | not (h : Exchanges u u' a a') : Exchanges u u' (.not a) (.not a')
  | toReal (h : Exchanges u u' a a') : Exchanges u u' (.toReal a) (.toReal a')
  | app (hl : Exchanges u u' l l') (hr : Exchanges u u' r r') :
      Exchanges u u' (.app op l r) (.app op l' r')
  | store (ha : Exchanges u u' a a') (hi : Exchanges u u' i i') (hv : Exchanges u u' v v') :
      Exchanges u u' (.store a i v) (.store a' i' v')
  | quantified (h : Exchanges u u' b b') :
      Exchanges u u' (.quantified kind ns b) (.quantified kind ns b')

/-- The encoder does the same with both terms, and no text can name a constant of either. -/
structure Term.Exchangeable (u u' : Term) : Prop where
  sortOf : u'.sortOf = u.sortOf
  isNumeral : u'.isNumeral = u.isNumeral
  isQuantified : u'.isQuantified = u.isQuantified
  nameless : ∀ c ∈ u.constants, ¬ IsName c.1
  nameless' : ∀ c ∈ u'.constants, ¬ IsName c.1

/-- `ds'` defines what `ds` does, with `u'` in place of `u` at some places of the bodies. -/
def Definitions.Exchange (u u' : Term) (ds ds' : Definitions) : Prop :=
  ∀ name d, ds.lookup? name = some d → ∃ d', ds'.lookup? name = some d' ∧ d'.formals = d.formals ∧
    Term.Exchanges u u' d.body d'.body

/-- Parameters have names that a text can hold. -/
def Definitions.NamesFormals (ds : Definitions) : Prop :=
  ∀ name d, ds.lookup? name = some d → ∀ formal ∈ d.formals, IsName formal.1

/-- The definitions with another body under a name. -/
def Definitions.withBody (ds : Definitions) (name : String) (body : Term) : Definitions :=
  ⟨ds.entries.map fun entry =>
    (entry.1, if entry.1 = name then { entry.2 with body := body } else entry.2)⟩

/-- If the expression is a quantifier, it binds names that a text can hold. -/
def Exp.BindsNames (e : Exp) : Prop := ∀ n ∈ e.binds, IsName n

variable {u u' t t' : Term} {names : List String} {n : String}

/-! ## Names -/

/-- Names are made of a few kinds of characters. -/
theorem Token.IsName.of_mem (h : IsName n) {c : Char} (hc : c ∈ n.toList) :
    isNameStart c = true ∨ isNamePart c = true := by
  obtain ⟨first, rest, rfl, hfirst, hrest⟩ := h
  rw [String.toList_ofList] at hc
  rcases List.mem_cons.1 hc with rfl | hmem
  · exact .inl hfirst
  · exact .inr (hrest c hmem)

/-- A name that a text can hold has no null character. -/
theorem Token.IsName.null_not_mem (h : IsName n) : '\x00' ∉ n.toList :=
  fun hc => absurd (h.of_mem hc) (by decide)

/-- A name that a text can hold is the name of its constant. -/
theorem constantName_of_isName (h : IsName n) : constantName n = n :=
  constantName_eq_self h.null_not_mem

/-- No quantifier over names hides a constant that has none. -/
theorem not_hides_of_isName {c : String × TermSort} (h : ∀ m ∈ names, IsName m)
    (hc : ¬ IsName c.1) : ¬ Hides constantName names c := by
  rintro ⟨-, hm⟩
  obtain ⟨m, hm, heq⟩ := List.mem_map.1 hm
  rw [constantName_of_isName (h m hm)] at heq
  exact hc (heq ▸ h m hm)

/-! ## Terms -/

namespace Term.Exchanges

/-- Exchanging terms that can be exchanged is a congruence. -/
theorem congruence (hu : u.Exchangeable u') : Congruence (Exchanges u u') where
  sortOf h := by
    induction h with
    | here => exact hu.sortOf
    | app _ _ ihl => cases ‹TermOp› <;> simp only [sortOf, ihl]
    | _ => simp only [sortOf, *]
  isNumeral h := by
    cases h with
    | here => exact hu.isNumeral
    | _ => rfl
  isQuantified h := by
    cases h with
    | here => exact hu.isQuantified
    | _ => rfl
  neg := .neg
  not := .not
  toReal := .toReal
  app := .app
  store := .store

/-- Terms can be exchanged where constants with names of a text are bound, since they have no such
constants. -/
theorem abstract (hu : u.Exchangeable u') (hn : ∀ n ∈ names, IsName n)
    (h : Exchanges u u' t t') (d : Nat) :
    Exchanges u u' (t.abstract (names.map constantName) d)
      (t'.abstract (names.map constantName) d) := by
  induction h generalizing d with
  | same => exact .same
  -- Neither term has a constant that is bound, so that they stay what they are.
  | here =>
    rw [abstract_eq_self fun c hc => not_hides_of_isName hn (hu.nameless c hc),
      abstract_eq_self fun c hc => not_hides_of_isName hn (hu.nameless' c hc)]
    exact .here
  | neg _ ih => exact .neg (ih d)
  | not _ ih => exact .not (ih d)
  | toReal _ ih => exact .toReal (ih d)
  | app _ _ ihl ihr => exact .app (ihl d) (ihr d)
  | store _ _ _ iha ihi ihv => exact .store (iha d) (ihi d) (ihv d)
  | quantified _ ih => exact .quantified (ih _)

/-- Terms can be exchanged under a quantifier over names of a text. -/
theorem quantify (hu : u.Exchangeable u') (hn : ∀ n ∈ names, IsName n)
    (h : Exchanges u u' t t') (kind : Quantifier) :
    Exchanges u u' (t.quantify kind (names.map constantName))
      (t'.quantify kind (names.map constantName)) := by
  unfold Term.quantify
  split
  · exact h
  · exact .quantified (h.abstract hu hn 0)

/-- Terms can be exchanged before a substitution that leaves both as they are. -/
theorem substitute {σ σ' : Substitution} (H : Congruence (Exchanges u u'))
    (hσ : σ.Related (Exchanges u u') σ') (hu : u.substitute σ = u) (hu' : u'.substitute σ' = u')
    (h : Exchanges u u' t t') : Exchanges u u' (t.substitute σ) (t'.substitute σ') := by
  induction h with
  | same => exact H.substitute (fun _ => .same) .quantified hσ _
  | here =>
    rw [hu, hu']
    exact .here
  | neg _ ih => exact .neg ih
  | not _ ih => exact .not ih
  | toReal _ ih => exact .toReal ih
  | app _ _ ihl ihr => exact .app ihl ihr
  | store _ _ _ iha ihi ihv => exact .store iha ihi ihv
  | quantified _ ih => exact .quantified ih

/-- Terms that mean the same can be exchanged anywhere. -/
theorem denote {I : Interpretation} (hu : ∀ env, u.denote I env = u'.denote I env)
    (h : Exchanges u u' t t') (env : List Int) : t.denote I env = t'.denote I env := by
  induction h generalizing env with
  | same => rfl
  | here => exact hu env
  | _ => simp only [Term.denote, *]

/-- To exchange a term for itself changes nothing. -/
theorem eq (h : Exchanges u u t t') : t = t' := by
  induction h with
  | same | here => rfl
  | _ => simp only [*]

end Term.Exchanges

/-! ## Definitions -/

/-- Related replacements are of the same constants. -/
theorem Term.Substitution.Related.map_fst {R : Term → Term → Prop} {σ σ' : Substitution}
    (h : σ.Related R σ') : σ.map Prod.fst = σ'.map Prod.fst := by
  induction h with
  | nil => rfl
  | cons hpq _ ih => rw [List.map_cons, List.map_cons, hpq.1, ih]

/-- Only constants with names are replaced where parameters have names. -/
theorem Term.substitute_of_nameless {σ : Substitution} (hσ : ∀ p ∈ σ, IsName p.1.1)
    (hu : ∀ c ∈ u.constants, ¬ IsName c.1) : u.substitute σ = u := by
  refine substitute_eq_self fun c hc => ?_
  cases hl : σ.lookup? c.1 c.2 with
  | none => rfl
  | some a =>
    obtain ⟨p, hp, hname, -⟩ := Substitution.mem_of_lookup? hl
    exact absurd (hname ▸ hσ p hp) (hu c hc)

namespace Definitions

variable {ds ds' : Definitions} {name : String} {d : Definition}

/-- Definitions in which nothing is exchanged. -/
theorem Exchange.refl (u u' : Term) (ds : Definitions) : ds.Exchange u u' ds :=
  fun _ d hd => ⟨d, hd, rfl, .same⟩

/-- Definitions with exchanged bodies are related by the exchange: no actual is put in the place of
either term. -/
theorem Exchange.relate (hu : u.Exchangeable u') (hds : ds.NamesFormals)
    (h : ds.Exchange u u' ds') : ds.Relate (Term.Exchanges u u') ds' := by
  intro name d hd
  obtain ⟨d', hd', hformals, hbody⟩ := h name d hd
  refine ⟨d', hd', hformals, fun σ σ' hσ hrel => ?_⟩
  have hσ' : σ'.map Prod.fst = d.formals := hrel.map_fst.symm.trans hσ
  have hnames : ∀ p ∈ σ, IsName p.1.1 := fun p hp =>
    hds name d hd p.1 (hσ ▸ List.mem_map_of_mem hp)
  have hnames' : ∀ p ∈ σ', IsName p.1.1 := fun p hp =>
    hds name d hd p.1 (hσ' ▸ List.mem_map_of_mem hp)
  exact hbody.substitute (Term.Exchanges.congruence hu) hrel
    (Term.substitute_of_nameless hnames hu.nameless)
    (Term.substitute_of_nameless hnames' hu.nameless')

/-- The definitions with another body under a name look it up there, and the old bodies elsewhere.
-/
theorem lookup?_withBody (ds : Definitions) (name : String) (body : Term) (n : String) :
    (ds.withBody name body).lookup? n = (ds.lookup? n).map fun d =>
      if n = name then { d with body := body } else d := by
  unfold lookup? withBody
  rw [List.find?_map, Option.map_map, Option.map_map]
  refine Option.map_congr fun entry he => ?_
  have hn : entry.1 = n := by simpa using List.find?_some he
  simp only [Function.comp_apply, hn]

/-- Another body in which the terms are exchanged, too. -/
theorem Exchange.withBody (h : ds.Exchange u u' ds') (hd : ds.lookup? name = some d)
    (hb : Term.Exchanges u u' d.body t') : ds.Exchange u u' (ds'.withBody name t') := by
  intro n e he
  obtain ⟨e', he', hformals, hbody⟩ := h n e he
  rw [lookup?_withBody, he']
  refine ⟨_, rfl, ?_⟩
  split
  · next hn =>
    subst hn
    cases hd.symm.trans he
    exact ⟨hformals, hb⟩
  · exact ⟨hformals, hbody⟩

end Definitions

/-! ## Parts -/

namespace Exp

variable {p : List String → Exp → Prop} {bound : List String} {place : Place} {e part : Exp}

/-- What an expression exposes is a part of it. -/
theorem Exposes.contains (h : e.Exposes part) : e.Contains part := by
  induction h with
  | self => exact .self
  | operand _ hp ih => exact .operand ih hp

namespace Throughout

/-- What holds throughout an expression holds throughout each operand, under the names that are
bound there. -/
theorem operand (h : e.Throughout p bound) (ho : (place, part) ∈ e.operands) :
    part.Throughout p (e.binds ++ bound) := by
  have hpart := mem_parts_of_operand ho
  cases h with
  | var | int | float | bool | len | bare => cases ho
  | call _ hargs =>
    rw [parts_call] at hpart
    exact hargs _ hpart
  | sub _ ha hi =>
    simp only [parts_sub, List.mem_cons, List.not_mem_nil, or_false] at hpart
    rcases hpart with rfl | rfl
    · exact ha
    · exact hi
  | upd _ ha hi hv =>
    simp only [parts_upd, List.mem_cons, List.not_mem_nil, or_false] at hpart
    rcases hpart with rfl | rfl | rfl
    · exact ha
    · exact hi
    · exact hv
  | not _ ha | neg _ ha | quantified _ ha =>
    obtain rfl := List.mem_singleton.1 hpart
    exact ha
  | bin _ hl hr =>
    simp only [parts_bin, List.mem_cons, List.not_mem_nil, or_false] at hpart
    rcases hpart with rfl | rfl
    · exact hl
    · exact hr

/-- What holds throughout an expression holds throughout its parts. -/
theorem contained (h : e.Throughout p bound) (hp : e.Contains part) :
    ∃ bound', part.Throughout p bound' := by
  induction hp with
  | self => exact ⟨bound, h⟩
  | operand _ ho ih =>
    obtain ⟨bound', h'⟩ := ih
    exact ⟨_, h'.operand ho⟩
  | length _ ih =>
    obtain ⟨bound', h'⟩ := ih
    cases h' with
    | len _ ha => exact ⟨_, ha⟩

/-- The names that are bound on the way to a part can be held by a text. -/
theorem isName_of_occurs {via : Place → Prop} {names : List String}
    (h : e.Throughout (fun _ => BindsNames) bound) (ho : Occurs via part names e) :
    ∀ n ∈ names, IsName n := by
  induction ho generalizing bound with
  | here => exact List.forall_mem_nil _
  | inside ho _ _ ih => exact List.forall_mem_append.2 ⟨h.here, ih (h.operand ho)⟩

end Throughout

/-! ## Expressions -/

section
variable {ds ds' : Definitions} {q q' e' : Exp} (hu : u.Exchangeable u') (hds : ds.NamesFormals)
  (hx : ds.Exchange u u' ds')

include hu hds hx

/-- Over bodies with a term in place of another, expressions have terms with it in its place. -/
theorem Throughout.carriesTo (h : e.Throughout (fun _ => BindsNames) bound) :
    CarriesTo ds ds' (Term.Exchanges u u') e e := by
  have H := Term.Exchanges.congruence hu
  induction h with
  | var | int | float | bool | bare =>
    intro t ht
    exact ⟨t, by simpa only [encode] using ht, .same⟩
  | @call bound name _ _ _ _ _ ih => exact .call H (List.forall₂_same.2 ih) (hx.relate hu hds name)
  | sub _ _ _ iha ihi => exact .sub H iha ihi
  | upd _ _ _ _ iha ihi ihv => exact .upd H iha ihi ihv _ _
  | not _ _ ih => exact .not H ih
  | neg _ _ ih => exact .neg H ih
  | bin _ _ _ ihl ihr => exact .bin H _ ihl ihr
  | quantified hn _ ih => exact .quantified H ih fun _ _ hr => hr.quantify hu hn _
  | len =>
    intro t ht
    exact ⟨t, encode_len_eq_ok.2 (encode_len_eq_ok.1 ht), .same⟩

/-- An expression whose quantifiers bind names of a text is steady under the exchange. -/
theorem Throughout.steady (h : e.Throughout (fun _ => BindsNames) bound) :
    Steady ds ds' (Term.Exchanges u u') e where
  same _ hp :=
    let ⟨_, hpart⟩ := h.contained hp.contains
    hpart.carriesTo hu hds hx
  quantify kind _ _ hp _ _ hr :=
    let ⟨_, hpart⟩ := h.contained hp.contains
    hr.quantify hu hpart.here kind

/-- If a part with one term is replaced by a part with another one, then so is its term in that of the
whole. -/
theorem Replaces.exchanges (h : Replaces q q' e e') (he : e.Throughout (fun _ => BindsNames) bound)
    (hq : CarriesTo ds ds' (Term.Exchanges u u') q q') (hlen : q'.length? = q.length?) :
    CarriesTo ds ds' (Term.Exchanges u u') e e' :=
  h.carriesTo (Term.Exchanges.congruence hu) (hx.relate hu hds) hq hlen (he.steady hu hds hx)

end

end Exp

end Discharge
