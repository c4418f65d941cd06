import Discharge.Proofs.Encoding.Renaming

/-!
# Bound names

The name that a quantifier binds can be changed, together with the references that it binds, and all
that changes in the term is the name which the term displays for that binder
(`Exp.encode_rebind`). Only the names of lengths and the constants that called predicates mention
freely are not renamed with it. The proof binds the new constants where the old ones were bound
(`Term.abstract_rename`); what is around the quantifier is built of its term in any case.
-/

namespace Discharge

/-! ## Changing a bound name -/

/-- The name `k'` in place of `k` among the names of a quantifier. -/
def rebindName (k k' name : String) : String := if constantName name = constantName k then k' else name

/-- The quantifier with its name `k` changed to `k'`, together with the references that it binds. -/
def Exp.rebind (k k' : String) : Exp → Exp
  | .quantified kind names body =>
    .quantified kind (names.map (rebindName k k')) (body.rename [((constantName k, .int), k')])
  | e => e

/-- `q'` stands at one place where `q` stood. -/
inductive Exp.Replaces (q q' : Exp) : Exp → Exp → Prop
  | here : Replaces q q' q q'
  | actual (h : Replaces q q' a a') : Replaces q q' (.call name parameters body (before ++ a :: after))
      (.call name parameters body (before ++ a' :: after))
  | subArray (h : Replaces q q' a a') : Replaces q q' (.sub a i) (.sub a' i)
  | subIndex (h : Replaces q q' i i') : Replaces q q' (.sub a i) (.sub a i')
  | updArray (h : Replaces q q' a a') : Replaces q q' (.upd a i v l) (.upd a' i v l)
  | updIndex (h : Replaces q q' i i') : Replaces q q' (.upd a i v l) (.upd a i' v l)
  | updValue (h : Replaces q q' v v') : Replaces q q' (.upd a i v l) (.upd a i v' l)
  | not (h : Replaces q q' a a') : Replaces q q' (.not a) (.not a')
  | neg (h : Replaces q q' a a') : Replaces q q' (.neg a) (.neg a')
  | binLeft (h : Replaces q q' l l') : Replaces q q' (.bin op l r) (.bin op l' r)
  | binRight (h : Replaces q q' r r') : Replaces q q' (.bin op l r) (.bin op l r')
  | quantified (h : Replaces q q' b b') :
      Replaces q q' (.quantified kind ns b) (.quantified kind ns b')
  | len (h : Replaces q q' a a') : Replaces q q' (.len a) (.len a')

/-- The terms are the same, but that quantifiers which display `names` in the first one may display
as many other names `names'` in the second. -/
inductive Term.Relabels (names names' : List String) : Term → Term → Prop
  | same : Relabels names names' t t
  | relabeled (hl : names.length = names'.length) :
      Relabels names names' (.quantified kind names b) (.quantified kind names' b)
  | neg (h : Relabels names names' a a') : Relabels names names' (.neg a) (.neg a')
  | not (h : Relabels names names' a a') : Relabels names names' (.not a) (.not a')
  | toReal (h : Relabels names names' a a') : Relabels names names' (.toReal a) (.toReal a')
  | app (hl : Relabels names names' l l') (hr : Relabels names names' r r') :
      Relabels names names' (.app op l r) (.app op l' r')
  | store (ha : Relabels names names' a a') (hi : Relabels names names' i i')
      (hv : Relabels names names' v v') : Relabels names names' (.store a i v) (.store a' i' v')
  | quantified (h : Relabels names names' b b') :
      Relabels names names' (.quantified kind ns b) (.quantified kind ns b')

/-! ## Binding renamed constants -/

/-- Positions in a list do not change if its elements and the one that is looked for are renamed,
where the latter keeps apart from the others. -/
theorem idxOf?_map {α β : Type} [BEq α] [LawfulBEq α] [BEq β] [LawfulBEq β] {f : α → β} {a : α}
    {b : β} : ∀ {l : List α}, (∀ x ∈ l, f x = b ↔ x = a) → (l.map f).idxOf? b = l.idxOf? a
  | [], _ => rfl
  | x :: l, h => by
    obtain ⟨hx, hl⟩ := List.forall_mem_cons.1 h
    rw [List.map_cons, List.idxOf?_cons, List.idxOf?_cons, idxOf?_map hl]
    by_cases hxa : x = a
    · rw [hx.2 hxa, hxa]
      simp
    · simp [mt hx.1 hxa, hxa]

namespace Term

variable {names : List String} {k k' : String} {t : Term}

/-- A name has the same index among bound names after all of them are changed, if no other is
changed to what it becomes. -/
theorem boundIndex?_map {f : String → String} (name : String) {name' : String}
    (h : ∀ n ∈ names, f n = name' ↔ n = name) :
    boundIndex? (names.map f) name' = boundIndex? names name := by
  unfold boundIndex?
  rw [← List.map_reverse]
  exact idxOf?_map fun n hn => h n (List.mem_reverse.1 hn)

/-- A new constant is bound where the old one was. -/
theorem abstract_rename (hk : k ∈ names) (hnames : k' ∉ names) (ht : (k', .int) ∉ t.constants)
    (d : Nat) :
    (t.substitute [((k, .int), .const k' .int)]).abstract
      (names.map fun name => if name = k then k' else name) d = t.abstract names d := by
  induction t generalizing d with
  | int | real | bool | bound => rfl
  | const name s =>
    have hne : ¬ (name = k' ∧ s = .int) := by
      rintro ⟨rfl, rfl⟩
      exact ht (List.mem_singleton.2 rfl)
    by_cases hc : k = name ∧ .int = s
    · obtain ⟨rfl, rfl⟩ := hc
      have hsub : (const k .int).substitute [((k, .int), .const k' .int)] = const k' .int := by
        simp [substitute, Substitution.lookup?]
      rw [hsub, abstract, abstract, boundIndex?_map k]
      · cases hb : boundIndex? names k with
        | some i => rfl
        | none => exact absurd hk (boundIndex?_eq_none_iff.1 hb)
      · intro n hn
        split
        · next h => simp [h]
        · next h => simp [h, ne_of_mem_of_not_mem hn hnames]
    · have hsub : (const name s).substitute [((k, .int), .const k' .int)] = const name s := by
        simp [substitute, Substitution.lookup?, hc]
      rw [hsub, abstract, abstract]
      split
      · next hs =>
        rw [boundIndex?_map name]
        intro n hn
        split
        · next h =>
          exact ⟨fun heq => absurd ⟨heq.symm, hs⟩ hne, fun heq => absurd ⟨h ▸ heq, hs.symm⟩ hc⟩
        · exact Iff.rfl
      · rfl
  | neg a ih | not a ih | toReal a ih | quantified kind ns a ih =>
    simp only [substitute, abstract, ih ht]
  | app op a b iha ihb =>
    simp only [constants, List.mem_append, not_or] at ht
    simp only [substitute, abstract, iha ht.1, ihb ht.2]
  | store a i v iha ihi ihv =>
    simp only [constants, List.mem_append, not_or] at ht
    simp only [substitute, abstract, iha ht.1.1, ihi ht.1.2, ihv ht.2]

end Term

/-! ## Terms around a quantifier -/

namespace Term.Relabels

variable {names names' : List String} {t u : Term}

/-- Quantifiers that display other names are of one sort, so that operators do the same with them. -/
theorem congruence : Congruence (Relabels names names') where
  sortOf h := by
    induction h with
    | app _ _ ihl => cases ‹TermOp› <;> simp only [sortOf, ihl]
    | _ => simp only [sortOf, *]
  isNumeral h := by cases h <;> rfl
  isQuantified h := by cases h <;> rfl
  neg := .neg
  not := .not
  toReal := .toReal
  app := .app
  store := .store

/-- Names that are displayed are no constants. -/
theorem constants (h : t.Relabels names names' u) : u.constants = t.constants := by
  induction h with
  | same | relabeled => rfl
  | _ => simp only [Term.constants, *]

/-- Terms that differ in displayed names do so after further constants are bound. -/
theorem abstract (h : t.Relabels names names' u) (ns : List String) (d : Nat) :
    (t.abstract ns d).Relabels names names' (u.abstract ns d) := by
  induction h generalizing d with
  | same => exact .same
  | relabeled hl =>
    simp only [Term.abstract, hl]
    exact .relabeled hl
  | neg _ ih => exact .neg (ih d)
  | not _ ih => exact .not (ih d)
  | toReal _ ih => exact .toReal (ih d)
  | app _ _ ihl ihr => exact .app (ihl d) (ihr d)
  | store _ _ _ iha ihi ihv => exact .store (iha d) (ihi d) (ihv d)
  | quantified _ ih => exact .quantified (ih _)

/-- Terms that differ in displayed names do so under a further quantifier. -/
theorem quantify (h : t.Relabels names names' u) (kind : Quantifier) (ns : List String) :
    (t.quantify kind ns).Relabels names names' (u.quantify kind ns) := by
  unfold Term.quantify
  split
  · exact h
  · exact .quantified (h.abstract ns 0)

/-- The quantifier that binds a new constant in place of an old one only displays another name. -/
theorem quantify_rename {k k' : String} (hk : k ∈ names) (hnames : k' ∉ names)
    (ht : (k', .int) ∉ t.constants) (kind : Quantifier) :
    (t.quantify kind names).Relabels names (names.map fun name => if name = k then k' else name)
      ((t.substitute [((k, .int), .const k' .int)]).quantify kind
        (names.map fun name => if name = k then k' else name)) := by
  have hne : ¬ names.isEmpty = true := fun h => by
    rw [List.isEmpty_iff.1 h] at hk
    cases hk
  rw [Term.quantify, Term.quantify, List.isEmpty_map, if_neg hne, if_neg hne,
    abstract_rename hk hnames ht]
  exact .relabeled (List.length_map _).symm

end Term.Relabels

namespace Exp

variable {ds : Definitions} {q q' e e' : Exp} {names names' : List String}

/-- The whole has the same length variable after a part is replaced by one with its length variable.
-/
theorem Replaces.length?_eq (h : Replaces q q' e e') (hq : q'.length? = q.length?) :
    e'.length? = e.length? := by
  cases h with
  | here => exact hq
  | _ => rfl

/-- The relation relates the terms that the parts of `e` have over `ds` to those they have over `ds'`,
and the quantifiers of `e` keep it. -/
structure Steady (ds ds' : Definitions) (R : Term → Term → Prop) (e : Exp) : Prop where
  same : ∀ part, e.Exposes part → CarriesTo ds ds' R part part
  quantify : ∀ kind ns body, e.Exposes (.quantified kind ns body) → ∀ t t', R t t' →
    R (t.quantify kind (ns.map constantName)) (t'.quantify kind (ns.map constantName))

namespace Steady

variable {ds' : Definitions} {R : Term → Term → Prop} {part : Exp}

/-- A part of a steady expression is steady. -/
theorem operand (h : Steady ds ds' R e) (hp : part ∈ e.parts) : Steady ds ds' R part := by
  obtain ⟨place, ho⟩ := mem_parts.1 hp
  exact
    { same := fun a ha => h.same a (.of_operand ho ha)
      quantify := fun kind ns body hb => h.quantify kind ns body (.of_operand ho hb) }

/-- A relation that an expression is steady under relates the terms of each part. -/
theorem beside (h : Steady ds ds' R e) (hp : part ∈ e.parts) : CarriesTo ds ds' R part part := by
  obtain ⟨place, ho⟩ := mem_parts.1 hp
  exact h.same part (.operand .self ho)

end Steady

/-- What is around a part is built of its term: if what stands for the part has a related term, so has
the whole. -/
theorem Replaces.carriesTo {ds' : Definitions} {R : Term → Term → Prop} (h : Replaces q q' e e')
    (H : Term.Congruence R) (hds : ds.Relate R ds') (hq : CarriesTo ds ds' R q q')
    (hlen : q'.length? = q.length?) (he : Steady ds ds' R e) : CarriesTo ds ds' R e e' := by
  induction h with
  | here => exact hq
  | @actual a a' name parameters body before after _ ih =>
    have hsame (arg : Exp) (harg : arg ∈ before ++ a :: after) : CarriesTo ds ds' R arg arg :=
      he.beside (by rwa [parts_call])
    have ha : CarriesTo ds ds' R a a' := ih (he.operand (by simp))
    exact .call H (List.rel_append (List.forall₂_same.2 fun arg harg => hsame arg (by simp [harg]))
      (.cons ha (List.forall₂_same.2 fun arg harg => hsame arg (by simp [harg])))) (hds name)
  | subArray _ ih => exact .sub H (ih (he.operand (by simp))) (he.beside (by simp))
  | subIndex _ ih => exact .sub H (he.beside (by simp)) (ih (he.operand (by simp)))
  | updArray _ ih =>
    exact .upd H (ih (he.operand (by simp))) (he.beside (by simp)) (he.beside (by simp)) _ _
  | updIndex _ ih =>
    exact .upd H (he.beside (by simp)) (ih (he.operand (by simp))) (he.beside (by simp)) _ _
  | updValue _ ih =>
    exact .upd H (he.beside (by simp)) (he.beside (by simp)) (ih (he.operand (by simp))) _ _
  | not _ ih => exact .not H (ih (he.operand (.head _)))
  | neg _ ih => exact .neg H (ih (he.operand (.head _)))
  | binLeft _ ih => exact .bin H _ (ih (he.operand (by simp))) (he.beside (by simp))
  | binRight _ ih => exact .bin H _ (he.beside (by simp)) (ih (he.operand (by simp)))
  | quantified _ ih => exact .quantified H (ih (he.operand (.head _))) (he.quantify _ _ _ .self)
  | @len a a' h _ =>
    intro t ht
    obtain ⟨t', ht', hr⟩ := he.same _ .self t ht
    obtain ⟨v, hv, htype, rfl⟩ := encode_len_eq_ok.1 ht'
    exact ⟨_, encode_len_eq_ok.2 ⟨v, (h.length?_eq hlen).trans hv, htype, rfl⟩, hr⟩

/-- If a part changes no more than names which its term displays, neither does the whole. -/
theorem Replaces.carries (h : Replaces q q' e e')
    (hq : Carries ds (Term.Relabels names names') q q') (hlen : q'.length? = q.length?) :
    Carries ds (Term.Relabels names names') e e' :=
  h.carriesTo Term.Relabels.congruence
    (fun _ d hd => ⟨d, hd, rfl, fun _ _ _ hσ =>
      Term.Relabels.congruence.substitute (fun _ => .same) .quantified hσ d.body⟩) hq hlen
    { same := fun _ _ => Carries.of_encode_eq (fun _ => .same) rfl
      quantify := fun kind ns _ _ _ _ hr => hr.quantify kind (ns.map constantName) }

/-! ## Quantifiers with a name changed -/

section
variable {kind : Quantifier} {ns : List String} {body : Exp} {k k' : String}

/-- Changing a name of a quantifier changes the name of its constant. -/
theorem map_rebindName (k k' : String) (ns : List String) :
    (ns.map (rebindName k k')).map constantName =
      (ns.map constantName).map fun n => if n = constantName k then constantName k' else n := by
  rw [List.map_map, List.map_map]
  refine List.map_congr_left fun n _ => ?_
  simp only [Function.comp_apply, rebindName]
  split <;> rfl

/-- The renaming that changes a bound name can be applied to the body. -/
theorem suits_of_rebind (hk' : constantName k' ∉ (quantified kind ns body).names.map constantName)
    (hlen : constantName k ∉ body.lengths.map constantName)
    (hfree : ∀ call ∈ body.calls, ∀ d, ds.lookup? call.1 = some d → (constantName k, .int) ∉ d.free) :
    Renaming.Suits [((constantName k, .int), k')] ds body where
  fresh := by
    rintro p hp hm
    cases List.mem_singleton.1 hp
    rw [names, List.map_append] at hk'
    exact hk' (List.mem_append_right _ hm)
  lengths := by
    rintro p hp
    cases List.mem_singleton.1 hp
    exact hlen
  free := by
    rintro called hcalled d hd p hp
    cases List.mem_singleton.1 hp
    exact hfree called hcalled d hd

/-- A quantifier with one of its names changed has the same term, with the changed name displayed. -/
theorem carries_rebind (hk : constantName k ∈ ns.map constantName)
    (hk' : constantName k' ∉ (quantified kind ns body).names.map constantName)
    (hlen : constantName k ∉ body.lengths.map constantName)
    (hfree : ∀ call ∈ body.calls, ∀ d, ds.lookup? call.1 = some d →
      (constantName k, .int) ∉ d.free ∧ (constantName k', .int) ∉ d.free) :
    Carries ds (Term.Relabels (ns.map constantName) ((ns.map (rebindName k k')).map constantName))
      (quantified kind ns body) ((quantified kind ns body).rebind k k') := by
  intro t ht
  obtain ⟨b, hb, hs, rfl⟩ := encode_quantified_eq_ok.1 ht
  have hsuits : Renaming.Suits [((constantName k, .int), k')] ds body :=
    suits_of_rebind hk' hlen fun called hc d hd => (hfree called hc d hd).1
  obtain ⟨_, hb', rfl⟩ := hsuits.carries b hb
  refine ⟨_, encode_quantified_eq_ok.2 ⟨_, hb', ?_, rfl⟩, ?_⟩
  · rw [(Renaming.renames_substitution _).sortOf_substitute, hs]
  have hfresh : (constantName k', .int) ∉ b.constants := by
    intro hc
    rcases mentions_of_mem_constants body hb hc with hn | ⟨called, hcalled, d, hd, hf⟩
    · exact hk' (List.map_subset _ (names_subset_of_operand (.head _)).1 hn)
    · exact (hfree called hcalled d hd).2 hf
  have hns : constantName k' ∉ ns.map constantName := fun h => by
    rw [names, List.map_append] at hk'
    exact hk' (List.mem_append_left _ h)
  rw [map_rebindName]
  exact Term.Relabels.quantify_rename hk hns hfresh kind

end

end Exp

/-- Bound names do not matter. In an expression that is encoded, let one of a quantifier's names be
changed, together with the references that it binds, to one that is nowhere in the quantifier; names
are compared as those of constants. If the old name is not that of a length under the quantifier, and
neither name is that of an integer constant which a predicate called there mentions freely, then the
expression is still encoded, with the same sort, to a term that only displays another name for the
binder. And what a call's actuals mention is never caught by the quantifiers of the predicate's body:
each place of a parameter has all constants of the actual. -/
theorem Exp.encode_rebind (ds : Definitions) :
    (∀ (e e' : Exp) (t : Term) (kind : Quantifier) (ns : List String) (body : Exp) (k k' : String),
      e.encode ds = .ok t →
      Exp.Replaces (.quantified kind ns body) ((Exp.quantified kind ns body).rebind k k') e e' →
      constantName k ∈ ns.map constantName →
      constantName k' ∉ (Exp.quantified kind ns body).names.map constantName →
      constantName k ∉ body.lengths.map constantName →
      (∀ call ∈ body.calls, ∀ d, ds.lookup? call.1 = some d →
        (constantName k, .int) ∉ d.free ∧ (constantName k', .int) ∉ d.free) →
      ∃ t', e'.encode ds = .ok t' ∧ t'.sortOf = t.sortOf ∧
        t.Relabels (ns.map constantName) ((ns.map (rebindName k k')).map constantName) t') ∧
    ∀ name parameters body args u, (Exp.call name parameters body args).encode ds = .ok u →
      ∃ d σ, ds.lookup? name = some d ∧ Exp.encodeArgs ds d.formals args = .ok σ ∧
        u.constants = d.body.constants.flatMap fun c => (σ.apply c).constants := by
  refine ⟨fun e e' t kind ns body k k' he hat hk hk' hlen hfree => ?_,
    fun name parameters body args u hu => ?_⟩
  · obtain ⟨t', ht', hr⟩ := hat.carries (Exp.carries_rebind hk hk' hlen hfree) rfl t he
    exact ⟨t', ht', Term.Relabels.congruence.sortOf hr, hr⟩
  · obtain ⟨d, σ, hd, -, hσ, rfl⟩ := encode_call_eq_ok.1 hu
    exact ⟨d, σ, hd, hσ, Term.constants_substitute σ d.body⟩

/-- An actual that is a bound name, for a predicate whose body binds that name too: under either name
the actual is the variable of the outer quantifier. -/
theorem encode_rebind_of_exceeded :
    let k : Exp := .var (.plain "k" .int)
    let exceeded : Predicate := ⟨"exceeded", [.plain "x" .int],
      .quantified .ex ["k"] (.bin .gt k (.var (.plain "x" .int)))⟩
    let q : Exp := .quantified .all ["k"] (exceeded.call [k])
    let inner : Term := .quantified .ex ["k"] (.app .gt (.bound 0) (.bound 1))
    ∃ ds, Definitions.empty.define exceeded = .ok ds ∧
      q.encode ds = .ok (.quantified .all ["k"] inner) ∧
      (Exp.not (q.rebind "k" "l")).encode ds = .ok (.not (.quantified .all ["l"] inner)) ∧
      ∃ t', (Exp.not (q.rebind "k" "l")).encode ds = .ok t' ∧
        (Term.not (.quantified .all ["k"] inner)).Relabels ["k"] ["l"] t' := by
  intro k exceeded q inner
  let ds : Definitions := ⟨[("exceeded",
    ⟨.quantified .ex ["k"] (.app .gt (.bound 0) (.const "x" .int)), [("x", .int)]⟩)]⟩
  have hdefine : Definitions.empty.define exceeded = .ok ds := rfl
  refine ⟨ds, hdefine, rfl, rfl, ?_⟩
  have hfree : ∀ call ∈ (exceeded.call [k]).calls, ∀ d, ds.lookup? call.1 = some d →
      ("k", .int) ∉ d.free ∧ ("l", .int) ∉ d.free := by
    intro call hcall d hd
    cases List.mem_singleton.1 hcall
    cases hd
    decide
  obtain ⟨t', ht', -, hr⟩ := (Exp.encode_rebind ds).1 (.not q) (.not (q.rebind "k" "l")) _ .all ["k"]
    (exceeded.call [k]) "k" "l" rfl (.not .here) (by decide) (by decide) (by decide) hfree
  exact ⟨t', ht', hr⟩

/-- A name that is nowhere in the expression can still be that of its constant `b`: what follows the
null character does not count. The reference to `b` is then bound, too, and it was not before. -/
theorem Exp.not_encode_rebind_of_null :
    let b : Exp := .var (.plain "b" .int)
    let e : Exp := .quantified .all ["a"] (.bin .gt (.var (.plain "a" .int)) b)
    let e' : Exp := .quantified .all ["b\x00"] (.bin .gt (.var (.plain "b\x00" .int)) b)
    e.rebind "a" "b\x00" = e' ∧ "b\x00" ∉ e.names ∧ e.lengths = [] ∧ e.calls = [] ∧
      ∃ t t', e.encode .empty = .ok t ∧ e'.encode .empty = .ok t' ∧
        ∀ names names', ¬ t.Relabels names names' t' := by
  intro b e e'
  refine ⟨rfl, by decide, rfl, rfl, .quantified .all ["a"] (.app .gt (.bound 0) (.const "b" .int)),
    .quantified .all ["b"] (.app .gt (.bound 0) (.bound 0)), rfl, rfl, fun names names' h => ?_⟩
  exact absurd h.constants (by decide)

end Discharge
