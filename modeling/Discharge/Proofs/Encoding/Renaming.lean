import Discharge.Proofs.Encoding.CallOrder
import Discharge.Proofs.Encoding.FreeConstants
import Discharge.Proofs.Semantics.Expression

/-!
# Renaming

References are renamed by the constants that they stand for, but not under a quantifier that binds
them. If no new name is in the expression, and no renamed constant is that of a length or one that a
called predicate mentions freely, then the renamed expression has the term of the original one with
the new constants in place of the old ones (`Renaming.Suits.carries`). The proof is by recursion on
the expression; under a quantifier the renaming loses the names that are bound there, and so does the
replacement of constants.
-/

namespace Discharge

/-! ## Names in an expression -/

namespace Exp

mutual

/-- The names of references, of quantifiers and of lengths. In the argument of a length, which has no
term of its own, only the name of the length counts. -/
def names : Exp → List String
  | .var v => [v.name]
  | .call _ _ _ args => namesArgs args
  | .sub array index => array.names ++ index.names
  | .upd array index value _ => array.names ++ index.names ++ value.names
  | .not arg => arg.names
  | .neg arg => arg.names
  | .bin _ left right => left.names ++ right.names
  | .quantified _ names body => names ++ body.names
  | .len arg => (arg.length?.map Variable.name).toList
  | .int _ => []
  | .float _ => []
  | .bool _ => []
  | .bare => []

/-- The names in the arguments of a call. -/
def namesArgs : List Exp → List String
  | [] => []
  | arg :: args => arg.names ++ namesArgs args

end

mutual

/-- The names of lengths. -/
def lengths : Exp → List String
  | .call _ _ _ args => lengthsArgs args
  | .sub array index => array.lengths ++ index.lengths
  | .upd array index value _ => array.lengths ++ index.lengths ++ value.lengths
  | .not arg => arg.lengths
  | .neg arg => arg.lengths
  | .bin _ left right => left.lengths ++ right.lengths
  | .quantified _ _ body => body.lengths
  | .len arg => (arg.length?.map Variable.name).toList
  | .var _ => []
  | .int _ => []
  | .float _ => []
  | .bool _ => []
  | .bare => []

/-- The names of lengths in the arguments of a call. -/
def lengthsArgs : List Exp → List String
  | [] => []
  | arg :: args => arg.lengths ++ lengthsArgs args

end

/-- The names in arguments are those in each of them. -/
theorem mem_namesArgs {args : List Exp} {name : String} :
    name ∈ namesArgs args ↔ ∃ arg ∈ args, name ∈ arg.names := by
  induction args with
  | nil => simp [namesArgs]
  | cons arg args ih => simp [namesArgs, ih]

/-- The names of lengths in arguments are those in each of them. -/
theorem mem_lengthsArgs {args : List Exp} {name : String} :
    name ∈ lengthsArgs args ↔ ∃ arg ∈ args, name ∈ arg.lengths := by
  induction args with
  | nil => simp [lengthsArgs]
  | cons arg args ih => simp [lengthsArgs, ih]

/-- The names in an operand are among those of the expression. -/
theorem names_subset_of_operand {e part : Exp} {place : Place} (h : (place, part) ∈ e.operands) :
    part.names ⊆ e.names ∧ part.lengths ⊆ e.lengths := by
  have hp := mem_parts_of_operand h
  cases e with
  | call name parameters body args =>
    rw [parts_call] at hp
    exact ⟨fun _ hn => mem_namesArgs.2 ⟨_, hp, hn⟩, fun _ hn => mem_lengthsArgs.2 ⟨_, hp, hn⟩⟩
  | sub | bin =>
    simp only [parts_sub, parts_bin, List.mem_cons, List.not_mem_nil, or_false] at hp
    rcases hp with rfl | rfl <;> simp [names, lengths]
  | upd array index value length =>
    simp only [parts_upd, List.mem_cons, List.not_mem_nil, or_false] at hp
    rcases hp with rfl | rfl | rfl <;> simp [names, lengths]
  | not | neg | quantified =>
    obtain rfl := List.mem_singleton.1 hp
    simp [names, lengths]
  | var | int | float | bool | len | bare => cases hp

end Exp

/-- The constant has a name of the expression, or a predicate that is called mentions it freely. -/
def Exp.Mentions (ds : Definitions) (e : Exp) (c : String × TermSort) : Prop :=
  c.1 ∈ e.names.map constantName ∨
    ∃ call ∈ e.calls, ∃ d, ds.lookup? call.1 = some d ∧ c ∈ d.free

/-! ## Renaming of references -/

/-- New names for constants of basic sorts. -/
abbrev Renaming := List ((String × BasicSort) × String)

/-- The variable with another name. -/
def Variable.withName (name : String) : Variable → Variable
  | .plain _ type => .plain name type
  | .array _ type length => .array name type length

namespace Renaming

/-- The new name for a constant. -/
def name? (ρ : Renaming) (name : String) (sort : TermSort) : Option String :=
  (ρ.find? fun p => p.1.1 == name && TermSort.basic p.1.2 == sort).map Prod.snd

/-- The renaming under a quantifier, which keeps the references that it binds. -/
def under (ρ : Renaming) (names : List String) : Renaming :=
  ρ.filter fun p => ¬ (p.1.2 = .int ∧ p.1.1 ∈ names.map constantName)

/-- The new constants in place of the old ones. -/
def substitution (ρ : Renaming) : Term.Substitution :=
  ρ.map fun p => (p.1, .const (constantName p.2) (.basic p.1.2))

end Renaming

/-- The variable with the new name that its constant gets, if it gets one. -/
def Variable.rename (ρ : Renaming) (v : Variable) : Variable :=
  match v.type.sort? with
  | .ok s =>
    match ρ.name? (constantName v.name) s with
    | some name => v.withName name
    | none => v
  | .error _ => v

namespace Exp

mutual

/-- The expression with its references renamed, unless a quantifier binds them. -/
def rename (ρ : Renaming) : Exp → Exp
  | .var v => .var (v.rename ρ)
  | .int n => .int n
  | .float x => .float x
  | .bool b => .bool b
  | .call name parameters body args => .call name parameters body (renameArgs ρ args)
  | .sub array index => .sub (array.rename ρ) (index.rename ρ)
  | .upd array index value length =>
    .upd (array.rename ρ) (index.rename ρ) (value.rename ρ) length
  | .not arg => .not (arg.rename ρ)
  | .neg arg => .neg (arg.rename ρ)
  | .bin op left right => .bin op (left.rename ρ) (right.rename ρ)
  | .quantified kind names body => .quantified kind names (body.rename (ρ.under names))
  | .len arg => .len (arg.rename ρ)
  | .bare => .bare

/-- `rename` over the arguments of a call. -/
def renameArgs (ρ : Renaming) : List Exp → List Exp
  | [] => []
  | arg :: args => arg.rename ρ :: renameArgs ρ args

end

end Exp

example : (Exp.quantified .all ["k"] (.bin .gt (.var (.plain "k" .int))
      (.sub (.var (.arrayOf "a" .int)) (.var (.plain "n" .int))))).rename
        [(("k", .int), "l"), (("n", .int), "m")] =
    .quantified .all ["k"] (.bin .gt (.var (.plain "k" .int))
      (.sub (.var (.arrayOf "a" .int)) (.var (.plain "m" .int)))) :=
  rfl

/-- The renaming does nothing to an expression's term but to replace constants: quantifiers bind none
of the new names, and the constants of lengths and those that called predicates mention freely are
not renamed. -/
structure Renaming.Suits (ρ : Renaming) (ds : Definitions) (e : Exp) : Prop where
  fresh : ∀ p ∈ ρ, constantName p.2 ∉ e.names.map constantName
  lengths : ∀ p ∈ ρ, p.1.1 ∉ e.lengths.map constantName
  free : ∀ call ∈ e.calls, ∀ d, ds.lookup? call.1 = some d →
    ∀ p ∈ ρ, (p.1.1, .basic p.1.2) ∉ d.free

/-! ## Constants of an expression's term -/

section
variable {ds : Definitions} {e part : Exp} {c : String × TermSort}

namespace Exp

/-- The names in a part are among those of the expression, and so are its calls. -/
theorem Occurs.subset {via : Place → Prop} {bound : List String} (h : Occurs via part bound e) :
    part.names ⊆ e.names ∧ part.calls ⊆ e.calls := by
  induction h with
  | here => exact ⟨List.Subset.refl _, List.Subset.refl _⟩
  | inside ho _ _ ih =>
    exact ⟨List.Subset.trans ih.1 (names_subset_of_operand ho).1,
      List.Subset.trans ih.2 (calls_subset_of_operand ho)⟩

/-- The variable that a reference or a length stands for has one of its names. -/
theorem mem_names_of_standsFor? {v : Variable} (hv : e.standsFor? = some v) : v.name ∈ e.names := by
  cases e with
  | var w =>
    cases hv
    exact List.mem_singleton.2 rfl
  | len arg =>
    have harg : arg.length? = some v := hv
    simp [names, harg]
  | _ => cases hv

/-- Each constant of an expression's term has one of its names, unless a called predicate mentions it
freely. -/
theorem mentions_of_mem_constants (e : Exp) {t : Term} (ht : e.encode ds = .ok t)
    (hc : c ∈ t.constants) : e.Mentions ds c := by
  rcases shows_of_mem_constants e ht hc with
    ⟨part, v, _, hocc, hv, -, hname, -⟩ | ⟨name, _, _, args, _, d, hocc, hd, hfree, -⟩
  · rw [Mentions, hname]
    exact .inl (List.mem_map_of_mem (hocc.subset.1 (mem_names_of_standsFor? hv)))
  · exact .inr ⟨_, hocc.subset.2 List.mem_cons_self, d, hd, hfree⟩

end Exp

end

/-! ## Terms with constants replaced by constants -/

section
variable {τ : Term.Substitution} {ds : Definitions} {ρ : Renaming} {e part : Exp}

/-- The second term is the first one with its constants replaced. -/
def Term.Substitution.Maps (τ : Term.Substitution) (t u : Term) : Prop := u = t.substitute τ

namespace Term.Substitution.Renames

/-- A substitution that renames constants leaves the sort of each term. -/
theorem sortOf_substitute (hτ : τ.Renames) (t : Term) : (t.substitute τ).sortOf = t.sortOf := by
  induction t with
  | int | real | bool | bound | not | toReal | quantified => rfl
  | const name s =>
    obtain ⟨n, hn⟩ := hτ.exists_apply (name, s)
    exact (congrArg sortOf hn :)
  | neg a ih => exact ih
  | app op a b ih => cases op <;> simp only [substitute, sortOf, ih]
  | store a i v ih => exact ih

/-- Terms and those with constants in place of their constants are in a congruence. -/
theorem congruence (hτ : τ.Renames) : Congruence τ.Maps where
  sortOf := by
    rintro t _ rfl
    exact hτ.sortOf_substitute t
  isNumeral := by
    rintro t _ rfl
    cases t with
    | const name s =>
      obtain ⟨n, hn⟩ := hτ.exists_apply (name, s)
      exact (congrArg isNumeral hn :)
    | _ => rfl
  isQuantified := by
    rintro t _ rfl
    cases t with
    | const name s =>
      obtain ⟨n, hn⟩ := hτ.exists_apply (name, s)
      exact (congrArg isQuantified hn :)
    | _ => rfl
  neg := by rintro _ _ rfl; rfl
  not := by rintro _ _ rfl; rfl
  toReal := by rintro _ _ rfl; rfl
  app := by rintro _ _ _ _ _ rfl rfl; rfl
  store := by rintro _ _ _ _ _ _ rfl rfl rfl; rfl

end Term.Substitution.Renames

/-- Related replacements put related terms in place of a constant, or both leave it. -/
theorem Term.Substitution.Related.lookup? {R : Term → Term → Prop} {σ σ' : Term.Substitution}
    (h : σ.Related R σ') (name : String) (s : TermSort) :
    σ.lookup? name s = none ∧ σ'.lookup? name s = none ∨
      ∃ t t', σ.lookup? name s = some t ∧ σ'.lookup? name s = some t' ∧ R t t' := by
  induction h with
  | nil => exact .inl ⟨rfl, rfl⟩
  | @cons p q σ σ' hpq _ ih =>
    simp only [Term.Substitution.lookup?, List.find?_cons, ← hpq.1] at ih ⊢
    split
    · exact .inr ⟨_, _, rfl, rfl, hpq.2⟩
    · exact ih

/-- Related replacements make related terms of any term. -/
theorem Term.Congruence.substitute {R : Term → Term → Prop} (H : Congruence R) (hrefl : ∀ t, R t t)
    (hquantified : ∀ {kind ns b b'}, R b b' → R (.quantified kind ns b) (.quantified kind ns b'))
    {σ σ' : Substitution} (h : σ.Related R σ') (t : Term) : R (t.substitute σ) (t.substitute σ') := by
  induction t with
  | int | real | bool | bound => exact hrefl _
  | const name s =>
    rcases h.lookup? name s with ⟨hl, hl'⟩ | ⟨a, a', hl, hl', ha⟩
    · simp only [Term.substitute, hl, hl']
      exact hrefl _
    · simp only [Term.substitute, hl, hl']
      exact ha
  | neg a ih => exact H.neg ih
  | not a ih => exact H.not ih
  | toReal a ih => exact H.toReal ih
  | app op a b iha ihb => exact H.app iha ihb
  | store a i v iha ihi ihv => exact H.store iha ihi ihv
  | quantified kind ns a ih => exact hquantified ih

/-- A replacement of constants that a definition does not mention freely can be made in the actuals
before these are put in place of the parameters. -/
theorem Definition.substitute_substitute {d : Definition} {σ σ' : Term.Substitution}
    (hσ : σ.map Prod.fst = d.formals) (h : σ.Related τ.Maps σ')
    (hfree : ∀ p ∈ τ, (p.1.1, .basic p.1.2) ∉ d.free) :
    (d.body.substitute σ).substitute τ = d.body.substitute σ' := by
  refine Term.substitute_substitute fun c hc => ?_
  unfold Term.Substitution.apply
  rcases h.lookup? c.1 c.2 with ⟨hl, hl'⟩ | ⟨t, t', hl, hl', rfl⟩
  · rw [hl, hl', Option.getD_none, Term.substitute]
    cases hτ : τ.lookup? c.1 c.2 with
    | none => rfl
    | some a =>
      obtain ⟨p, hp, hname, hsort, -⟩ := Term.Substitution.mem_of_lookup? hτ
      refine absurd ?_ (hfree p hp)
      rw [hname, hsort]
      exact Definition.mem_free_of_lookup? hσ hc hl
  · rw [hl, hl']
    rfl

/-! ## Terms of renamed expressions -/

namespace Renaming

/-- Each part of a renaming's substitution puts one constant in the place of another. -/
theorem mem_substitution {p : (String × BasicSort) × Term} (hp : p ∈ ρ.substitution) :
    ∃ q ∈ ρ, q.1 = p.1 ∧ p.2 = .const (constantName q.2) (.basic p.1.2) := by
  obtain ⟨q, hq, rfl⟩ := List.mem_map.1 hp
  exact ⟨q, hq, rfl, rfl⟩

/-- The substitution of a renaming renames constants. -/
theorem renames_substitution (ρ : Renaming) : ρ.substitution.Renames := fun _ hp =>
  let ⟨q, _, _, h⟩ := mem_substitution hp
  ⟨constantName q.2, h⟩

/-- The renaming under a quantifier is the substitution under the constants that it binds. -/
theorem substitution_under (ρ : Renaming) (names : List String) :
    (ρ.under names).substitution = ρ.substitution.under (names.map constantName) := by
  unfold under substitution Term.Substitution.under
  rw [List.filter_map]
  rfl

/-- The substitution of a renaming looks up the new name of a constant. -/
theorem lookup?_substitution (ρ : Renaming) (name : String) (s : TermSort) :
    ρ.substitution.lookup? name s = (ρ.name? name s).map fun n => .const (constantName n) s := by
  unfold Term.Substitution.lookup? substitution name?
  rw [List.find?_map, Option.map_map, Option.map_map]
  refine Option.map_congr fun p hp => ?_
  have hs := List.find?_some hp
  simp only [Function.comp_apply, Bool.and_eq_true, beq_iff_eq] at hs ⊢
  rw [hs.2]

/-- A renamed variable has the constant that is put in place of its own. -/
theorem encode_rename {v : Variable} {t : Term} (h : v.encode = .ok t) :
    (v.rename ρ).encode = .ok (t.substitute ρ.substitution) := by
  obtain ⟨s, hs, rfl⟩ := Variable.encode_eq_ok.1 h
  rw [Variable.encode_eq_ok]
  unfold Variable.rename
  simp only [Ty.hasSort_iff.1 hs, Term.substitute, lookup?_substitution]
  cases ρ.name? (constantName v.name) s with
  | none => exact ⟨s, hs, rfl⟩
  | some n => cases v <;> exact ⟨s, hs, rfl⟩

/-- Renaming a variable leaves its length variable. -/
theorem length?_rename (v : Variable) : (v.rename ρ).length? = v.length? := by
  unfold Variable.rename
  split
  · split
    · cases v <;> rfl
    · rfl
  · rfl

end Renaming

/-- Renaming an expression leaves its length variable. -/
theorem Exp.length?_rename (e : Exp) : (e.rename ρ).length? = e.length? := by
  cases e with
  | var v => exact Renaming.length?_rename v
  | _ => rfl

namespace Renaming.Suits

/-- A renaming that suits an expression suits its operands. -/
theorem operand {place : Place} (h : ρ.Suits ds e) (ho : (place, part) ∈ e.operands) :
    ρ.Suits ds part where
  fresh p hp hm := h.fresh p hp (List.map_subset _ (Exp.names_subset_of_operand ho).1 hm)
  lengths p hp hm := h.lengths p hp (List.map_subset _ (Exp.names_subset_of_operand ho).2 hm)
  free called hcalled := h.free called (Exp.calls_subset_of_operand ho hcalled)

/-- A renaming that suits a binary expression suits both sides. -/
theorem sides {op : BinOp} {left right : Exp} (h : ρ.Suits ds (.bin op left right)) :
    ρ.Suits ds left ∧ ρ.Suits ds right := by
  obtain ⟨p, hp⟩ := Exp.mem_parts.1 (by simp : left ∈ (Exp.bin op left right).parts)
  obtain ⟨q, hq⟩ := Exp.mem_parts.1 (by simp : right ∈ (Exp.bin op left right).parts)
  exact ⟨h.operand hp, h.operand hq⟩

/-- A renaming that suits an expression does so without the names that a quantifier binds. -/
theorem under (h : ρ.Suits ds e) (names : List String) : (ρ.under names).Suits ds e where
  fresh p hp := h.fresh p (List.mem_filter.1 hp).1
  lengths p hp := h.lengths p (List.mem_filter.1 hp).1
  free called hcalled d hd p hp := h.free called hcalled d hd p (List.mem_filter.1 hp).1

/-- The expressions that are encoded, with the constants replaced. -/
abbrev Renamed (ds : Definitions) (ρ : Renaming) : Exp → Exp → Prop :=
  Exp.Carries ds ρ.substitution.Maps

/-- The length of an array is not renamed. -/
theorem carries_len {arg : Exp} (h : ρ.Suits ds (.len arg)) :
    Renamed ds ρ (.len arg) (.len (arg.rename ρ)) := by
  intro t ht
  obtain ⟨v, hv, htype, rfl⟩ := encode_len_eq_ok.1 ht
  refine ⟨_, encode_len_eq_ok.2 ⟨v, (Exp.length?_rename arg).trans hv, htype, rfl⟩, ?_⟩
  change _ = (ρ.substitution.lookup? (constantName v.name) .int).getD _
  cases hl : ρ.substitution.lookup? (constantName v.name) .int with
  | none => rfl
  | some a =>
    obtain ⟨p, hp, hname, -⟩ := Term.Substitution.mem_of_lookup? hl
    obtain ⟨q, hq, heq, -⟩ := mem_substitution hp
    exact absurd (by simp [Exp.lengths, hv, heq, hname]) (h.lengths q hq)

/-- A renamed body makes a renamed quantifier. -/
theorem carries_quantified {kind : Quantifier} {names : List String} {body : Exp}
    (h : ρ.Suits ds (.quantified kind names body))
    (hb : Renamed ds (ρ.under names) body (body.rename (ρ.under names))) :
    Renamed ds ρ (.quantified kind names body) ((Exp.quantified kind names body).rename ρ) := by
  intro t ht
  obtain ⟨b, heb, hs, rfl⟩ := encode_quantified_eq_ok.1 ht
  obtain ⟨b', heb', rfl⟩ := hb b heb
  refine ⟨_, encode_quantified_eq_ok.2 ⟨_, heb', ?_, rfl⟩, ?_⟩
  · rw [(renames_substitution _).sortOf_substitute, hs]
  · unfold Term.Substitution.Maps
    rw [Term.substitute_quantify (renames_substitution ρ), substitution_under]
    -- No new constant is bound here, since no new name is in the expression.
    intro p hp name hname heq
    obtain ⟨q, hq, -, hp⟩ := mem_substitution hp
    obtain ⟨rfl, -⟩ := Term.const.inj (hp.symm.trans heq)
    refine h.fresh q hq ?_
    rw [Exp.names, List.map_append]
    exact List.mem_append_left _ hname

/-- Renamed arguments make a renamed call. -/
theorem carries_call {name : String} {parameters : List Variable} {body : Exp} {args : List Exp}
    (h : ρ.Suits ds (.call name parameters body args))
    (hargs : List.Forall₂ (Renamed ds ρ) args (Exp.renameArgs ρ args)) :
    Renamed ds ρ (.call name parameters body args)
      (.call name parameters body (Exp.renameArgs ρ args)) := by
  refine .call (renames_substitution ρ).congruence hargs fun d σ σ' hd hσ hrel => ?_
  refine (Definition.substitute_substitute hσ hrel fun p hp => ?_).symm
  obtain ⟨q, hq, heq, -⟩ := mem_substitution hp
  rw [← heq]
  exact h.free _ List.mem_cons_self d hd q hq

mutual

/-- A renamed expression is encoded if the original one is, to its term with the constants replaced. -/
theorem carries : ∀ {e : Exp} {ρ : Renaming}, ρ.Suits ds e → Renamed ds ρ e (e.rename ρ)
  | .var v, ρ, _ => fun t ht => by
    rw [Exp.encode] at ht
    exact ⟨_, by rw [Exp.rename, Exp.encode]; exact encode_rename ht, rfl⟩
  | .int n, ρ, _ => fun t ht => by
    obtain ⟨-, rfl⟩ := encode_int_eq_ok.1 ht
    exact ⟨_, ht, rfl⟩
  | .float x, ρ, _ => fun t ht => by
    obtain ⟨q, -, rfl⟩ := encode_float_eq_ok.1 ht
    exact ⟨_, ht, rfl⟩
  | .bool b, ρ, _ => fun t ht => by
    obtain rfl := encode_bool_eq_ok.1 ht
    exact ⟨_, ht, rfl⟩
  | .call name parameters body args, ρ, h => by
    rw [Exp.rename]
    refine h.carries_call (carriesArgs fun arg harg => ?_)
    obtain ⟨k, hk, rfl⟩ := List.getElem_of_mem harg
    exact h.operand (List.mem_mapIdx.2 ⟨k, hk, rfl⟩)
  | .sub array index, ρ, h => by
    rw [Exp.rename]
    exact .sub (renames_substitution ρ).congruence (carries (h.operand (.head _)))
      (carries (h.operand (.tail _ (.head _))))
  | .upd array index value length, ρ, h => by
    rw [Exp.rename]
    exact .upd (renames_substitution ρ).congruence (carries (h.operand (.head _)))
      (carries (h.operand (.tail _ (.head _)))) (carries (h.operand (.tail _ (.tail _ (.head _)))))
      length length
  | .not arg, ρ, h => by
    rw [Exp.rename]
    exact .not (renames_substitution ρ).congruence (carries (h.operand (.head _)))
  | .neg arg, ρ, h => by
    rw [Exp.rename]
    exact .neg (renames_substitution ρ).congruence (carries (h.operand (.head _)))
  | .bin op left right, ρ, h => by
    rw [Exp.rename]
    exact .bin (renames_substitution ρ).congruence op (carries h.sides.1) (carries h.sides.2)
  | .quantified kind names body, ρ, h =>
    h.carries_quantified (carries ((h.under names).operand (.head _)))
  | .len arg, ρ, h => by
    rw [Exp.rename]
    exact h.carries_len
  | .bare, ρ, _ => fun t ht => absurd ht encode_bare_ne_ok

/-- `carries` over the arguments of a call. -/
theorem carriesArgs : ∀ {args : List Exp} {ρ : Renaming}, (∀ arg ∈ args, ρ.Suits ds arg) →
    List.Forall₂ (Renamed ds ρ) args (Exp.renameArgs ρ args)
  | [], _, _ => .nil
  | _ :: _, _, h => .cons (carries (h _ List.mem_cons_self))
      (carriesArgs fun _ harg => h _ (List.mem_cons_of_mem _ harg))

end

end Renaming.Suits

end

end Discharge
