import Discharge.Proofs.Encoding.Exchange
import Discharge.Proofs.Encoding.Extension
import Discharge.Proofs.Syntax.Texts

/-!
# Lengths of updated arrays

An update has the length variable of the array that it updates, so that the length of an update, of an
update of an update and so on is the constant of the array variable that all of them start from. Its
name has a dot, which no text can hold in a name. So no quantifier and no parameter that was read
catches it: from its place to the term of the whole, and from the body of a predicate into each of the
calls, it stays what it is (`Defined.keepsLengths`).

Where a constant has got in a term is shown by a mark. If a reference with a name of no other constant
is put in place of a length, then the term has the mark where it had the length, and only there.
-/

namespace Discharge

open Token (IsName)

/-! ## Lengths -/

/-- The constant of an array's length. -/
def Variable.lengthTerm (a : Variable) : Term := .const (a.name ++ ".length") .int

/-- The variable has the length that `arrayOf` gives arrays, or none. -/
def Variable.Standard (v : Variable) : Prop :=
  ∀ length, v.length? = some length → length = .plain (v.name ++ ".length") .int

/-- `A.Chain a`: the array is the result of updates, one after the other, of the variable `a`. -/
inductive Exp.Chain (a : Variable) : Exp → Prop
  | root : Chain a (.var a)
  | update (h : Chain a A) (index value : Exp) (length : Variable) :
      Chain a (.upd A index value length)

/-- The expression was read, and all array variables that it may use come from `arrayOf`. -/
def Exp.IsRead (e : Exp) : Prop :=
  ∃ text declared ps, parse text declared ps = .ok e ∧ ∀ v ∈ declared, v.Standard

/-- What reading makes sure of in each part: references and quantified names can be held by a text,
and updates have the length of the array that they update. -/
def Exp.Tidy : Exp → Prop
  | .var v => IsName v.name ∧ v.Standard
  | .upd array _ _ length => array.length? = some length
  | .quantified _ names _ => ∀ n ∈ names, IsName n
  | _ => True

/-- A name that can mark a place: no text can hold it. -/
def IsMark (z : String) : Prop := ¬ IsName z ∧ '\x00' ∉ z.toList

/-- `z` marks the lengths of `a` in the second term at some of the places where the first term has
them. -/
def Variable.Marks (a : Variable) (z : String) : Term → Term → Prop :=
  Term.Exchanges a.lengthTerm (.const z .int)

/-- What is kept of the length of `A` in `e`, where `A` starts from `a`. -/
structure Exp.KeepsLength (ds : Definitions) (e A : Exp) (a : Variable) : Prop where
  /-- By itself it is the constant of the length of `a`. -/
  term : (Exp.len A).encode ds = .ok a.lengthTerm
  /-- No quantifier around it binds the constant. -/
  free : ∀ {via bound}, Occurs via (.len A) bound e →
    ¬ Hides constantName bound (a.name ++ ".length", .int)
  /-- The term of the whole has the constant, unless the length stands in the argument of another
  length or in one that a predicate does not use. -/
  kept : ∀ {bound t}, Occurs (·.IsUsed ds) (.len A) bound e → e.encode ds = .ok t →
    (a.name ++ ".length", .int) ∈ t.constants
  /-- Wherever it has got in the term of the whole, the term has the constant there: a mark in place of
  the length is a mark in place of the constant. -/
  marked : ∀ {z ds' e'}, IsMark z → ds.Exchange a.lengthTerm (.const z .int) ds' →
    Replaces (.len A) (.var (.plain z .int)) e e' → CarriesTo ds ds' (a.Marks z) e e'
  /-- The length of `a` could as well stand in its place. -/
  first : ∀ {e' t}, Replaces (.len A) (.len (.var a)) e e' → e.encode ds = .ok t →
    e'.encode ds = .ok t
  /-- The two lengths are equal, whatever the constants mean. -/
  valid : ∃ t, (Exp.bin .eq (.len A) (.len (.var a))).encode ds = .ok t ∧ ∀ I, t.Holds I
  /-- So the equation means `true` wherever it stands in `e`. -/
  valid_within : ∀ {e' t}, Replaces (.bin .eq (.len A) (.len (.var a))) (.bool true) e e' →
    e.encode ds = .ok t → ∃ t', e'.encode ds = .ok t' ∧
      ∀ I env, t.denote I env = t'.denote I env

/-- What is kept in `e` of the lengths of `a` in a predicate's body, whose definition is `d`. -/
structure Exp.KeepsLengthsOf (ds : Definitions) (e : Exp) (p : Predicate) (d : Definition)
    (a : Variable) : Prop where
  /-- They are no parameters, so that no actual is put in their place. -/
  parameter : ∀ formal ∈ d.formals, formal.1 ≠ a.name ++ ".length"
  /-- No quantifier around a call binds their constant. -/
  free : ∀ {via bound parameters body args},
    Occurs via (.call p.name parameters body args) bound e →
      ¬ Hides constantName bound (a.name ++ ".length", .int)
  /-- The term of `e` has the constant, unless the call stands where no constant gets into the term. -/
  kept : ∀ {bound parameters body args t},
    Occurs (·.IsUsed ds) (.call p.name parameters body args) bound e → e.encode ds = .ok t →
      (a.name ++ ".length", .int) ∈ d.body.constants → (a.name ++ ".length", .int) ∈ t.constants
  /-- Where they are marked in the body, they are marked in the term of `e`, and they can be marked in
  further bodies. -/
  marked : ∀ {z ds' body'}, IsMark z → ds.Exchange a.lengthTerm (.const z .int) ds' →
    a.Marks z d.body body' →
      ds.Exchange a.lengthTerm (.const z .int) (ds'.withBody p.name body') ∧
      CarriesTo ds (ds'.withBody p.name body') (a.Marks z) e e

variable {ds : Definitions} {ps : List Predicate} {e A : Exp} {a v : Variable} {z : String}
  {scope : Scope} {t : Tree} {bound : List String}

/-- An array variable that is made from a name and a type has the standard length. -/
theorem Variable.standard_arrayOf (name : String) (base : Ty) : (arrayOf name base).Standard :=
  fun _ h => (Option.some.inj h).symm

/-- A plain variable has no length, and so no other than the standard one. -/
theorem Variable.standard_plain (name : String) (type : Ty) : (plain name type).Standard :=
  fun _ h => nomatch h

/-! ## Names -/

/-- No text can hold the name of a length. -/
theorem not_isName_length (n : String) : ¬ IsName (n ++ ".length") := fun h => by
  have hdot : '.' ∈ (n ++ ".length").toList := by simp [String.toList_append]
  exact absurd (h.of_mem hdot) (by decide)

/-- The name of a length is that of its constant. -/
theorem constantName_length {n : String} (h : IsName n) :
    constantName (n ++ ".length") = n ++ ".length" := by
  refine constantName_eq_self ?_
  rw [String.toList_append, List.mem_append, not_or]
  exact ⟨h.null_not_mem, by decide⟩

namespace Variable

/-- Arrays with different names have different lengths. -/
theorem lengthTerm_ne (h : a.name ≠ v.name) : a.lengthTerm ≠ v.lengthTerm := by
  intro heq
  have hchars := congrArg String.toList (Term.const.inj heq).1
  rw [String.toList_append, String.toList_append] at hchars
  exact h (String.toList_inj.1 (List.append_cancel_right hchars))

/-- The constant of a length can be exchanged for a mark. -/
theorem exchangeable_mark (a : Variable) (hz : IsMark z) :
    a.lengthTerm.Exchangeable (.const z .int) where
  sortOf := rfl
  isNumeral := rfl
  isQuantified := rfl
  nameless := List.forall_mem_singleton.2 (not_isName_length a.name)
  nameless' := List.forall_mem_singleton.2 hz.1

/-- The constant of a length can be exchanged for itself. -/
theorem exchangeable_self (a : Variable) : a.lengthTerm.Exchangeable a.lengthTerm where
  sortOf := rfl
  isNumeral := rfl
  isQuantified := rfl
  nameless := List.forall_mem_singleton.2 (not_isName_length a.name)
  nameless' := List.forall_mem_singleton.2 (not_isName_length a.name)

/-- The equation of a length with itself and `true`. -/
theorem exchangeable_true (a : Variable) :
    (Term.app .eq a.lengthTerm a.lengthTerm).Exchangeable (.bool true) where
  sortOf := rfl
  isNumeral := rfl
  isQuantified := rfl
  nameless := List.forall_mem_append.2 ⟨a.exchangeable_self.nameless, a.exchangeable_self.nameless⟩
  nameless' := List.forall_mem_nil _

end Variable

/-- A constant without a name is in a definition's body after actuals were put in place. -/
theorem Definition.mem_constants_substitute_of_nameless {d : Definition}
    {σ : Term.Substitution} {c : String × TermSort} (hd : ∀ formal ∈ d.formals, IsName formal.1)
    (hσ : σ.map Prod.fst = d.formals) (hn : ¬ IsName c.1) (hc : c ∈ d.body.constants) :
    c ∈ (d.body.substitute σ).constants := by
  have hnames : ∀ p ∈ σ, IsName p.1.1 := fun p hp => hd p.1 (hσ ▸ List.mem_map_of_mem hp)
  have hself : σ.apply c = .const c.1 c.2 :=
    Term.substitute_of_nameless (u := .const c.1 c.2) hnames (List.forall_mem_singleton.2 hn)
  rw [Term.constants_substitute]
  exact List.mem_flatMap.2 ⟨c, hc, hself ▸ List.mem_singleton.2 rfl⟩

/-! ## What was read -/

/-- Binding names leaves the variables of a scope standard, since bound names are plain variables.
-/
theorem Scope.standard_bind (h : ∀ n v, scope.lookup? n = some v → v.Standard) (names : List String)
    (n : String) (v : Variable) (hv : (scope.bind names).lookup? n = some v) : v.Standard := by
  rw [lookup?_bind] at hv
  split at hv
  · cases hv
    exact Variable.standard_plain _ _
  · exact h n v hv

mutual

/-- Every part of what was read is tidy. -/
theorem Resolves.tidy : ∀ {scope t e} {bound : List String}, Resolves ps scope t e →
    (∀ n v, scope.lookup? n = some v → v.Standard) → (∀ x ∈ t.leaves, x.Legible) →
      e.Throughout (fun _ => Exp.Tidy) bound
  | _, _, _, _, .int _, _, _ => .int trivial
  | _, _, _, _, .float _, _, _ => .float trivial
  | _, _, _, _, .truth _, _, _ => .bool trivial
  | _, _, _, _, .name n h, hs, hleg => by
    have hn : IsName n := hleg _ List.mem_cons_self
    exact .var ⟨Scope.name_of_lookup? h ▸ hn, hs n _ h⟩
  | _, _, _, _, .call _ _ _ has, hs, hleg =>
    .call trivial (has.tidy hs (List.forall_mem_cons.1 hleg).2)
  | _, _, _, _, .sub ha hi, hs, hleg =>
    let ⟨hleg₁, hleg₂⟩ := List.forall_mem_append.1 hleg
    .sub trivial (ha.tidy hs hleg₁) (hi.tidy hs hleg₂)
  | _, _, _, _, .upd _ ha hi hv h, hs, hleg =>
    let ⟨hleg₁, hleg₂⟩ := List.forall_mem_append.1 hleg
    let ⟨hleg₂, hleg₃⟩ := List.forall_mem_append.1 hleg₂
    .upd h (ha.tidy hs hleg₁) (hi.tidy hs hleg₂) (hv.tidy hs hleg₃)
  | _, _, _, _, .len ha, hs, hleg => .len trivial (ha.tidy hs hleg)
  | _, _, _, _, .not ha, hs, hleg => .not trivial (ha.tidy hs hleg)
  | _, _, _, _, .neg ha, hs, hleg => .neg trivial (ha.tidy hs hleg)
  | _, _, _, _, .bin _ _ ha hb, hs, hleg | _, _, _, _, .division _ _ ha hb, hs, hleg =>
    let ⟨hleg₁, hleg₂⟩ := List.forall_mem_append.1 hleg
    .bin trivial (ha.tidy hs hleg₁) (hb.tidy hs hleg₂)
  | _, _, _, _, .quantified _ names hb, hs, hleg =>
    let ⟨hnames, hleg⟩ := List.forall_mem_append.1 hleg
    .quantified (fun _ hn => hnames _ (List.mem_map_of_mem hn))
      (hb.tidy (Scope.standard_bind hs names) hleg)

/-- `Resolves.tidy` for the arguments of a call. -/
theorem ResolvesArgs.tidy : ∀ {scope us as} {bound : List String}, ResolvesArgs ps scope us as →
    (∀ n v, scope.lookup? n = some v → v.Standard) → (∀ x ∈ Tree.leavesArgs us, x.Legible) →
      ∀ arg ∈ as, arg.Throughout (fun _ => Exp.Tidy) bound
  | _, _, _, _, .nil, _, _ => List.forall_mem_nil _
  | _, _, _, _, .cons ha has, hs, hleg =>
    let ⟨hleg₁, hleg₂⟩ := List.forall_mem_append.1 hleg
    List.forall_mem_cons.2 ⟨ha.tidy hs hleg₁, has.tidy hs hleg₂⟩

end

namespace Exp

/-- What was read is tidy in each part. -/
theorem IsRead.tidy (h : e.IsRead) : e.Throughout (fun _ => Tidy) [] := by
  obtain ⟨text, declared, ps, hparse, hs⟩ := h
  obtain ⟨t, ht, hr⟩ := parse_eq_ok.1 hparse
  obtain ⟨-, -, -, hleg⟩ := Tree.legible_of_ofText? ht
  refine (t.resolves hr).tidy (fun n v hv => hs v ?_) hleg
  exact List.mem_reverse.1 (List.mem_of_find?_eq_some hv)

/-- The quantifiers of a tidy expression bind names that a text can hold. -/
theorem Tidy.bindsNames (h : e.Tidy) : e.BindsNames := by
  cases e with
  | quantified => exact h
  | _ => exact List.forall_mem_nil _

/-- The quantifiers of what was read bind names that a text can hold. -/
theorem IsRead.bindsNames (h : e.IsRead) : e.Throughout (fun _ => BindsNames) [] :=
  h.tidy.imp fun _ _ => Tidy.bindsNames

/-- Updates have the length of the variable that they start from. -/
theorem Chain.length?_eq (h : A.Chain a) (hA : A.Throughout (fun _ => Tidy) bound) :
    IsName a.name ∧ a.Standard ∧ A.length? = a.length? := by
  induction h with
  | root => exact ⟨hA.here.1, hA.here.2, rfl⟩
  | update _ _ _ _ ih =>
    cases hA with
    | upd hlength hA =>
      obtain ⟨hname, hstandard, heq⟩ := ih hA
      exact ⟨hname, hstandard, hlength.symm.trans heq⟩

/-- The length of an array is the constant of the variable's length, if the variable has one. -/
theorem Chain.encode_len (h : A.Chain a) (hA : A.Throughout (fun _ => Tidy) bound) {u : Term}
    (hu : (Exp.len A).encode ds = .ok u) : (Exp.len A).encode ds = .ok a.lengthTerm ∧
      (Exp.len (.var a)).encode ds = .ok a.lengthTerm := by
  obtain ⟨v, hv, -, -⟩ := encode_len_eq_ok.1 hu
  obtain ⟨hname, hstandard, heq⟩ := h.length?_eq hA
  have hlength := hstandard v (heq.symm.trans hv)
  have hconstant : a.lengthTerm = .const (constantName v.name) .int := by
    rw [hlength]
    exact congrArg (Term.const · .int) (constantName_length hname).symm
  have htype : v.type = .int := by rw [hlength]; rfl
  exact ⟨encode_len_eq_ok.2 ⟨v, hv, htype, hconstant⟩,
    encode_len_eq_ok.2 ⟨v, heq.symm.trans hv, htype, hconstant⟩⟩

/-! ## Where lengths get -/

/-- No quantifier that was read hides a length. -/
theorem IsRead.not_hides_length (he : e.IsRead) {via : Place → Prop} {part : Exp}
    (ho : Occurs via part bound e) (a : Variable) :
    ¬ Hides constantName bound (a.name ++ ".length", .int) :=
  not_hides_of_isName (he.bindsNames.isName_of_occurs ho) (not_isName_length a.name)

/-- The equation of a chain's length with that of its variable. -/
theorem Chain.encode_equation (h : A.Chain a) (hA : A.Throughout (fun _ => Tidy) bound) {u : Term}
    (hu : (Exp.len A).encode ds = .ok u) :
    (Exp.bin .eq (.len A) (.len (.var a))).encode ds =
      .ok (.app .eq a.lengthTerm a.lengthTerm) := by
  obtain ⟨hlen, hroot⟩ := h.encode_len hA hu
  exact encode_bin hlen hroot rfl rfl (.equality rfl (.inl rfl))

/-- A length is equal to itself under every interpretation. -/
theorem denote_equation (a : Variable) (I : Interpretation) (env : List Int) :
    (Term.app .eq a.lengthTerm a.lengthTerm).denote I env = (Term.bool true).denote I env := by
  simp [Term.denote, TermOp.denote]

section
variable {ds' : Definitions} (h : A.Chain a) (hA : A.Throughout (fun _ => Tidy) bound)

include h hA

/-! What stands in place of a length, and the term that it has instead. -/

/-- The mark can stand for the length of an updated array, which is that of its first array. -/
theorem Chain.carriesTo_mark (hz : IsMark z) :
    CarriesTo ds ds' (a.Marks z) (.len A) (.var (.plain z .int)) := by
  intro t ht
  obtain rfl := Except.ok.inj ((h.encode_len hA ht).1.symm.trans ht)
  have hmark : (Exp.var (.plain z .int)).encode ds' = .ok (.const z .int) := by
    rw [encode, Variable.encode_eq_ok]
    exact ⟨.int, .int, by rw [Variable.name, constantName_eq_self hz.2]⟩
  exact ⟨_, hmark, .here⟩

/-- The length of an updated array has the term of the length of its first array. -/
theorem Chain.carriesTo_first :
    CarriesTo ds ds (Term.Exchanges a.lengthTerm a.lengthTerm) (.len A) (.len (.var a)) := by
  intro t ht
  obtain ⟨hlen, hroot⟩ := h.encode_len hA ht
  obtain rfl := Except.ok.inj (hlen.symm.trans ht)
  exact ⟨_, hroot, .same⟩

/-- The equation between the length of an updated array and that of its first array can be exchanged
for truth. -/
theorem Chain.carriesTo_true {u : Term} (hu : (Exp.len A).encode ds = .ok u) :
    CarriesTo ds ds (Term.Exchanges (.app .eq a.lengthTerm a.lengthTerm) (.bool true))
      (.bin .eq (.len A) (.len (.var a))) (.bool true) := by
  intro t ht
  obtain rfl := Except.ok.inj ((h.encode_equation hA hu).symm.trans ht)
  exact ⟨.bool true, by rw [encode], .here⟩

end

/-- What is kept of the length of a chain in an expression that was read. -/
theorem IsRead.keepsLength (he : e.IsRead) (hds : ds.NamesFormals) (hmem : e.Contains (.len A))
    (hA : A.Chain a) {u : Term} (hu : (Exp.len A).encode ds = .ok u) : e.KeepsLength ds A a := by
  obtain ⟨bound, htidy⟩ := he.tidy.contained hmem.length
  have hlen : (Exp.len A).encode ds = .ok a.lengthTerm := (hA.encode_len htidy hu).1
  have hds' {u u' : Term} : ds.Exchange u u' ds := .refl u u' ds
  exact
    { term := hlen
      free := fun ho => he.not_hides_length ho a
      kept := by
        intro bound t ho ht
        refine ho.mem_constants (fun u hu => ?_) (he.not_hides_length ho a) ht
        obtain rfl := Except.ok.inj (hlen.symm.trans hu)
        exact List.mem_singleton.2 rfl
      marked := fun hz hx hr =>
        hr.exchanges (a.exchangeable_mark hz) hds hx he.bindsNames (hA.carriesTo_mark htidy hz) rfl
      first := by
        intro e' t hr ht
        obtain ⟨t', ht', hx⟩ := hr.exchanges a.exchangeable_self hds hds' he.bindsNames
          (hA.carriesTo_first htidy) rfl t ht
        exact hx.eq ▸ ht'
      valid := by
        refine ⟨_, hA.encode_equation htidy hu, fun I => ?_⟩
        rw [Term.Holds, denote_equation]
        exact rfl
      valid_within := by
        intro e' t hr ht
        obtain ⟨t', ht', hx⟩ := hr.exchanges a.exchangeable_true hds hds' he.bindsNames
          (hA.carriesTo_true htidy hu) rfl t ht
        exact ⟨t', ht', fun I => hx.denote (denote_equation a I)⟩ }

/-- What was read keeps the lengths of an array in the bodies of the predicates that it may call. -/
theorem IsRead.keepsLengthsOf (he : e.IsRead) (hds : ds.NamesFormals) {p : Predicate}
    {d : Definition} (hd : ds.lookup? p.name = some d) (a : Variable) :
    e.KeepsLengthsOf ds p d a where
  parameter formal hf heq := not_isName_length a.name (heq ▸ hds p.name d hd formal hf)
  free ho := he.not_hides_length ho a
  kept ho ht hc := by
    refine ho.mem_constants (fun u hu => ?_) (he.not_hides_length ho a) ht
    obtain ⟨d', σ, hd', hl, hσ, rfl⟩ := encode_call_eq_ok.1 hu
    obtain rfl := Option.some.inj (hd.symm.trans hd')
    exact Definition.mem_constants_substitute_of_nameless (hds p.name d hd)
      (map_fst_encodeArgs hl hσ) (not_isName_length a.name) hc
  marked hz hx hb :=
    have hx' := hx.withBody hd hb
    ⟨hx', he.bindsNames.carriesTo (a.exchangeable_mark hz) hds hx'⟩

end Exp

/-- The definition of an accepted predicate holds the term of its body. -/
theorem Defined.encode_body (h : Defined ps ds) {p : Predicate} (hp : p ∈ ps) :
    ∃ d, ds.lookup? p.name = some d ∧ p.body.encode ds = .ok d.body := by
  induction h with
  | empty => cases hp
  | @accept ps ds q ds' h hq ih =>
    obtain ⟨hn, fs, body, -, hb, -, rfl⟩ := Definitions.define_eq_ok hq
    have hkept {e : Exp} {t : Term} (he : e.encode ds = .ok t) :
        e.encode (ds.add q.name ⟨body, fs⟩) = .ok t := by
      rw [(Exp.persists_encode (ds.add_extends _ _) e).eq fun _ _ => by simp [he], he]
    rcases List.mem_cons.1 hp with rfl | hp
    · exact ⟨_, by rw [Definitions.lookup?_add hn, if_pos rfl], hkept hb⟩
    · obtain ⟨d, hd, hbody⟩ := ih hp
      exact ⟨d, ds.add_extends _ _ _ _ hd, hkept hbody⟩
  | refuse _ _ ih => exact ih hp

/-- The length of any number of updates is the constant `a.length` of the variable `a` that the first
one is of, and it is this constant in the term of the whole expression: no quantifier that was read
binds it and no call replaces it, neither where the length stands in the expression nor where it
stands in the body of a predicate, which counts as an expression of its own. So the lengths of the
updates and of `a` are equal everywhere. Arrays of different names have different lengths. -/
theorem Defined.keepsLengths (h : Defined ps ds) (hds : ds.NamesFormals) :
    (∀ (e A : Exp) (a : Variable) (u : Term), e.IsRead → e.Contains (.len A) → A.Chain a →
      (Exp.len A).encode ds = .ok u → e.KeepsLength ds A a) ∧
    (∀ (e : Exp) (p : Predicate), e.IsRead → p ∈ ps → ∃ d, ds.lookup? p.name = some d ∧
      p.body.encode ds = .ok d.body ∧ ∀ a, e.KeepsLengthsOf ds p d a) ∧
    ∀ a b : Variable, a.name ≠ b.name → a.lengthTerm ≠ b.lengthTerm := by
  refine ⟨fun e A a u he hmem hA hu => he.keepsLength hds hmem hA hu, fun e p he hp => ?_,
    fun a b => Variable.lengthTerm_ne⟩
  obtain ⟨d, hd, hbody⟩ := h.encode_body hp
  exact ⟨d, hd, hbody, he.keepsLengthsOf hds hd⟩

/-- A length in a predicate's body and the length of an update that is an actual for it, under a
quantifier. -/
theorem keepsLengths_of_update :
    let a : Variable := .arrayOf "a" .int
    let i : Exp := .var (.plain "i" .int)
    let A : Exp := .upd (.var a) i i (.plain "a.length" .int)
    let longer : Predicate :=
      ⟨"longer", [.plain "x" .int], .bin .gt (.var (.plain "x" .int)) (.len (.var a))⟩
    let e : Exp := .quantified .all ["i"] (longer.call [.len A])
    ∃ ds d, Definitions.empty.define longer = .ok ds ∧ ds.lookup? "longer" = some d ∧
      e.encode ds = .ok (.quantified .all ["i"] (.app .gt a.lengthTerm a.lengthTerm)) ∧
      e.KeepsLength ds A a ∧ longer.body.KeepsLength ds (.var a) a ∧
      e.KeepsLengthsOf ds longer d a ∧ a.lengthTerm ≠ (Variable.arrayOf "b" .int).lengthTerm := by
  intro a i A longer e
  let d : Definition := ⟨.app .gt (.const "x" .int) (.const "a.length" .int), [("x", .int)]⟩
  let ds : Definitions := ⟨[("longer", d)]⟩
  have hdefine : Definitions.empty.define longer = .ok ds := rfl
  have hstandard : ∀ v ∈ [a, .plain "x" .int], v.Standard :=
    List.forall_mem_cons.2 ⟨Variable.standard_arrayOf _ _,
      List.forall_mem_singleton.2 (Variable.standard_plain _ _)⟩
  have hbody : longer.body.IsRead :=
    ⟨"x > \\length(a)", [a, .plain "x" .int], [], by cbv, hstandard⟩
  have he : e.IsRead :=
    ⟨"\\forall i. longer(\\length(a[i := i]))", [a, .plain "x" .int], [longer], by cbv, hstandard⟩
  have hx : IsName "x" := ⟨'x', [], rfl, by decide, List.forall_mem_nil _⟩
  have hnames : ds.NamesFormals := by
    intro name d' hd formal hf
    obtain ⟨entry, hentry, rfl⟩ := Definitions.mem_of_lookup? hd
    cases List.mem_singleton.1 hentry
    cases List.mem_singleton.1 hf
    exact hx
  obtain ⟨hkeeps, hkeepsOf, hne⟩ := Defined.keepsLengths (.accept .empty hdefine) hnames
  obtain ⟨d', hd, -, hcalled⟩ := hkeepsOf e longer he List.mem_cons_self
  cases hd
  have hmem : e.Contains (.len A) := .operand (.operand .self (.head _)) (.head _)
  exact ⟨ds, d, hdefine, rfl, rfl, hkeeps e A a _ he hmem (.update .root i i _) rfl,
    hkeeps _ _ a _ hbody (.operand .self (.tail _ (.head _))) .root rfl, hcalled a,
    hne _ _ (by decide)⟩

end Discharge
