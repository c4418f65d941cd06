import Discharge.Proofs.Encoding.Extension
import Discharge.Proofs.Encoding.Renaming

/-!
# Names of parameters

The parameters of a predicate can be renamed together with the references to them in its body, and
every expression has the term that it had (`Definitions.define_rename`). The renamed body has the
term of the original one with the new constants in place of the old ones, and actuals put in place of
the new constants are then where they were put in place of the old ones
(`Definition.sameInstances_rename`). Encoding depends on definitions only through their terms with
actuals in place of the parameters (`Exp.encode_of_sameInstances`).
-/

namespace Discharge

/-! ## Definitions with the same instances -/

/-- The definitions have as many parameters of the same sorts, and the same terms with any actuals in
place of them. -/
structure Definition.SameInstances (d d' : Definition) : Prop where
  sorts : d'.formals.map Prod.snd = d.formals.map Prod.snd
  instances : ∀ actuals : List Term, actuals.length = d.formals.length →
    d'.body.substitute (d'.formals.zip actuals) = d.body.substitute (d.formals.zip actuals)

/-- The same names are defined, with the same instances. -/
def Definitions.SameInstances (ds ds' : Definitions) : Prop :=
  ∀ name, ds.lookup? name = none ∧ ds'.lookup? name = none ∨
    ∃ d d', ds.lookup? name = some d ∧ ds'.lookup? name = some d' ∧ d.SameInstances d'

namespace Exp

variable {ds ds' : Definitions}

/-- Calls over definitions with the same instances, whose arguments fail alike or have the same
terms. -/
theorem encode_call_of_sameInstances (h : ds.SameInstances ds') {name : String}
    {parameters : List Variable} {body : Exp} {args : List Exp}
    (hargs : ∀ formals formals' : List (String × BasicSort), args.length = formals.length →
      formals'.map Prod.snd = formals.map Prod.snd →
      (∃ d, encodeArgs ds formals args = .error d ∧ encodeArgs ds' formals' args = .error d) ∨
        ∃ actuals, actuals.length = formals.length ∧
          encodeArgs ds formals args = .ok (formals.zip actuals) ∧
          encodeArgs ds' formals' args = .ok (formals'.zip actuals)) :
    (call name parameters body args).encode ds' = (call name parameters body args).encode ds := by
  rw [encode, encode]
  rcases h name with ⟨hd, hd'⟩ | ⟨d, d', hd, hd', hsame⟩
  · rw [hd, hd']
  · have hlen : d'.formals.length = d.formals.length := by
      simpa using congrArg List.length hsame.sorts
    simp only [hd, hd', hlen]
    split
    · next hl =>
      rcases hargs d.formals d'.formals hl hsame.sorts with ⟨err, he, he'⟩ | ⟨as, has, he, he'⟩
      · rw [he, he']
        rfl
      · rw [he, he']
        exact congrArg Except.ok (hsame.instances as has)
    · rfl

mutual

/-- Encoding depends on definitions only through their instances. -/
theorem encode_of_sameInstances (h : ds.SameInstances ds') :
    ∀ e : Exp, e.encode ds' = e.encode ds
  | .var _ | .int _ | .float _ | .bool _ | .len _ | .bare => by simp only [encode]
  | .call _ _ _ args =>
    encode_call_of_sameInstances h fun _ _ => encodeArgs_of_sameInstances h args
  | .sub array index => by
    simp only [encode, encode_of_sameInstances h array, encode_of_sameInstances h index]
  | .upd array index value _ => by
    simp only [encode, encode_of_sameInstances h array, encode_of_sameInstances h index,
      encode_of_sameInstances h value]
  | .not arg | .neg arg | .quantified _ _ arg => by
    simp only [encode, encode_of_sameInstances h arg]
  | .bin _ left right => by
    simp only [encode, encode_of_sameInstances h left, encode_of_sameInstances h right]

/-- Arguments fail alike or have the same terms, whatever the names of the parameters. -/
theorem encodeArgs_of_sameInstances (h : ds.SameInstances ds') :
    ∀ (args : List Exp) {formals formals' : List (String × BasicSort)},
      args.length = formals.length → formals'.map Prod.snd = formals.map Prod.snd →
      (∃ d, encodeArgs ds formals args = .error d ∧ encodeArgs ds' formals' args = .error d) ∨
        ∃ actuals, actuals.length = formals.length ∧
          encodeArgs ds formals args = .ok (formals.zip actuals) ∧
          encodeArgs ds' formals' args = .ok (formals'.zip actuals)
  | [], [], [], _, _ => .inr ⟨[], rfl, rfl, rfl⟩
  | arg :: args, formal :: formals, formal' :: formals', hl, hs => by
    obtain ⟨hsort, hs⟩ := List.cons.inj hs
    simp only [encodeArgs, encode_of_sameInstances h arg, hsort]
    cases arg.encode ds with
    | error d => exact .inl ⟨d, rfl, rfl⟩
    | ok t =>
      simp only [bind, Except.bind]
      cases expect arg (.sort (.basic formal.2)) t with
      | error d => exact .inl ⟨d, rfl, rfl⟩
      | ok t =>
        rcases encodeArgs_of_sameInstances h args (Nat.succ.inj hl) hs with
          ⟨d, he, he'⟩ | ⟨actuals, hlen, he, he'⟩
        · rw [he, he']
          exact .inl ⟨d, rfl, rfl⟩
        · rw [he, he']
          exact .inr ⟨t.coerce (.basic formal.2) :: actuals, congrArg Nat.succ hlen, rfl, rfl⟩

end

end Exp

/-! ## Predicates with other parameters -/

/-- The new names for the constants of the parameters. -/
def Predicate.renaming (p : Predicate) (names : List String) : Renaming :=
  (p.parameters.filterMap Variable.formal?).zip names

/-- The predicate with its parameters renamed, and the references to them in its body. -/
def Predicate.rename (p : Predicate) (names : List String) : Predicate where
  name := p.name
  parameters := List.zipWith Variable.withName names p.parameters
  body := p.body.rename (p.renaming names)

/-- The parameters with other names. -/
def renamedFormals (names : List String) (formals : List (String × BasicSort)) :
    List (String × BasicSort) :=
  List.zipWith (fun name formal => (constantName name, formal.2)) names formals

namespace Definitions

variable {predicate : String}

/-- The parameters' constants have the parameters' names. -/
theorem map_fst_formals : ∀ {vs : List Variable} {fs : List (String × BasicSort)},
    formals predicate vs = .ok fs → fs.map Prod.fst = vs.map fun v => constantName v.name
  | [], _, h => by cases h; rfl
  | v :: vs, _, h => by
    simp only [formals] at h
    split at h
    · cases h
    · obtain ⟨rest, hrest, h⟩ := bind_eq_ok.1 h
      cases h
      exact congrArg (constantName v.name :: ·) (map_fst_formals hrest)

/-- Parameters with other names have the constants of these, of the same sorts. -/
theorem formals_withName : ∀ {vs : List Variable} {fs : List (String × BasicSort)}
    (names : List String), formals predicate vs = .ok fs →
      formals predicate (List.zipWith Variable.withName names vs) =
        .ok (renamedFormals names fs)
  | [], _, names, h => by
    cases h
    simp [formals, renamedFormals]
  | v :: vs, _, [], h => rfl
  | v :: vs, _, name :: names, h => by
    simp only [formals] at h
    split at h
    · cases h
    · next s hs =>
      obtain ⟨rest, hrest, h⟩ := bind_eq_ok.1 h
      cases h
      have htype : (v.withName name).type = v.type := by cases v <;> rfl
      have hname : (v.withName name).name = name := by cases v <;> rfl
      simp only [List.zipWith_cons_cons, formals, htype, hs, hname, formals_withName names hrest]
      rfl

end Definitions

/-! ## Renamed parameters and actuals -/

section
variable {formals : List (String × BasicSort)} {names : List String}

/-- Where no name of a parameter is repeated, each parameter has what was put beside it. -/
theorem find?_zip {β : Type} : ∀ {formals : List (String × BasicSort)} {values : List β} {k : Nat}
    (hk : k < formals.length) (hv : k < values.length), (formals.map Prod.fst).Nodup →
      ((formals.zip values).find? fun p =>
        p.1.1 == formals[k].1 && TermSort.basic p.1.2 == .basic formals[k].2) =
          some (formals[k], values[k])
  | formal :: formals, value :: values, 0, _, _, _ => by simp
  | formal :: formals, value :: values, k + 1, hk, hv, h => by
    obtain ⟨hformal, hformals⟩ := List.nodup_cons.1 h
    have hk' : k < formals.length := Nat.lt_of_succ_lt_succ hk
    have hne : formal.1 ≠ formals[k].1 := fun heq =>
      hformal (List.mem_map.2 ⟨formals[k], List.getElem_mem hk', heq.symm⟩)
    rw [List.zip_cons_cons, List.getElem_cons_succ, List.getElem_cons_succ,
      List.find?_cons_of_neg (by simp [hne])]
    exact find?_zip hk' (Nat.lt_of_succ_lt_succ hv) hformals

/-- Nothing was put beside a constant that is no parameter. -/
theorem find?_zip_eq_none {β : Type} {values : List β} {c : String × TermSort}
    (h : ∀ formal ∈ formals, c ≠ (formal.1, .basic formal.2)) :
    ((formals.zip values).find? fun p => p.1.1 == c.1 && TermSort.basic p.1.2 == c.2) = none := by
  rw [List.find?_eq_none]
  rintro ⟨formal, value⟩ hp heq
  simp only [Bool.and_eq_true, beq_iff_eq] at heq
  exact h formal (List.of_mem_zip hp).1 (Prod.ext heq.1.symm heq.2.symm)

/-- The constants of renamed parameters have the new names. -/
theorem map_fst_renamedFormals (hl : names.length = formals.length) :
    (renamedFormals names formals).map Prod.fst = names.map constantName := by
  rw [renamedFormals, List.map_zipWith]
  exact List.ext_getElem (by simp [hl]) (by simp)

/-- The constants of renamed parameters have the old sorts. -/
theorem map_snd_renamedFormals (hl : names.length = formals.length) :
    (renamedFormals names formals).map Prod.snd = formals.map Prod.snd := by
  rw [renamedFormals, List.map_zipWith]
  exact List.ext_getElem (by simp [hl]) (by simp)

end

/-- Definitions with renamed parameters have the same instances, if the new names are different and
no constant of the body has one of them. -/
theorem Definition.sameInstances_rename {d : Definition} {names : List String}
    (hl : names.length = d.formals.length) (hformals : (d.formals.map Prod.fst).Nodup)
    (hnames : (names.map constantName).Nodup)
    (hnew : ∀ c ∈ d.body.constants, c.1 ∉ names.map constantName) :
    d.SameInstances ⟨d.body.substitute (Renaming.substitution (d.formals.zip names)),
      renamedFormals names d.formals⟩ where
  sorts := map_snd_renamedFormals hl
  instances actuals hlen := by
    refine Term.substitute_substitute fun c hc => ?_
    unfold Term.Substitution.apply
    rw [Renaming.lookup?_substitution, Renaming.name?]
    by_cases hformal : ∃ formal ∈ d.formals, c = (formal.1, .basic formal.2)
    · obtain ⟨formal, hf, rfl⟩ := hformal
      obtain ⟨k, hk, rfl⟩ := List.getElem_of_mem hf
      have hname : k < names.length := hl ▸ hk
      have hactual : k < actuals.length := hlen ▸ hk
      -- The new constant of the parameter stands where that of the parameter stood.
      have hrenamed : k < (renamedFormals names d.formals).length := by
        simp [renamedFormals, hname, hk]
      have hget : (renamedFormals names d.formals)[k] = (constantName names[k], d.formals[k].2) := by
        simp [renamedFormals]
      have hnew := find?_zip hrenamed hactual (map_fst_renamedFormals hl ▸ hnames)
      rw [hget] at hnew
      simp only [find?_zip hk hname hformals, Term.Substitution.lookup?, find?_zip hk hactual hformals,
        Option.map_some, Option.getD_some, Term.substitute, hnew]
    · have hother : ∀ formal ∈ d.formals, c ≠ (formal.1, .basic formal.2) :=
        fun formal hf heq => hformal ⟨formal, hf, heq⟩
      have hrenamed : ∀ formal ∈ renamedFormals names d.formals, c ≠ (formal.1, .basic formal.2) := by
        rintro formal hf rfl
        refine hnew _ hc ?_
        rw [← map_fst_renamedFormals hl]
        exact List.mem_map_of_mem hf
      simp only [find?_zip_eq_none hother, Term.Substitution.lookup?, Option.map_none,
        Option.getD_none, Term.substitute, find?_zip_eq_none hrenamed]

/-! ## Predicates with renamed parameters -/

namespace Definitions

variable {ds ds' : Definitions} {name : String} {d d' : Definition}

/-- Definitions with the same instances can be added under a new name alike. -/
theorem SameInstances.add (hn : ds.lookup? name = none) (h : d.SameInstances d') :
    (ds.add name d).SameInstances (ds.add name d') := by
  intro other
  rw [lookup?_add hn, lookup?_add hn]
  split
  · exact .inr ⟨d, d', rfl, rfl, h⟩
  · cases hd : ds.lookup? other with
    | none => exact .inl ⟨rfl, rfl⟩
    | some e => exact .inr ⟨e, e, rfl, rfl, rfl, fun _ _ => rfl⟩

/-- A predicate of a new name with atomic parameters is accepted if its body is a formula. -/
theorem define_of_encode {p : Predicate} {fs : List (String × BasicSort)} {body : Term}
    (hn : ds.lookup? p.name = none) (hfs : formals p.name p.parameters = .ok fs)
    (hb : p.body.encode ds = .ok body) (hs : body.sortOf = .bool) :
    ds.define p = .ok (ds.add p.name ⟨body, fs⟩) := by
  have hexpect : expect p.body .bool body = .ok body := expect_eq_ok.2 ⟨admits_bool.2 hs, rfl⟩
  simp only [define, Definitions.encode, contains_eq_false_iff.2 hn, Bool.false_eq_true, if_false,
    bind_eq_ok]
  exact ⟨_, ⟨fs, hfs, body, hb, body, hexpect, rfl⟩, rfl⟩

/-- Names of parameters do not matter. Let a predicate be accepted whose parameters have different
names, and let these be changed in the parameters and in the references to them, to different names
that are neither in the body nor mentioned freely by a predicate that it calls; names are compared as
those of constants. If no parameter has the name of a length in the body, or of a constant that a
called predicate mentions freely, then the changed predicate is accepted as well, and every expression
is encoded over the new definitions as it is with the original predicate. -/
theorem define_rename {p : Predicate} {names : List String} (hp : ds.define p = .ok ds')
    (hl : names.length = p.parameters.length)
    (hparameters : (p.parameters.map fun v => constantName v.name).Nodup)
    (hnames : (names.map constantName).Nodup)
    (hnew : ∀ n ∈ names, constantName n ∉ p.body.names.map constantName)
    (hlengths : ∀ v ∈ p.parameters, constantName v.name ∉ p.body.lengths.map constantName)
    (hfree : ∀ call ∈ p.body.calls, ∀ d, ds.lookup? call.1 = some d → ∀ c ∈ d.free,
      (∀ n ∈ names, c.1 ≠ constantName n) ∧ ∀ v ∈ p.parameters, c.1 ≠ constantName v.name) :
    ∃ ds'', ds.define (p.rename names) = .ok ds'' ∧ ∀ e : Exp, e.encode ds'' = e.encode ds' := by
  obtain ⟨hn, fs, body, hfs, hb, hs, rfl⟩ := define_eq_ok hp
  have hfst := map_fst_formals hfs
  have hlen : names.length = fs.length := by
    simpa [← hl] using congrArg List.length hfst.symm
  have hρ : p.renaming names = fs.zip names := by rw [Predicate.renaming, ← formals_eq_ok hfs]
  -- The parameters can be renamed in the body.
  have hsuits : (p.renaming names).Suits ds p.body := by
    rw [hρ]
    have hmem (q : (String × BasicSort) × String) (hq : q ∈ fs.zip names) :
        q.2 ∈ names ∧ ∃ v ∈ p.parameters, constantName v.name = q.1.1 := by
      refine ⟨(List.of_mem_zip hq).2, List.mem_map.1 ?_⟩
      rw [← hfst]
      exact List.mem_map_of_mem (List.of_mem_zip hq).1
    refine ⟨fun q hq => hnew _ (hmem q hq).1, fun q hq => ?_, fun call hcall d hd q hq hc => ?_⟩
    · obtain ⟨v, hv, heq⟩ := (hmem q hq).2
      exact heq ▸ hlengths v hv
    · obtain ⟨v, hv, heq⟩ := (hmem q hq).2
      exact (hfree call hcall d hd _ hc).2 v hv heq.symm
  obtain ⟨_, hb', rfl⟩ := hsuits.carries body hb
  have hsort := ((Renaming.renames_substitution (p.renaming names)).sortOf_substitute body).trans hs
  refine ⟨_, define_of_encode (p := p.rename names) hn (formals_withName names hfs) hb' hsort, ?_⟩
  -- With actuals in place of the parameters, the bodies are the same.
  refine Exp.encode_of_sameInstances (.add hn ?_)
  rw [hρ]
  refine Definition.sameInstances_rename (d := ⟨body, fs⟩) hlen (hfst ▸ hparameters) hnames ?_
  intro c hc hname
  obtain ⟨n, hmem, heq⟩ := List.mem_map.1 hname
  rcases Exp.mentions_of_mem_constants p.body hb hc with hc | ⟨call, hcall, d, hd, hc⟩
  · exact hnew n hmem (heq ▸ hc)
  · exact (hfree call hcall d hd c hc).1 n hmem heq.symm

/-- A predicate whose body binds the name of a parameter, called with the new names in the other
order. -/
theorem define_rename_of_ordered :
    let x : Exp := .var (.plain "x" .int)
    let y : Exp := .var (.plain "y" .int)
    let ordered : Predicate := ⟨"ordered", [.plain "x" .int, .plain "y" .int],
      .bin .and (.bin .lt x y) (.quantified .ex ["x"] (.bin .gt x y))⟩
    let call := ordered.call [.var (.plain "b" .int), .var (.plain "a" .int)]
    ordered.rename ["a", "b"] = ⟨"ordered", [.plain "a" .int, .plain "b" .int],
      .bin .and (.bin .lt (.var (.plain "a" .int)) (.var (.plain "b" .int)))
        (.quantified .ex ["x"] (.bin .gt x (.var (.plain "b" .int))))⟩ ∧
    ∃ ds, empty.define (ordered.rename ["a", "b"]) = .ok ds ∧
      call.encode ds = .ok (.app .and (.app .lt (.const "b" .int) (.const "a" .int))
        (.quantified .ex ["x"] (.app .gt (.bound 0) (.const "a" .int)))) := by
  intro x y ordered call
  refine ⟨rfl, ?_⟩
  obtain ⟨ds, hds, hencode⟩ := define_rename (show empty.define ordered = .ok _ from rfl)
    (show ["a", "b"].length = _ from rfl) (by decide) (by decide) (by decide) (by decide)
    fun call hcall => nomatch hcall
  exact ⟨ds, hds, (hencode call).trans rfl⟩

/-- Parameters of different names can have one constant, since what follows a null character does not
count. Both then stand for the first actual, and they do not under other names. -/
theorem not_define_rename_of_null :
    let body (v w : String) : Exp := .bin .gt (.var (.plain v .int)) (.var (.plain w .int))
    let p (v w : String) : Predicate := ⟨"P", [.plain v .int, .plain w .int], body v w⟩
    let call : Exp :=
      .call "P" [] (.bool true) [.var (.plain "a" .int), .var (.plain "b" .int)]
    "n" ≠ "n\x00m" ∧ "x" ∉ (body "n" "n\x00m").names ∧ "y" ∉ (body "n" "n\x00m").names ∧
      ∃ ds ds', empty.define (p "n" "n\x00m") = .ok ds ∧ empty.define (p "x" "y") = .ok ds' ∧
        call.encode ds = .ok (.app .gt (.const "a" .int) (.const "a" .int)) ∧
        call.encode ds' = .ok (.app .gt (.const "a" .int) (.const "b" .int)) :=
  ⟨by decide, by decide, by decide,
    ⟨[("P", ⟨.app .gt (.const "n" .int) (.const "n" .int), [("n", .int), ("n", .int)]⟩)]⟩,
    ⟨[("P", ⟨.app .gt (.const "x" .int) (.const "y" .int), [("x", .int), ("y", .int)]⟩)]⟩,
    rfl, rfl, rfl, rfl⟩

end Definitions

end Discharge
