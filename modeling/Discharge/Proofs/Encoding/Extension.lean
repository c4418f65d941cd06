import Discharge.Proofs.Encoding.Correct

/-!
# Further definitions

Encoding looks at definitions only where a call names them. So what is encoded over some definitions
is encoded alike over definitions that extend them, and so is every defect, but for a missing
predicate, which may be there now (`Exp.persists_encode`). Attempts to define further predicates only
extend what is defined, and predicates that can each be defined can be defined in any order
(`Definitions.attempts_extend`).
-/

namespace Discharge

namespace Definitions

variable {ds ds' : Definitions}

/-- What is defined in `ds` is defined alike in `ds'`. -/
def Extends (ds' ds : Definitions) : Prop :=
  ∀ name d, ds.lookup? name = some d → ds'.lookup? name = some d

/-- The name is defined in `ds'` and was not in `ds`. -/
def Gains (ds ds' : Definitions) (name : String) : Prop :=
  ds.contains name = false ∧ ds'.contains name = true

/-- The definitions after an attempt to define a predicate, which may fail. -/
def attempt (ds : Definitions) (p : Predicate) : Definitions :=
  match ds.define p with
  | .ok ds' => ds'
  | .error _ => ds

/-- The definitions after attempts to define predicates, one after the other. -/
def attempts (ds : Definitions) (ps : List Predicate) : Definitions := ps.foldl attempt ds

/-- A name is not defined if it is not found. -/
theorem contains_eq_false_iff {name : String} :
    ds.contains name = false ↔ ds.lookup? name = none := by
  simp [contains]

/-- Entries at the end do not hide those before them. -/
theorem Extends.of_entries (h : ds.entries <+: ds'.entries) : ds'.Extends ds := by
  obtain ⟨later, h⟩ := h
  intro name d hd
  obtain ⟨entry, he, rfl⟩ := Option.map_eq_some_iff.1 hd
  rw [lookup?, ← h, List.find?_append, he]
  rfl

/-- One more definition at the end extends the definitions. -/
theorem add_extends (ds : Definitions) (name : String) (d : Definition) :
    (ds.add name d).Extends ds :=
  .of_entries (List.prefix_append ds.entries [(name, d)])

/-- An attempt to define a predicate leaves the definitions, and adds at most one at the end. -/
theorem prefix_attempt (ds : Definitions) (p : Predicate) :
    ds.entries <+: (ds.attempt p).entries := by
  unfold attempt
  split
  · next hp =>
    obtain ⟨-, fs, body, -, -, -, rfl⟩ := define_eq_ok hp
    exact List.prefix_append _ _
  · exact List.prefix_rfl

/-- Attempts to define predicates keep every entry in its place. -/
theorem prefix_attempts (ps : List Predicate) (ds : Definitions) :
    ds.entries <+: (ds.attempts ps).entries := by
  induction ps generalizing ds with
  | nil => exact List.prefix_rfl
  | cons p ps ih => exact (ds.prefix_attempt p).trans (ih (ds.attempt p))

end Definitions

/-! ## Encoding over more definitions -/

/-- Two outcomes are the same, unless the first one is that a predicate is missing which is there the
second time. -/
inductive Persists {α : Type} (gained : String → Prop) :
    Except Defect α → Except Defect α → Prop
  | same {x : Except Defect α} : Persists gained x x
  | missing {name : String} {y : Except Defect α} (h : gained name) :
      Persists gained (.error (.unregistered name)) y

section
variable {gained : String → Prop} {α β : Type}

/-- What persists in two steps, one after the other, persists in both together. -/
theorem Persists.bind {x y : Except Defect α} {f g : α → Except Defect β}
    (h : Persists gained x y) (hf : ∀ a, Persists gained (f a) (g a)) :
    Persists gained (x >>= f) (y >>= g) := by
  cases h with
  | same =>
    cases x with
    | error d => exact .same
    | ok a => exact hf a
  | missing h => exact .missing h

/-- The same is done in the end with outcomes that persist. -/
theorem Persists.map {x y : Except Defect α} (h : Persists gained x y)
    (f : α → Except Defect β) : Persists gained (x >>= f) (y >>= f) :=
  h.bind fun _ => .same

/-- Outcomes persist if what is missing the first time is missing the second time too. -/
theorem Persists.eq {x y : Except Defect α} (h : Persists gained x y)
    (hx : ∀ name, gained name → x ≠ .error (.unregistered name)) : y = x := by
  cases h with
  | same => rfl
  | missing h => exact absurd rfl (hx _ h)

end

namespace Exp

variable {ds ds' : Definitions}

/-- Application of an operator: the sides are encoded first, whatever the operator is. -/
theorem persists_encode_bin {gained : String → Prop} (op : BinOp) {left right : Exp}
    (hl : Persists gained (left.encode ds) (left.encode ds'))
    (hr : Persists gained (right.encode ds) (right.encode ds')) :
    Persists gained ((bin op left right).encode ds) ((bin op left right).encode ds') := by
  simp only [encode]
  split
  · exact hl.bind fun _ => .bind .same fun _ => hr.map _
  · exact hl.bind fun _ => hr.map _
  · exact hl.bind fun _ => .bind .same fun _ => hr.map _
  · exact hl.bind fun _ => .bind .same fun _ => hr.map _
  · exact hl.bind fun _ => .bind .same fun _ => hr.map _

mutual

/-- What is encoded over definitions is encoded alike over definitions that extend them, unless a
predicate was missing that is there now. -/
theorem persists_encode (h : ds'.Extends ds) :
    ∀ e : Exp, Persists (ds.Gains ds') (e.encode ds) (e.encode ds')
  | .var _ | .int _ | .float _ | .bool _ | .len _ | .bare => by
    simp only [encode]
    exact .same
  | .call name _ _ args => by
    simp only [encode]
    cases hd : ds.lookup? name with
    | none =>
      cases hd' : ds'.lookup? name with
      | none => exact .same
      | some d => exact .missing ⟨Definitions.contains_eq_false_iff.2 hd, by
          rw [Definitions.contains, hd']; rfl⟩
    | some d =>
      rw [h name d hd]
      dsimp only
      split
      · exact (persists_encodeArgs h d.formals args).map _
      · exact .same
  | .sub array index => by
    simp only [encode]
    exact (persists_encode h array).bind fun _ => .bind .same fun _ =>
      (persists_encode h index).map _
  | .upd array index value _ => by
    simp only [encode]
    exact (persists_encode h array).bind fun _ => .bind .same fun _ =>
      (persists_encode h index).bind fun _ => .bind .same fun _ => (persists_encode h value).map _
  | .not arg | .neg arg | .quantified _ _ arg => by
    simp only [encode]
    exact (persists_encode h arg).map _
  | .bin op left right =>
    persists_encode_bin op (persists_encode h left) (persists_encode h right)

/-- `persists_encode` over the arguments of a call. -/
theorem persists_encodeArgs (h : ds'.Extends ds) :
    ∀ (formals : List (String × BasicSort)) (args : List Exp),
      Persists (ds.Gains ds') (encodeArgs ds formals args) (encodeArgs ds' formals args)
  | [], [] | [], _ :: _ | _ :: _, [] => by
    simp only [encodeArgs]
    exact .same
  | _ :: formals, arg :: args => by
    simp only [encodeArgs]
    exact (persists_encode h arg).bind fun _ => .bind .same fun _ =>
      (persists_encodeArgs h formals args).map _

end

/-- Encoding depends on definitions only through what is found of each name. -/
theorem encode_congr (h : ∀ name, ds.lookup? name = ds'.lookup? name) (e : Exp) :
    e.encode ds = e.encode ds' := by
  refine ((persists_encode (fun name d hd => (h name).symm.trans hd) e).eq ?_).symm
  rintro name ⟨hno, hyes⟩
  rw [Definitions.contains, h name] at hno
  rw [Definitions.contains, hno] at hyes
  cases hyes

end Exp

/-! ## Definitions in any order -/

namespace Definitions

variable {ds dp dq : Definitions} {p q : Predicate}

/-- A predicate that can be defined can be defined over more definitions, unless its name is taken.
It is added with the same body and parameters. -/
theorem define_of_extends {ds' dp : Definitions} (hds : ds'.Extends ds)
    (hn : ds'.lookup? p.name = none) (hp : ds.define p = .ok dp) :
    ∃ d, dp = ds.add p.name d ∧ ds'.define p = .ok (ds'.add p.name d) := by
  obtain ⟨-, fs, body, hfs, hb, hs, rfl⟩ := define_eq_ok hp
  have hb' : p.body.encode ds' = .ok body := by
    rw [(Exp.persists_encode hds p.body).eq fun _ _ => by simp [hb], hb]
  have hexpect : expect p.body .bool body = .ok body := expect_eq_ok.2 ⟨admits_bool.2 hs, rfl⟩
  refine ⟨⟨body, fs⟩, rfl, ?_⟩
  simp only [define, Definitions.encode, contains_eq_false_iff.2 hn, Bool.false_eq_true, if_false,
    bind_eq_ok]
  exact ⟨_, ⟨fs, hfs, body, hb', body, hexpect, rfl⟩, rfl⟩

/-- What was added before does not hinder a definition of another name, which is found beside it. -/
theorem define_after (hne : p.name ≠ q.name) (hp : ds.define p = .ok dp)
    (hq : ds.define q = .ok dq) : ∃ d, dp.define q = .ok d ∧
      ∀ name, d.lookup? name = if q.name = name then dq.lookup? name else dp.lookup? name := by
  obtain ⟨hpn, fs, body, -, -, -, rfl⟩ := define_eq_ok hp
  have hqn := (define_eq_ok hq).1
  have hn : (ds.add p.name ⟨body, fs⟩).lookup? q.name = none := by
    rw [lookup?_add hpn, if_neg hne, hqn]
  obtain ⟨d, rfl, hd⟩ := define_of_extends (ds.add_extends _ _) hn hq
  refine ⟨_, hd, fun name => ?_⟩
  rw [lookup?_add hn, lookup?_add hqn]
  split <;> rfl

/-- Predicates of different names that can each be defined can be defined one after the other in
both orders, and every name is found alike then. -/
theorem define_comm (hne : p.name ≠ q.name) (hp : ds.define p = .ok dp)
    (hq : ds.define q = .ok dq) : ∃ d d', dp.define q = .ok d ∧ dq.define p = .ok d' ∧
      ∀ name, d.lookup? name = d'.lookup? name := by
  obtain ⟨d, hd, hfind⟩ := define_after hne hp hq
  obtain ⟨d', hd', hfind'⟩ := define_after hne.symm hq hp
  refine ⟨d, d', hd, hd', fun name => ?_⟩
  obtain ⟨hpn, _, _, -, -, -, rfl⟩ := define_eq_ok hp
  obtain ⟨hqn, _, _, -, -, -, rfl⟩ := define_eq_ok hq
  rw [hfind, hfind', lookup?_add hpn, lookup?_add hqn]
  by_cases hpname : p.name = name
  · have hqname : ¬ q.name = name := fun h => hne (hpname.trans h.symm)
    simp only [if_pos hpname, if_neg hqname]
  · simp only [if_neg hpname]
    split <;> rfl

/-- Later definitions leave what was encoded before. Attempts to define predicates keep every entry,
and whatever an expression was encoded to, be it a term or a defect other than a missing predicate,
it still is. Predicates of different names that can each be defined can be defined in either order,
to definitions over which everything is found and encoded alike. -/
theorem attempts_extend (ds : Definitions) :
    (∀ ps : List Predicate, ds.entries <+: (ds.attempts ps).entries ∧
      (ds.attempts ps).Extends ds ∧
      ∀ e : Exp, (∀ name, e.encode ds ≠ .error (.unregistered name)) →
        e.encode (ds.attempts ps) = e.encode ds) ∧
    ∀ p q dp dq, p.name ≠ q.name → ds.define p = .ok dp → ds.define q = .ok dq →
      ∃ d d', dp.define q = .ok d ∧ dq.define p = .ok d' ∧
        (∀ name, d.lookup? name = d'.lookup? name) ∧ ∀ e : Exp, e.encode d = e.encode d' := by
  refine ⟨fun ps => ?_, fun p q dp dq hne hp hq => ?_⟩
  · have hkept := prefix_attempts ps ds
    refine ⟨hkept, .of_entries hkept, fun e he => ?_⟩
    exact (Exp.persists_encode (.of_entries hkept) e).eq fun name _ => he name
  · obtain ⟨d, d', hd, hd', hfind⟩ := define_comm hne hp hq
    exact ⟨d, d', hd, hd', hfind, Exp.encode_congr hfind⟩

/-- A predicate that calls one defined before and one that does not, in both orders; and a call of the
former, encoded before and after another definition and an attempt that fails. -/
theorem attempts_extend_of_call :
    let above : Predicate := ⟨"above", [.plain "x" .int],
      .bin .gt (.var (.plain "x" .int)) (.var (.plain "y" .int))⟩
    let below : Predicate := ⟨"below", [.plain "x" .int],
      .bin .lt (.var (.plain "x" .int)) (.var (.plain "z" .int))⟩
    let apart : Predicate := ⟨"apart", [.plain "x" .int], .not (above.call [.var (.plain "x" .int)])⟩
    let call := above.call [.var (.plain "n" .int)]
    ∃ ds, empty.define above = .ok ds ∧ (ds.attempts [above, below]).size = 2 ∧
      call.encode (ds.attempts [above, below]) =
        .ok (.app .gt (.const "n" .int) (.const "y" .int)) ∧
      ∃ dp dq d d', ds.define apart = .ok dp ∧ ds.define below = .ok dq ∧
        dp.define below = .ok d ∧ dq.define apart = .ok d' ∧ d ≠ d' ∧
        ∀ e : Exp, e.encode d = e.encode d' := by
  intro above below apart call
  let ds : Definitions :=
    ⟨[("above", ⟨.app .gt (.const "x" .int) (.const "y" .int), [("x", .int)]⟩)]⟩
  obtain ⟨hkeep, hcomm⟩ := attempts_extend ds
  obtain ⟨d, d', hd, hd', -, hencode⟩ := hcomm apart below _ _ (by decide) rfl rfl
  refine ⟨ds, rfl, rfl, ?_, _, _, d, d', rfl, rfl, hd, hd', ?_, hencode⟩
  · rw [(hkeep [above, below]).2.2 call nofun]
    rfl
  · cases hd
    cases hd'
    decide

end Definitions

end Discharge
