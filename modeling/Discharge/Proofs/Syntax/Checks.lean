import Discharge.Proofs.Syntax.Scoping

/-!
# The checks of resolution

All that resolution can object to in a tree is listed by `Tree.checks`, in the order in which it looks:
references and called names, the targets of updates, the operands of divisions.
`Exp.parse_reports_first_offence` says that a text of the grammar is read exactly if every check passes,
and that otherwise the error is that of the first check that does not.
-/

namespace Discharge

/-- A check of resolution, made where the names `bound` are bound. -/
inductive Check where
  /-- A reference to a name: it must be bound or declared. -/
  | reference (bound : List String) (name : String)
  /-- The name of a call: it must be that of a declared predicate. -/
  | callee (name : String)
  /-- The target of an update: it must be an array variable or an update. -/
  | target (bound : List String) (array : Tree)
  /-- An operand of a division: it must have a type. -/
  | operand (bound : List String) (side : Tree)

namespace Tree

mutual

/-- The checks of a tree in their order, where the names `bound` are bound. -/
def checks (bound : List String) : Tree → List Check
  | .int _ | .float _ | .truth _ => []
  | .name n => [.reference bound n]
  | .call n args => .callee n :: checksArgs bound args
  | .sub array index => checks bound array ++ checks bound index
  | .upd array index value =>
    checks bound array ++ (checks bound index ++ (checks bound value ++ [.target bound array]))
  | .len arg | .not arg | .neg arg => checks bound arg
  | .bin op left right =>
    checks bound left ++ (checks bound right ++
      if op = .div then [.operand bound left, .operand bound right] else [])
  | .quantified _ names body => checks (names ++ bound) body

/-- `checks` over the arguments of a call. -/
def checksArgs (bound : List String) : List Tree → List Check
  | [] => []
  | t :: ts => checks bound t ++ checksArgs bound ts

end

end Tree

/-- Whether an expression may be updated: it refers to an array variable or is itself an update. -/
def Exp.IsUpdatable : Exp → Prop
  | .var (.array _ _ _) => True
  | .upd _ _ _ _ => True
  | _ => False

/-- What may be updated has a length variable. -/
theorem Exp.isUpdatable_iff {e : Exp} : e.IsUpdatable ↔ ∃ length, e.length? = some length := by
  cases e with
  | var v => cases v <;> simp [IsUpdatable, length?, Variable.length?]
  | _ => simp [IsUpdatable, length?]

section

variable (declared : List Variable) (ps : List Predicate)

/-- The check finds nothing wrong. -/
def Check.Passes : Check → Prop
  | .reference bound n => n ∈ bound ∨ ∃ v ∈ declared, v.name = n
  | .callee n => ∃ p ∈ ps, p.name = n
  | .target bound t =>
    ∃ a, Resolves ps ((Scope.ofList declared).bind bound) t a ∧ a.IsUpdatable
  | .operand bound t =>
    ∃ a s, Resolves ps ((Scope.ofList declared).bind bound) t a ∧ a.typeOf = .ok s

/-- `c.Offends declared ps r`: the check finds the offence that the error `r` reports. -/
inductive Check.Offends : Check → ResolutionError → Prop
  | reference {bound n} (hbound : n ∉ bound) (hdeclared : ∀ v ∈ declared, v.name ≠ n) :
      Offends (.reference bound n) (.undeclaredVariable n)
  | callee {n} (h : ∀ p ∈ ps, p.name ≠ n) : Offends (.callee n) (.undeclaredPredicate n)
  | target {bound t a} (ht : Resolves ps ((Scope.ofList declared).bind bound) t a)
      (h : ¬ a.IsUpdatable) : Offends (.target bound t) .updateOfNoArray
  | operand {bound t a err} (ht : Resolves ps ((Scope.ofList declared).bind bound) t a)
      (h : a.typeOf = .error err) : Offends (.operand bound t) (.division err)

/-- `Reports declared ps cs x`: the answer `x` is what the checks `cs` come to. Either all of them
pass, or the first that does not is the one that the error is about. -/
def Reports {α : Type} (cs : List Check) : Except ResolutionError α → Prop
  | .ok _ => ∀ c ∈ cs, c.Passes declared ps
  | .error r => ∃ before c after, cs = before ++ c :: after ∧
      (∀ b ∈ before, b.Passes declared ps) ∧ c.Offends declared ps r

end

variable {declared : List Variable} {ps : List Predicate} {bound : List String} {c : Check}
  {cs ds : List Check} {n : String} {t u : Tree} {a b e : Exp} {r : ResolutionError}

/-- A check finds one offence at most. -/
theorem Check.Offends.unique {r' : ResolutionError} (h : c.Offends declared ps r)
    (h' : c.Offends declared ps r') : r = r' := by
  cases h with
  | reference => cases h'; rfl
  | callee => cases h'; rfl
  | target => cases h'; rfl
  | operand ht h =>
    cases h' with
    | operand ht' h' =>
      obtain rfl := Except.ok.inj (ht.resolve_eq.symm.trans ht'.resolve_eq)
      rw [h] at h'
      cases h'
      rfl

/-! ## Checks one after the other -/

namespace Reports

variable {α β : Type} {x : Except ResolutionError α} {f : α → Except ResolutionError β}

/-- Where there is no check, whatever is answered reports it. -/
theorem nil (y : α) : Reports declared ps [] (.ok y : Except ResolutionError α) :=
  List.forall_mem_nil _

/-- A value reports a single check that passes. -/
theorem pass (h : c.Passes declared ps) (y : α) :
    Reports declared ps [c] (.ok y : Except ResolutionError α) :=
  List.forall_mem_singleton.2 h

/-- An error reports the first check, if that is the one that it is about. -/
theorem offend (h : c.Offends declared ps r) (ds : List Check) :
    Reports declared ps (c :: ds) (.error r : Except ResolutionError α) :=
  ⟨[], c, ds, rfl, List.forall_mem_nil _, h⟩

/-- Two computations in a row make the checks of the first and then those of the second. -/
theorem bind (hx : Reports declared ps cs x)
    (hf : ∀ y, x = .ok y → Reports declared ps ds (f y)) :
    Reports declared ps (cs ++ ds) (x >>= f) := by
  cases x with
  | error r =>
    obtain ⟨before, c, after, rfl, hbefore, hc⟩ := hx
    exact ⟨before, c, after ++ ds, by simp, hbefore, hc⟩
  | ok y =>
    have hy := hf y rfl
    change Reports declared ps (cs ++ ds) (f y)
    cases hz : f y with
    | ok z =>
      rw [hz] at hy
      exact List.forall_mem_append.2 ⟨hx, hy⟩
    | error r =>
      rw [hz] at hy
      obtain ⟨before, c, after, rfl, hbefore, hc⟩ := hy
      exact ⟨cs ++ before, c, after, by simp, List.forall_mem_append.2 ⟨hx, hbefore⟩, hc⟩

/-- What is done with the result without any check changes no report. -/
theorem map (hx : Reports declared ps cs x) (g : α → β) :
    Reports declared ps cs (x >>= fun y => .ok (g y)) := by
  simpa using hx.bind fun y _ => nil (g y)

end Reports

/-! ## The checks of each form -/

/-- A name is not found in a scope if it is neither bound nor declared. -/
theorem Scope.lookup?_eq_none_iff : ((ofList declared).bind bound).lookup? n = none ↔
    n ∉ bound ∧ ∀ v ∈ declared, v.name ≠ n := by
  rw [lookup?_bind]
  split
  · next hn => simp [hn]
  · next hn => simp [hn, lookup?, ofList, List.find?_eq_none]

/-- A predicate is not found if none has the name. -/
theorem Predicate.lookup?_eq_none_iff : lookup? ps n = none ↔ ∀ p ∈ ps, p.name ≠ n := by
  simp [lookup?, List.find?_eq_none]

/-- Resolving a name reports the check of its reference. -/
theorem Tree.reports_name : Reports declared ps [.reference bound n]
    ((Tree.name n).resolve ps ((Scope.ofList declared).bind bound)) := by
  rw [resolve]
  cases hv : ((Scope.ofList declared).bind bound).lookup? n with
  | none =>
    obtain ⟨hbound, hdeclared⟩ := Scope.lookup?_eq_none_iff.1 hv
    exact .offend (.reference hbound hdeclared) []
  | some v =>
    refine .pass ?_ _
    by_contra hn
    have hnone := Scope.lookup?_eq_none_iff.2 (not_or.1 hn |>.imp id fun h v hv hname => h ⟨v, hv, hname⟩)
    rw [hv] at hnone
    cases hnone

/-- The operator of a division asks for the types of both operands, the left one first. -/
theorem reports_divisionOf (ha : Resolves ps ((Scope.ofList declared).bind bound) t a)
    (hb : Resolves ps ((Scope.ofList declared).bind bound) u b) :
    Reports declared ps [.operand bound t, .operand bound u] (divisionOf a b) := by
  unfold divisionOf
  cases hs : a.typeOf with
  | error err => exact .offend (.operand ha hs) _
  | ok s =>
    have hleft : (Check.operand bound t).Passes declared ps := ⟨a, s, ha, hs⟩
    cases hs' : b.typeOf with
    | error err =>
      exact ⟨[_], _, [], rfl, List.forall_mem_singleton.2 hleft, .operand hb hs'⟩
    | ok s' =>
      have hright : (Check.operand bound u).Passes declared ps := ⟨b, s', hb, hs'⟩
      exact List.forall_mem_cons.2 ⟨hleft, List.forall_mem_singleton.2 hright⟩

/-- The length of an update's target is what the check of the target asks for. -/
theorem reports_target (ha : Resolves ps ((Scope.ofList declared).bind bound) t a)
    (f : Variable → Exp) : Reports declared ps [.target bound t]
      (match a.length? with | some length => .ok (f length) | none => .error .updateOfNoArray) := by
  cases hl : a.length? with
  | some length =>
    have hpass : (Check.target bound t).Passes declared ps :=
      ⟨a, ha, Exp.isUpdatable_iff.2 ⟨length, hl⟩⟩
    exact .pass hpass _
  | none =>
    refine .offend (.target ha fun hup => ?_) []
    obtain ⟨length, hsome⟩ := Exp.isUpdatable_iff.1 hup
    rw [hl] at hsome
    cases hsome

/-! ## The checks of a tree -/

mutual

/-- Resolution reports what the checks of the tree come to. -/
theorem Tree.reports : ∀ (t : Tree) (bound : List String),
    Reports declared ps (t.checks bound) (t.resolve ps ((Scope.ofList declared).bind bound))
  | .int _, _ => .nil _
  | .float _, _ => .nil _
  | .truth _, _ => .nil _
  | .name _, _ => reports_name
  | .call n args, bound => by
    rw [checks, resolve]
    cases hp : Predicate.lookup? ps n with
    | none => exact .offend (.callee (Predicate.lookup?_eq_none_iff.1 hp)) _
    | some p =>
      have hpass : (Check.callee n).Passes declared ps :=
        ⟨p, by simpa using List.mem_of_find?_eq_some hp, Predicate.name_of_lookup? hp⟩
      exact (Reports.pass hpass ()).bind fun _ _ => (reportsArgs args bound).map p.call
  | .sub t u, bound => by
    rw [checks, resolve]
    exact (t.reports bound).bind fun a _ => (u.reports bound).map a.sub
  | .upd t u v, bound => by
    rw [checks, resolve]
    refine (t.reports bound).bind fun a ha => (u.reports bound).bind fun i _ =>
      (v.reports bound).bind fun b _ => ?_
    exact reports_target (t.resolves ha) (a.upd i b)
  | .len t, bound => by
    rw [checks, resolve]
    exact (t.reports bound).map Exp.len
  | .not t, bound => by
    rw [checks, resolve]
    exact (t.reports bound).map Exp.not
  | .neg t, bound => by
    rw [checks, resolve]
    exact (t.reports bound).map Exp.neg
  | .bin op t u, bound => by
    rw [checks, resolve]
    refine (t.reports bound).bind fun a ha => (u.reports bound).bind fun b hb => ?_
    split
    · exact (reports_divisionOf (t.resolves ha) (u.resolves hb)).map fun o => Exp.bin o a b
    · exact .nil _
  | .quantified kind names t, bound => by
    rw [checks, resolve, Scope.bind_bind]
    exact (t.reports (names ++ bound)).map (Exp.quantified kind names)

/-- `Tree.reports` for the arguments of a call. -/
theorem Tree.reportsArgs : ∀ (us : List Tree) (bound : List String),
    Reports declared ps (checksArgs bound us) (resolveArgs ps ((Scope.ofList declared).bind bound) us)
  | [], _ => .nil _
  | u :: us, bound => by
    rw [checksArgs, resolveArgs]
    exact (u.reports bound).bind fun a _ => (reportsArgs us bound).map (a :: ·)

end

/-! ## Every error has a text -/

/-- Whether the error has a text of its own: that of a division has one only if the typing error
has. -/
def ResolutionError.HasText : ResolutionError → Prop
  | .division err => ∃ text, err.message? = some text
  | _ => True

namespace Exp

/-- Whether the expression can be printed. -/
def IsPrintable (e : Exp) : Prop := ∃ s, e.print = .ok s

/-- The operands of a binary expression that can be printed can be printed. -/
theorem IsPrintable.of_bin {op : BinOp} {l r : Exp} (h : (bin op l r).IsPrintable) :
    l.IsPrintable ∧ r.IsPrintable := by
  obtain ⟨s, h⟩ := h
  unfold print at h
  obtain ⟨text, htext, h⟩ := bind_eq_ok.1 h
  cases hs : op.symbol? with
  | none => rw [hs] at h; cases h
  | some symbol =>
    rw [hs] at h
    obtain ⟨text', htext', -⟩ := bind_eq_ok.1 h
    exact ⟨⟨text, htext⟩, text', htext'⟩

end Exp

end Discharge
