import Discharge.Proofs.Syntax.RoundTrip

/-!
# Parts and the names in scope

`Exp.Throughout p bound e` says that `p` holds of every part of an expression, each taken with the
names that are bound where it stands. What a name refers to depends on them: a bound name is an
integer, any other name is the last declaration of it (`Variable.Refers`).

`Tree.resolve_eq_ok_iff` says that the rules of `Resolves` are all that resolution does.
-/

namespace Discharge

open Token (IsKeyword IsName)

/-- Whether a text is a name and no keyword. -/
def IsIdentifier (n : String) : Prop := IsName n ∧ ¬ IsKeyword n

/-- A letter is an identifier. -/
theorem isIdentifier_of_letter {c : Char} (h : Token.isNameStart c = true) :
    IsIdentifier (String.ofList [c]) := by
  refine ⟨⟨c, [], rfl, h, List.forall_mem_nil _⟩, fun hk => ?_⟩
  rcases hk with hk | hk <;> simpa using congrArg (·.toList.length) hk

namespace Exp

/-- `Throughout p bound e`: the property `p` holds of the expression `e`, where the names `bound` are
bound, and of all its parts. The arguments of lengths are parts, the bodies of called predicates are
not. -/
inductive Throughout (p : List String → Exp → Prop) : List String → Exp → Prop
  | var {bound v} (h : p bound (.var v)) : Throughout p bound (.var v)
  | int {bound n} (h : p bound (.int n)) : Throughout p bound (.int n)
  | float {bound x} (h : p bound (.float x)) : Throughout p bound (.float x)
  | bool {bound b} (h : p bound (.bool b)) : Throughout p bound (.bool b)
  | call {bound name parameters body args} (h : p bound (.call name parameters body args))
      (hargs : ∀ arg ∈ args, Throughout p bound arg) :
      Throughout p bound (.call name parameters body args)
  | sub {bound array index} (h : p bound (.sub array index)) (ha : Throughout p bound array)
      (hi : Throughout p bound index) : Throughout p bound (.sub array index)
  | upd {bound array index value length} (h : p bound (.upd array index value length))
      (ha : Throughout p bound array) (hi : Throughout p bound index)
      (hv : Throughout p bound value) : Throughout p bound (.upd array index value length)
  | not {bound arg} (h : p bound (.not arg)) (ha : Throughout p bound arg) :
      Throughout p bound (.not arg)
  | neg {bound arg} (h : p bound (.neg arg)) (ha : Throughout p bound arg) :
      Throughout p bound (.neg arg)
  | bin {bound op left right} (h : p bound (.bin op left right)) (hl : Throughout p bound left)
      (hr : Throughout p bound right) : Throughout p bound (.bin op left right)
  | quantified {bound kind names body} (h : p bound (.quantified kind names body))
      (hb : Throughout p (names ++ bound) body) : Throughout p bound (.quantified kind names body)
  | len {bound arg} (h : p bound (.len arg)) (ha : Throughout p bound arg) :
      Throughout p bound (.len arg)
  | bare {bound} (h : p bound .bare) : Throughout p bound .bare

namespace Throughout

variable {p q : List String → Exp → Prop} {bound : List String} {e : Exp}

/-- What holds throughout an expression holds of the expression itself. -/
theorem here (h : Throughout p bound e) : p bound e := by
  cases h <;> assumption

/-- What holds throughout an expression can be weakened. -/
theorem imp (hpq : ∀ bound e, p bound e → q bound e) (h : Throughout p bound e) :
    Throughout q bound e := by
  induction h with
  | var h => exact .var (hpq _ _ h)
  | int h => exact .int (hpq _ _ h)
  | float h => exact .float (hpq _ _ h)
  | bool h => exact .bool (hpq _ _ h)
  | call h _ ih => exact .call (hpq _ _ h) ih
  | sub h _ _ iha ihi => exact .sub (hpq _ _ h) iha ihi
  | upd h _ _ _ iha ihi ihv => exact .upd (hpq _ _ h) iha ihi ihv
  | not h _ ih => exact .not (hpq _ _ h) ih
  | neg h _ ih => exact .neg (hpq _ _ h) ih
  | bin h _ _ ihl ihr => exact .bin (hpq _ _ h) ihl ihr
  | quantified h _ ih => exact .quantified (hpq _ _ h) ih
  | len h _ ih => exact .len (hpq _ _ h) ih
  | bare h => exact .bare (hpq _ _ h)

end Throughout

end Exp

/-! ## What names refer to -/

/-- The last declaration of a name. -/
def Variable.last? (declared : List Variable) (n : String) : Option Variable :=
  (declared.filter (·.name == n)).getLast?

/-- The last predicate of a name. -/
def Predicate.last? (ps : List Predicate) (n : String) : Option Predicate :=
  (ps.filter (·.name == n)).getLast?

/-- `v.Refers declared bound`: where the names `bound` are bound, `v` is what its name refers to. -/
def Variable.Refers (declared : List Variable) (bound : List String) (v : Variable) : Prop :=
  if v.name ∈ bound then v = .plain v.name .int else Variable.last? declared v.name = some v

variable {ps : List Predicate} {scope : Scope} {declared : List Variable} {e : Exp} {t : Tree}
  {n : String}

/-- A declared name refers to its last declaration. -/
theorem Scope.lookup?_ofList : (ofList declared).lookup? n = Variable.last? declared n := by
  rw [Variable.last?, List.getLast?_eq_head?_reverse, ← List.filter_reverse, List.head?_filter]
  rfl

/-- A predicate's name refers to the last predicate that has it. -/
theorem Predicate.lookup?_eq_last? : lookup? ps n = last? ps n := by
  rw [last?, List.getLast?_eq_head?_reverse, ← List.filter_reverse, List.head?_filter]
  rfl

/-- A bound name refers to an integer, and other names to what they do outside. -/
theorem Scope.lookup?_bind {names : List String} :
    (scope.bind names).lookup? n = if n ∈ names then some (.plain n .int) else scope.lookup? n := by
  induction names with
  | nil => simp [bind]
  | cons m names ih =>
    rw [bind, List.map_cons, List.cons_append, lookup?, List.find?_cons]
    by_cases h : m = n
    · subst h
      simp [Variable.name]
    · have hne : ((Variable.plain m .int).name == n) = false := beq_false_of_ne h
      rw [hne]
      simpa [lookup?, bind, Ne.symm h] using ih

/-- Names that are bound one after the other are bound together, the inner ones in front. -/
theorem Scope.bind_bind (names bound : List String) :
    (scope.bind bound).bind names = scope.bind (names ++ bound) := by
  simp [bind]

/-- A variable is found under its name exactly if it is what the name refers to. -/
theorem Variable.refers_iff {bound : List String} {v : Variable} :
    v.Refers declared bound ↔ ((Scope.ofList declared).bind bound).lookup? v.name = some v := by
  rw [Scope.lookup?_bind, Scope.lookup?_ofList, Refers]
  split
  · rw [Option.some.injEq, eq_comm]
  · exact Iff.rfl

/-! ## Resolution -/

mutual

/-- What the rules say is what resolution answers with. -/
theorem Resolves.resolve_eq : ∀ {scope t e}, Resolves ps scope t e → t.resolve ps scope = .ok e
  | _, _, _, .int _ => by rw [Tree.resolve]
  | _, _, _, .float _ => by rw [Tree.resolve]
  | _, _, _, .truth _ => by rw [Tree.resolve]
  | _, _, _, .name _ h => by rw [Tree.resolve, h]
  | _, _, _, .call _ p h has => by
    rw [Tree.resolve, h]
    exact bind_eq_ok.2 ⟨_, has.resolveArgs_eq, rfl⟩
  | _, _, _, .sub ha hi => by
    rw [Tree.resolve, ha.resolve_eq, hi.resolve_eq]
    rfl
  | _, _, _, .upd _ ha hi hb h => by
    simp only [Tree.resolve, bind_eq_ok]
    exact ⟨_, ha.resolve_eq, _, hi.resolve_eq, _, hb.resolve_eq, by rw [h]⟩
  | _, _, _, .len ha => by
    rw [Tree.resolve, ha.resolve_eq]
    rfl
  | _, _, _, .not ha => by
    rw [Tree.resolve, ha.resolve_eq]
    rfl
  | _, _, _, .neg ha => by
    rw [Tree.resolve, ha.resolve_eq]
    rfl
  | _, _, _, .bin _ h ha hb => by
    simp only [Tree.resolve, bind_eq_ok]
    exact ⟨_, ha.resolve_eq, _, hb.resolve_eq, if_neg h⟩
  | _, _, _, .division _ h ha hb => by
    simp only [Tree.resolve, bind_eq_ok, if_true]
    exact ⟨_, ha.resolve_eq, _, hb.resolve_eq, _, h, rfl⟩
  | _, _, _, .quantified _ _ hb => by
    rw [Tree.resolve, hb.resolve_eq]
    rfl

/-- `Resolves.resolve_eq` for the arguments of a call. -/
theorem ResolvesArgs.resolveArgs_eq :
    ∀ {scope us as}, ResolvesArgs ps scope us as → Tree.resolveArgs ps scope us = .ok as
  | _, _, _, .nil => by rw [Tree.resolveArgs]
  | _, _, _, .cons ha has => by
    rw [Tree.resolveArgs, ha.resolve_eq, has.resolveArgs_eq]
    rfl

end

/-- A tree is resolved as an expression just if the rules say so. -/
theorem Tree.resolve_eq_ok_iff : t.resolve ps scope = .ok e ↔ Resolves ps scope t e :=
  ⟨t.resolves, Resolves.resolve_eq⟩

/-- The expression of an operator's symbol: division is the one that the operands choose. -/
theorem Resolves.of_sides {op : BinOp} {a b : Exp} {u : Tree}
    (hdiv : op = .div ∨ op = .floatDiv → divisionOf a b = .ok op) (ha : Resolves ps scope t a)
    (hb : Resolves ps scope u b) : Resolves ps scope (.bin op.asRead t u) (.bin op a b) := by
  cases op with
  | div => exact .division _ (hdiv (.inl rfl)) ha hb
  | floatDiv => exact .division _ (hdiv (.inr rfl)) ha hb
  | _ => exact .bin _ nofun ha hb

/-- Arguments are resolved if they are so place by place. -/
theorem ResolvesArgs.of_forall₂ {us : List Tree} {as : List Exp}
    (h : List.Forall₂ (Resolves ps scope) us as) : ResolvesArgs ps scope us as := by
  induction h with
  | nil => exact .nil
  | cons ha _ ih => exact .cons ha ih

end Discharge
