import Discharge.Encoding.Encoder

/-!
# The rules of encoding

For each form of expression, an equation such as `encode_sub_eq_ok` says when its encoding succeeds
and with which term, from the encodings of its parts; `encode_bin_iff_builds` says it of the binary
operators at once, by `OperandRule.Builds`.

`EncodingRules ds P` says that a relation `P` of expressions and terms is closed under the rules by
which expressions are encoded over the definitions `ds`, and `EncodingRules.holds` that it then
holds of every expression and its term. Each rule gives the terms of the parts, that `P` holds of
them, and what the encoder requires of their sorts. Facts about encoding are proved by giving the
rules, one by one.
-/

namespace Discharge

/-- A computation of two steps succeeds if both do. -/
theorem bind_eq_ok {ε α β : Type} {x : Except ε α} {f : α → Except ε β} {b : β} :
    (x >>= f) = .ok b ↔ ∃ a, x = .ok a ∧ f a = .ok b := by
  cases x with
  | error e => exact ⟨nofun, fun ⟨_, h, _⟩ => nomatch h⟩
  | ok a => exact ⟨fun h => ⟨a, rfl, h⟩, fun ⟨_, h, h'⟩ => by cases h; exact h'⟩

/-- A computation of two steps fails with the first step, or with the second after it. -/
theorem bind_eq_error {ε α β : Type} {x : Except ε α} {f : α → Except ε β} {err : ε} :
    (x >>= f) = .error err ↔ x = .error err ∨ ∃ a, x = .ok a ∧ f a = .error err := by
  cases x <;> simp [bind, Except.bind]

/-- What is expected passes if its sort is admitted. -/
theorem expect_eq_ok {node : Exp} {expected : Expected} {t u : Term} :
    expect node expected t = .ok u ↔ expected.admits t.sortOf = true ∧ u = t := by
  unfold expect
  split
  · next h => simp [h, eq_comm]
  · next h => simp [h]

/-- Where a Boolean is expected only Booleans are admitted. -/
theorem admits_bool {s : TermSort} : Expected.bool.admits s = true ↔ s = .bool := by
  simp [Expected.admits]

/-- Where an integer is expected only integers are admitted. -/
theorem admits_int {s : TermSort} : Expected.int.admits s = true ↔ s = .int := by
  simp [Expected.admits]

/-- Where an array is expected only arrays are admitted. -/
theorem admits_array {s : TermSort} : Expected.array.admits s = true ↔ ∃ e, s = .array e := by
  rcases s with _ | e <;> simp [Expected.admits, TermSort.isArray]

/-! ## Terms of expressions by their parts -/

section
variable {ds : Definitions} {array index value arg left right body : Exp} {op : BinOp} {l r t : Term}

/-- An integer is encoded if it does not have too many digits. -/
theorem encode_int_eq_ok {n : Int} :
    (Exp.int n).encode ds = .ok t ↔ (integerText? n).isSome = true ∧ t = .int n := by
  show (if (integerText? n).isSome then _ else _) = Except.ok t ↔ _
  split
  · next h => simp [h, eq_comm]
  · next h => simp [h]

/-- A float is encoded if it has a decimal value, as that value. -/
theorem encode_float_eq_ok {x : Binary64} :
    (Exp.float x).encode ds = .ok t ↔ ∃ q, x.decimalValue? = some q ∧ t = .real q := by
  rw [Exp.encode]
  split
  · next q hq => simp [hq, eq_comm]
  · next hq => simp [hq]

/-- A truth value is encoded as itself. -/
theorem encode_bool_eq_ok {b : Bool} : (Exp.bool b).encode ds = .ok t ↔ t = .bool b := by
  show Except.ok (Term.bool b) = .ok t ↔ _
  rw [Except.ok.injEq, eq_comm]

/-- An expression without form is not encoded. -/
theorem encode_bare_ne_ok : Exp.bare.encode ds ≠ .ok t := nofun

/-- An operand of which something is expected is encoded if it is as expected. -/
theorem encode_operand_eq_ok {x : Expected} {build : Term → Term} :
    (arg.encode ds >>= fun a => expect arg x a >>= fun a => .ok (build a)) = .ok t ↔
    ∃ a, arg.encode ds = .ok a ∧ x.admits a.sortOf = true ∧ t = build a := by
  simp only [bind_eq_ok, expect_eq_ok]
  constructor
  · rintro ⟨a, ha, _, ⟨hs, rfl⟩, ht⟩
    cases ht
    exact ⟨_, ha, hs, rfl⟩
  · rintro ⟨a, ha, hs, rfl⟩
    exact ⟨a, ha, a, ⟨hs, rfl⟩, rfl⟩

/-- Two operands of which something is expected are encoded together if both are as expected. -/
theorem encode_pair_eq_ok {x y : Expected} {build : Term → Term → Term} :
    (left.encode ds >>= fun l => expect left x l >>= fun l => right.encode ds >>= fun r =>
      expect right y r >>= fun r => .ok (build l r)) = .ok t ↔
    ∃ l r, left.encode ds = .ok l ∧ right.encode ds = .ok r ∧ x.admits l.sortOf = true ∧
      y.admits r.sortOf = true ∧ t = build l r := by
  simp only [bind_eq_ok, expect_eq_ok]
  constructor
  · rintro ⟨l, hl, _, ⟨hsl, rfl⟩, r, hr, _, ⟨hsr, rfl⟩, ht⟩
    cases ht
    exact ⟨_, _, hl, hr, hsl, hsr, rfl⟩
  · rintro ⟨l, r, hl, hr, hsl, hsr, rfl⟩
    exact ⟨l, hl, l, ⟨hsl, rfl⟩, r, hr, r, ⟨hsr, rfl⟩, rfl⟩

/-- A subscript reads from an array at an integer. -/
theorem encode_sub_eq_ok : (Exp.sub array index).encode ds = .ok t ↔
    ∃ a i s, array.encode ds = .ok a ∧ index.encode ds = .ok i ∧ a.sortOf = .array s ∧
      i.sortOf = .int ∧ t = .app .select a i := by
  refine encode_pair_eq_ok.trans ?_
  simp only [admits_array, admits_int]
  constructor
  · rintro ⟨a, i, ha, hi, ⟨s, hsa⟩, hsi, ht⟩
    exact ⟨a, i, s, ha, hi, hsa, hsi, ht⟩
  · rintro ⟨a, i, s, ha, hi, hsa, hsi, ht⟩
    exact ⟨a, i, ha, hi, ⟨s, hsa⟩, hsi, ht⟩

/-- An update stores a value that fits the elements, widened to their sort. -/
theorem encode_upd_eq_ok {length : Variable} : (Exp.upd array index value length).encode ds = .ok t ↔
    ∃ a i v s, array.encode ds = .ok a ∧ index.encode ds = .ok i ∧ value.encode ds = .ok v ∧
      a.sortOf = .array s ∧ i.sortOf = .int ∧ v.sortOf.fits (.basic s) = true ∧
      t = .store a i (v.coerce (.basic s)) := by
  simp only [Exp.encode, bind_eq_ok, expect_eq_ok]
  constructor
  · rintro ⟨a, ha, _, ⟨hsa, rfl⟩, i, hi, _, ⟨hsi, rfl⟩, v, hv, _, ⟨hsv, rfl⟩, ht⟩
    obtain ⟨s, hs⟩ := admits_array.1 hsa
    rw [hs] at hsv ht
    cases ht
    exact ⟨_, _, _, s, ha, hi, hv, hs, admits_int.1 hsi, hsv, rfl⟩
  · rintro ⟨a, i, v, s, ha, hi, hv, hsa, hsi, hsv, rfl⟩
    exact ⟨a, ha, a, ⟨admits_array.2 ⟨s, hsa⟩, rfl⟩, i, hi, i, ⟨admits_int.2 hsi, rfl⟩, v, hv, v,
      ⟨by rw [hsa]; exact hsv, rfl⟩, by rw [hsa]; rfl⟩

/-- A negation is that of a Boolean. -/
theorem encode_not_eq_ok : (Exp.not arg).encode ds = .ok t ↔
    ∃ a, arg.encode ds = .ok a ∧ a.sortOf = .bool ∧ t = .not a := by
  refine encode_operand_eq_ok.trans ?_
  simp only [admits_bool]

/-- A negative is that of a number. -/
theorem encode_neg_eq_ok : (Exp.neg arg).encode ds = .ok t ↔
    ∃ a, arg.encode ds = .ok a ∧ a.sortOf.isArithmetic = true ∧ t = .neg a :=
  encode_operand_eq_ok

/-- A quantifier binds the constants of its names in a Boolean. -/
theorem encode_quantified_eq_ok {kind : Quantifier} {names : List String} :
    (Exp.quantified kind names body).encode ds = .ok t ↔
      ∃ b, body.encode ds = .ok b ∧ b.sortOf = .bool ∧
        t = Term.quantify kind (names.map constantName) b := by
  refine encode_operand_eq_ok.trans ?_
  simp only [admits_bool]

/-- The term of a length is an integer constant. -/
theorem encodeLength_eq_ok {node : Exp} (h : encodeLength node arg = .ok t) :
    ∃ v, arg.length? = some v ∧ v.type = .int ∧ t = .const (constantName v.name) .int := by
  unfold encodeLength at h
  split at h
  · cases h
  · next v hv =>
    split at h
    · next ht => cases h; exact ⟨v, hv, ht, rfl⟩
    · obtain ⟨s, -, h⟩ := bind_eq_ok.1 h
      cases h

/-- A length is the constant of an integer variable, whatever the array is encoded as. -/
theorem encode_len_eq_ok : (Exp.len arg).encode ds = .ok t ↔
    ∃ v, arg.length? = some v ∧ v.type = .int ∧ t = .const (constantName v.name) .int := by
  refine ⟨encodeLength_eq_ok, fun ⟨v, hv, htype, ht⟩ => ?_⟩
  show encodeLength (.len arg) arg = .ok t
  rw [encodeLength, hv, ht]
  exact if_pos htype

/-- A call is the body of its predicate with the arguments in place of the parameters. -/
theorem encode_call_eq_ok {name : String} {parameters : List Variable} {args : List Exp} :
    (Exp.call name parameters body args).encode ds = .ok t ↔
      ∃ d σ, ds.lookup? name = some d ∧ args.length = d.formals.length ∧
        Exp.encodeArgs ds d.formals args = .ok σ ∧ t = d.body.substitute σ := by
  rw [Exp.encode]
  constructor
  · intro h
    split at h
    · cases h
    · next d hd =>
      split at h
      · next hl =>
        obtain ⟨σ, hσ, ht⟩ := bind_eq_ok.1 h
        cases ht
        exact ⟨d, σ, hd, hl, hσ, rfl⟩
      · cases h
  · rintro ⟨d, σ, hd, hl, hσ, rfl⟩
    simp only [hd, if_pos hl]
    exact bind_eq_ok.2 ⟨σ, hσ, rfl⟩

/-- The operator's rule admits operands with terms `l` and `r`, and builds `t` of them. -/
def OperandRule.Builds (l r t : Term) : OperandRule → Prop
  | .booleans build => l.sortOf = .bool ∧ r.sortOf = .bool ∧ t = build l r
  | .alike build =>
    (l.sortOf = r.sortOf ∨ l.sortOf.isArithmetic = true ∧ r.sortOf.isArithmetic = true) ∧
      t = build l r
  | .integers build => l.sortOf = .int ∧ r.sortOf = .int ∧ t = build l r
  | .numbers build =>
    l.sortOf.isArithmetic = true ∧ r.sortOf.isArithmetic = true ∧ t = build l r
  | .meaningless => False

/-- An application of an operator has the terms that the operator's rule builds. -/
theorem encode_bin_iff_builds : (Exp.bin op left right).encode ds = .ok t ↔
    ∃ l r, left.encode ds = .ok l ∧ right.encode ds = .ok r ∧ op.rule.Builds l r t := by
  rw [Exp.encode]
  cases op.rule with
  | booleans build => simp only [encode_pair_eq_ok, admits_bool, OperandRule.Builds]
  | integers build => simp only [encode_pair_eq_ok, admits_int, OperandRule.Builds]
  | numbers build => exact encode_pair_eq_ok
  | alike build =>
    simp only [bind_eq_ok]
    constructor
    · rintro ⟨l, hl, r, hr, ht⟩
      split at ht
      · next hs =>
        cases ht
        exact ⟨l, r, hl, hr, by simpa using hs, rfl⟩
      · cases ht
    · rintro ⟨l, r, hl, hr, hs, rfl⟩
      exact ⟨l, hl, r, hr, if_pos (by simpa using hs)⟩
  | meaningless =>
    simp only [bind_eq_ok]
    constructor
    · rintro ⟨_, -, _, -, _, -, _, -, h⟩
      cases h
    · rintro ⟨_, _, -, -, h⟩
      exact h.elim

/-- Without parameters or without arguments nothing is put in place of anything. -/
theorem encodeArgs_nil_eq_ok {args : List Exp} {σ : Term.Substitution} :
    Exp.encodeArgs ds [] args = .ok σ ↔ σ = [] := by
  rw [Exp.encodeArgs, Except.ok.injEq, eq_comm]
  exact nofun

/-- Arguments are encoded one after the other, each widened to the sort of its parameter. -/
theorem encodeArgs_cons_eq_ok {formal : String × BasicSort} {formals : List (String × BasicSort)}
    {args : List Exp} {σ : Term.Substitution} :
    Exp.encodeArgs ds (formal :: formals) (arg :: args) = .ok σ ↔
      ∃ a τ, arg.encode ds = .ok a ∧ a.sortOf.fits (.basic formal.2) = true ∧
        Exp.encodeArgs ds formals args = .ok τ ∧
        σ = (formal, a.coerce (.basic formal.2)) :: τ := by
  simp only [Exp.encodeArgs, bind_eq_ok, expect_eq_ok]
  constructor
  · rintro ⟨a, ha, _, ⟨hs, rfl⟩, τ, hτ, h⟩
    cases h
    exact ⟨_, τ, ha, hs, hτ, rfl⟩
  · rintro ⟨a, τ, ha, hs, hτ, rfl⟩
    exact ⟨a, ha, a, ⟨hs, rfl⟩, τ, hτ, rfl⟩

end

/-! ## Induction on encoding -/

/-- Terms of actual arguments, widened where the parameter is a real and the argument an integer,
with their parameters; `P` relates each argument to its term. -/
inductive Actuals (P : Exp → Term → Prop) :
    List (String × BasicSort) → List Exp → Term.Substitution → Prop
  | nil : Actuals P [] [] []
  | cons {formal : String × BasicSort} (ha : P arg a)
      (hf : a.sortOf.fits (.basic formal.2) = true) (hs : Actuals P formals args σ) :
      Actuals P (formal :: formals) (arg :: args) ((formal, a.coerce (.basic formal.2)) :: σ)

/-- The relation is closed under the rules of encoding over `ds`. -/
structure EncodingRules (ds : Definitions) (P : Exp → Term → Prop) : Prop where
  var : ∀ {v t}, v.encode = .ok t → P (.var v) t
  int : ∀ {n}, (integerText? n).isSome = true → P (.int n) (.int n)
  float : ∀ {x q}, x.decimalValue? = some q → P (.float x) (.real q)
  bool : ∀ {b}, P (.bool b) (.bool b)
  call : ∀ {name ps body args d σ}, ds.lookup? name = some d →
    Actuals (fun e t => e.encode ds = .ok t ∧ P e t) d.formals args σ →
    P (.call name ps body args) (d.body.substitute σ)
  sub : ∀ {array index a i s}, array.encode ds = .ok a → P array a → index.encode ds = .ok i →
    P index i → a.sortOf = .array s → i.sortOf = .int → P (.sub array index) (.app .select a i)
  upd : ∀ {array index value length a i v s}, array.encode ds = .ok a → P array a →
    index.encode ds = .ok i → P index i → value.encode ds = .ok v → P value v →
    a.sortOf = .array s → i.sortOf = .int → v.sortOf.fits (.basic s) = true →
    P (.upd array index value length) (.store a i (v.coerce (.basic s)))
  not : ∀ {arg a}, arg.encode ds = .ok a → P arg a → a.sortOf = .bool → P (.not arg) (.not a)
  neg : ∀ {arg a}, arg.encode ds = .ok a → P arg a → a.sortOf.isArithmetic = true →
    P (.neg arg) (.neg a)
  booleans : ∀ {op left right build l r}, op.rule = .booleans build →
    left.encode ds = .ok l → P left l → right.encode ds = .ok r → P right r →
    l.sortOf = .bool → r.sortOf = .bool → P (.bin op left right) (build l r)
  alike : ∀ {op left right build l r}, op.rule = .alike build →
    left.encode ds = .ok l → P left l → right.encode ds = .ok r → P right r →
    (l.sortOf = r.sortOf ∨ l.sortOf.isArithmetic = true ∧ r.sortOf.isArithmetic = true) →
    P (.bin op left right) (build l r)
  integers : ∀ {op left right build l r}, op.rule = .integers build →
    left.encode ds = .ok l → P left l → right.encode ds = .ok r → P right r →
    l.sortOf = .int → r.sortOf = .int → P (.bin op left right) (build l r)
  numbers : ∀ {op left right build l r}, op.rule = .numbers build →
    left.encode ds = .ok l → P left l → right.encode ds = .ok r → P right r →
    l.sortOf.isArithmetic = true → r.sortOf.isArithmetic = true →
    P (.bin op left right) (build l r)
  quantified : ∀ {kind names body b}, body.encode ds = .ok b → P body b → b.sortOf = .bool →
    P (.quantified kind names body) (Term.quantify kind (names.map constantName) b)
  len : ∀ {arg t}, encodeLength (.len arg) arg = .ok t → P (.len arg) t

namespace EncodingRules

variable {ds : Definitions} {P : Exp → Term → Prop}

mutual

/-- A relation that is closed under the rules holds of every expression and its term. -/
theorem holds (H : EncodingRules ds P) : ∀ (e : Exp) {t : Term}, e.encode ds = .ok t → P e t
  | .var v => fun h => H.var h
  | .int n => fun h => by
    obtain ⟨hn, rfl⟩ := encode_int_eq_ok.1 h
    exact H.int hn
  | .float x => fun h => by
    obtain ⟨q, hq, rfl⟩ := encode_float_eq_ok.1 h
    exact H.float hq
  | .bool b => fun h => by
    cases encode_bool_eq_ok.1 h
    exact H.bool
  | .call name ps body args => fun h => by
    obtain ⟨d, σ, hd, hl, hσ, rfl⟩ := encode_call_eq_ok.1 h
    exact H.call hd (H.holdsArgs hl.symm hσ)
  | .sub array index => fun h => by
    obtain ⟨a, i, s, ha, hi, hsa, hsi, rfl⟩ := encode_sub_eq_ok.1 h
    exact H.sub ha (H.holds _ ha) hi (H.holds _ hi) hsa hsi
  | .upd array index value length => fun h => by
    obtain ⟨a, i, v, s, ha, hi, hv, hsa, hsi, hsv, rfl⟩ := encode_upd_eq_ok.1 h
    exact H.upd ha (H.holds _ ha) hi (H.holds _ hi) hv (H.holds _ hv) hsa hsi hsv
  | .not arg => fun h => by
    obtain ⟨a, ha, hs, rfl⟩ := encode_not_eq_ok.1 h
    exact H.not ha (H.holds _ ha) hs
  | .neg arg => fun h => by
    obtain ⟨a, ha, hs, rfl⟩ := encode_neg_eq_ok.1 h
    exact H.neg ha (H.holds _ ha) hs
  | .bin op left right => fun h => by
    obtain ⟨l, r, hl, hr, hb⟩ := encode_bin_iff_builds.1 h
    have ihl := H.holds left hl
    have ihr := H.holds right hr
    generalize hop : op.rule = rule at hb
    cases rule with
    | booleans build =>
      obtain ⟨hsl, hsr, rfl⟩ := hb
      exact H.booleans hop hl ihl hr ihr hsl hsr
    | alike build =>
      obtain ⟨hs, rfl⟩ := hb
      exact H.alike hop hl ihl hr ihr hs
    | integers build =>
      obtain ⟨hsl, hsr, rfl⟩ := hb
      exact H.integers hop hl ihl hr ihr hsl hsr
    | numbers build =>
      obtain ⟨hsl, hsr, rfl⟩ := hb
      exact H.numbers hop hl ihl hr ihr hsl hsr
    | meaningless => exact hb.elim
  | .quantified kind names body => fun h => by
    obtain ⟨b, hb, hs, rfl⟩ := encode_quantified_eq_ok.1 h
    exact H.quantified hb (H.holds _ hb) hs
  | .len arg => fun h => H.len h
  | .bare => fun h => absurd h encode_bare_ne_ok

/-- `holds` over the arguments of a call, of which there are as many as parameters. -/
theorem holdsArgs (H : EncodingRules ds P) :
    ∀ {formals : List (String × BasicSort)} {args : List Exp} {σ : Term.Substitution},
      formals.length = args.length → Exp.encodeArgs ds formals args = .ok σ →
      Actuals (fun e t => e.encode ds = .ok t ∧ P e t) formals args σ
  | [], [], _, _, h => by
    cases encodeArgs_nil_eq_ok.1 h
    exact .nil
  | formal :: formals, arg :: args, _, hl, h => by
    obtain ⟨a, τ, ha, hs, hτ, rfl⟩ := encodeArgs_cons_eq_ok.1 h
    exact .cons ⟨ha, H.holds _ ha⟩ hs (H.holdsArgs (Nat.succ.inj hl) hτ)

end

end EncodingRules

end Discharge
