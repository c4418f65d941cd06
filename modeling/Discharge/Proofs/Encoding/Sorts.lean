import Discharge.Proofs.Encoding.WellSorted

/-!
# Sorts of expressions

`Exp.HasSort ds e s` says, by rules on expressions alone, that `e` has the sort `s` over the
definitions `ds`. Of a definition it looks only at the sorts of the parameters. An expression has a
term exactly if it has a sort, and the sort is that of the term
(`Definitions.WellSorted.hasSort_iff`).
-/

namespace Discharge

open Term (Sorted)

/-! ## The rules -/

/-- The sorts of types. The elements of an array are atomic. -/
inductive Ty.HasSort : Ty → TermSort → Prop
  | int : HasSort .int .int
  | float : HasSort .float .real
  | bool : HasSort .bool .bool
  | array {base : Ty} {s : BasicSort} (h : base.HasSort (.basic s)) :
      HasSort (.array base) (.array s)

/-- Whether values of two sorts can be equated: the sorts are the same, or both are numbers. -/
def TermSort.Alike (s t : TermSort) : Prop :=
  s = t ∨ s.isArithmetic = true ∧ t.isArithmetic = true

namespace BinOp

/-- The connectives of formulas. -/
def isConnective : BinOp → Bool
  | .and => true
  | .or => true
  | .implies => true
  | .iff => true
  | _ => false

/-- Equality and its negation. -/
def isEquality : BinOp → Bool
  | .eq => true
  | .ne => true
  | _ => false

/-- The comparisons of numbers other than equality. -/
def isComparison : BinOp → Bool
  | .lt => true
  | .le => true
  | .gt => true
  | .ge => true
  | _ => false

/-- The operators that take and give numbers, be they integers or reals. -/
def isNumeric : BinOp → Bool
  | .mul => true
  | .div => true
  | .floatDiv => true
  | .add => true
  | .sub => true
  | _ => false

/-- `op.HasSignature s t u`: applied to operands of the sorts `s` and `t`, the operator gives the
sort `u`. The unknown operator has no signature. -/
inductive HasSignature : BinOp → TermSort → TermSort → TermSort → Prop
  | connective (ho : op.isConnective = true) : HasSignature op .bool .bool .bool
  | equality (ho : op.isEquality = true) (h : s.Alike t) : HasSignature op s t .bool
  | remainder : HasSignature .mod .int .int .int
  | numeric (ho : op.isNumeric = true) (hs : s.isArithmetic = true) (ht : t.isArithmetic = true) :
      HasSignature op s t (s.widest t)
  | comparison (ho : op.isComparison = true) (hs : s.isArithmetic = true)
      (ht : t.isArithmetic = true) : HasSignature op s t .bool

end BinOp

mutual

/-- The sorts of expressions over definitions. A call has the sort of formulas, whatever the
predicate that it holds; the definition is found by name. -/
inductive Exp.HasSort (ds : Definitions) : Exp → TermSort → Prop
  | var (h : v.type.HasSort s) : HasSort ds (.var v) s
  | int (h : n.natAbs < Nat.pow 10 integerDigitLimit) : HasSort ds (.int n) .int
  | float (h : x.isFinite = true) : HasSort ds (.float x) .real
  | bool : HasSort ds (.bool b) .bool
  | call (hd : ds.lookup? name = some d) (ha : Exp.HaveSorts ds d.formals args) :
      HasSort ds (.call name parameters body args) .bool
  | sub (ha : HasSort ds array (.array s)) (hi : HasSort ds index .int) :
      HasSort ds (.sub array index) (.basic s)
  | upd (ha : HasSort ds array (.array s)) (hi : HasSort ds index .int)
      (hv : HasSort ds value t) (hf : t.fits (.basic s) = true) :
      HasSort ds (.upd array index value length) (.array s)
  | not (ha : HasSort ds arg .bool) : HasSort ds (.not arg) .bool
  | neg (ha : HasSort ds arg s) (hs : s.isArithmetic = true) : HasSort ds (.neg arg) s
  | bin (hl : HasSort ds left s) (hr : HasSort ds right t) (h : op.HasSignature s t u) :
      HasSort ds (.bin op left right) u
  | quantified (hb : HasSort ds body .bool) : HasSort ds (.quantified kind names body) .bool
  | lenVar (h : length.type = .int) : HasSort ds (.len (.var (.array name type length))) .int
  | lenUpd (h : length.type = .int) : HasSort ds (.len (.upd array index value length)) .int

/-- The arguments are as many as the parameters, and each has the sort of its parameter, or that of
integers where the parameter is a real. -/
inductive Exp.HaveSorts (ds : Definitions) : List (String × BasicSort) → List Exp → Prop
  | nil : HaveSorts ds [] []
  | cons (ha : Exp.HasSort ds arg s) (hf : s.fits (.basic formal.2) = true)
      (hs : HaveSorts ds formals args) : HaveSorts ds (formal :: formals) (arg :: args)

end

/-! ## Types -/

/-- The basic sort of a type is the one that the type has by the rules. -/
theorem Ty.basicSort?_eq_some_iff {t : Ty} {s : BasicSort} :
    t.basicSort? = some s ↔ t.HasSort (.basic s) := by
  constructor
  · intro h
    cases t <;> cases h <;> constructor
  · intro h
    cases h <;> rfl

/-- The sort of a type is the one that the type has by the rules. -/
theorem Ty.hasSort_iff {t : Ty} {s : TermSort} : t.HasSort s ↔ t.sort? = .ok s := by
  cases t with
  | array base =>
    simp only [Ty.sort?]
    constructor
    · intro h
      cases h with
      | array hb => rw [Ty.basicSort?_eq_some_iff.2 hb]
    · intro h
      split at h
      · next hb => cases h; exact .array (Ty.basicSort?_eq_some_iff.1 hb)
      · cases h
  | other => constructor <;> (intro h; cases h)
  | _ =>
    constructor
    · intro h; cases h; rfl
    · intro h; cases h; constructor

/-- The sort that a type is encoded with is the one that it has by the rules. -/
theorem Ty.hasSort_iff_encodeSort {t : Ty} {s : TermSort} :
    t.HasSort s ↔ t.encodeSort = .ok s := by
  rw [Ty.hasSort_iff, Ty.encodeSort]
  rcases t.sort? with (_ | _) | _ <;> simp

/-- A type has one sort. -/
theorem Ty.HasSort.unique {t : Ty} {s u : TermSort} (h : t.HasSort s) (h' : t.HasSort u) :
    s = u :=
  Except.ok.inj ((Ty.hasSort_iff.1 h).symm.trans (Ty.hasSort_iff.1 h'))

/-- Only the type of integers has the sort of integers. -/
theorem Ty.HasSort.eq_int {t : Ty} (h : t.HasSort .int) : t = .int := by
  cases h
  rfl

/-- Only the type of floats has the sort of reals. -/
theorem Ty.HasSort.eq_float_iff {a : Ty} {s : TermSort} (h : a.HasSort s) :
    a = .float ↔ s = .real := by
  cases h <;> simp

/-- A type with the sort of arrays is one of arrays. -/
theorem Ty.HasSort.exists_array {a : Ty} {s : BasicSort} (h : a.HasSort (.array s)) :
    ∃ base : Ty, a = .array base ∧ base.HasSort (.basic s) := by
  cases h with
  | array hb => exact ⟨_, rfl, hb⟩

/-- An integer has a text if it does not have too many digits. -/
theorem integerText?_isSome_iff {n : Int} :
    (integerText? n).isSome = true ↔ n.natAbs < Nat.pow 10 integerDigitLimit := by
  unfold integerText?
  generalize Nat.pow 10 integerDigitLimit = bound
  split
  · next h => simp [h]
  · next h => simp [h]

/-- A double is finite if it has a decimal value. -/
theorem Binary64.isFinite_iff {x : Binary64} :
    x.isFinite = true ↔ ∃ q, x.decimalValue? = some q := by
  cases x <;> simp [isFinite, decimalValue?]

/-! ## Operators -/

namespace BinOp

variable {op : BinOp} {build : Term → Term → Term} {d : Nat} {l r : Term} {s t u : TermSort}

/-- The term that an operator builds of those of its operands. -/
def combine (op : BinOp) : Term → Term → Term :=
  match op.rule with
  | .booleans build => build
  | .alike build => build
  | .integers build => build
  | .numbers build => build
  | .meaningless => fun l _ => l

/-- The operands of a connective are Boolean. -/
theorem rule_of_isConnective (ho : op.isConnective = true) : op.rule = .booleans op.combine := by
  cases op <;> first | rfl | cases ho

/-- The operands of an equality have sorts that can be compared. -/
theorem rule_of_isEquality (ho : op.isEquality = true) : op.rule = .alike op.combine := by
  cases op <;> first | rfl | cases ho

/-- The operands of an arithmetic operator are numbers. -/
theorem rule_of_isNumeric (ho : op.isNumeric = true) : op.rule = .numbers op.combine := by
  cases op <;> first | rfl | cases ho

/-- The operands of a comparison are numbers. -/
theorem rule_of_isComparison (ho : op.isComparison = true) : op.rule = .numbers op.combine := by
  cases op <;> first | rfl | cases ho

/-- What an operator builds has the sort of its signature. -/
theorem HasSignature.sorted (h : op.HasSignature s t u) (hl : Sorted d l s) (hr : Sorted d r t) :
    Sorted d (op.combine l r) u := by
  cases h with
  | connective ho => exact sorted_of_booleans (rule_of_isConnective ho) hl hr
  | equality ho h => exact sorted_of_alike (rule_of_isEquality ho) hl hr h
  | remainder =>
    have hrule : BinOp.mod.rule = .integers BinOp.mod.combine := rfl
    exact sorted_of_integers hrule hl hr
  | numeric ho hs ht =>
    cases op with
    | mul | add | sub => exact hl.arithmetic rfl hr hs ht
    | div | floatDiv => exact hl.division hr hs ht
    | _ => cases ho
  | comparison ho hs ht =>
    cases op with
    | lt | le | gt | ge => exact hl.compare (.inl rfl) hr hs ht
    | _ => cases ho

/-- An operator that takes Booleans has the signature of a connective. -/
theorem signature_of_booleans (h : op.rule = .booleans build) :
    op.HasSignature .bool .bool .bool ∧ build = op.combine := by
  cases op <;> cases h <;> exact ⟨.connective rfl, rfl⟩

/-- An operator that takes operands of like sorts has the signature of an equality. -/
theorem signature_of_alike (h : op.rule = .alike build) (hs : s.Alike t) :
    op.HasSignature s t .bool ∧ build = op.combine := by
  cases op <;> cases h <;> exact ⟨.equality rfl hs, rfl⟩

/-- An operator that takes integers has the signature of the remainder. -/
theorem signature_of_integers (h : op.rule = .integers build) :
    op.HasSignature .int .int .int ∧ build = op.combine := by
  cases op <;> cases h
  exact ⟨.remainder, rfl⟩

/-- An operator that takes numbers has a signature for any two arithmetic sorts. -/
theorem signature_of_numbers (h : op.rule = .numbers build) (hs : s.isArithmetic = true)
    (ht : t.isArithmetic = true) : (∃ u, op.HasSignature s t u) ∧ build = op.combine := by
  cases op <;> cases h <;>
    first
    | exact ⟨⟨_, .numeric rfl hs ht⟩, rfl⟩
    | exact ⟨⟨_, .comparison rfl hs ht⟩, rfl⟩

/-- Operands whose sorts fit the operator's signature are admitted by its rule. -/
theorem HasSignature.builds (h : op.HasSignature s t u) (hl : l.sortOf = s) (hr : r.sortOf = t) :
    op.rule.Builds l r (op.combine l r) := by
  cases h with
  | connective ho =>
    rw [rule_of_isConnective ho]
    exact ⟨hl, hr, rfl⟩
  | equality ho h =>
    subst hl hr
    rw [rule_of_isEquality ho]
    exact ⟨h, rfl⟩
  | remainder => exact ⟨hl, hr, rfl⟩
  | numeric ho hs ht =>
    subst hl hr
    rw [rule_of_isNumeric ho]
    exact ⟨hs, ht, rfl⟩
  | comparison ho hs ht =>
    subst hl hr
    rw [rule_of_isComparison ho]
    exact ⟨hs, ht, rfl⟩

/-- Operands that the operator's rule admits fit its signature. -/
theorem signature_of_builds {c : Term} (h : op.rule.Builds l r c) :
    (∃ u, op.HasSignature l.sortOf r.sortOf u) ∧ c = op.combine l r := by
  generalize hop : op.rule = rule at h
  cases rule with
  | booleans build =>
    obtain ⟨hl, hr, rfl⟩ := h
    obtain ⟨hsig, rfl⟩ := signature_of_booleans hop
    exact ⟨⟨_, by rw [hl, hr]; exact hsig⟩, rfl⟩
  | alike build =>
    obtain ⟨hs, rfl⟩ := h
    obtain ⟨hsig, rfl⟩ := signature_of_alike hop hs
    exact ⟨⟨_, hsig⟩, rfl⟩
  | integers build =>
    obtain ⟨hl, hr, rfl⟩ := h
    obtain ⟨hsig, rfl⟩ := signature_of_integers hop
    exact ⟨⟨_, by rw [hl, hr]; exact hsig⟩, rfl⟩
  | numbers build =>
    obtain ⟨hl, hr, rfl⟩ := h
    obtain ⟨hsig, rfl⟩ := signature_of_numbers hop hl hr
    exact ⟨hsig, rfl⟩
  | meaningless => exact h.elim

end BinOp

/-! ## Expressions that are encoded have a sort -/

/-- Arguments that are encoded have the sorts of the parameters, if each has the sort of its term.
-/
theorem Actuals.haveSorts {ds : Definitions} {P : Exp → Term → Prop}
    {formals : List (String × BasicSort)} {args : List Exp} {σ : Term.Substitution}
    (h : Actuals P formals args σ) (hP : ∀ {e t}, P e t → e.HasSort ds t.sortOf) :
    Exp.HaveSorts ds formals args := by
  induction h with
  | nil => exact .nil
  | cons ha hf _ ih => exact .cons (hP ha) hf ih

namespace Definitions.WellSorted

variable {ds : Definitions} {e left right : Exp} {op : BinOp} {l r t : Term} {s u : TermSort}

/-- An application of an operator has the sort of the term that is built for it. -/
theorem hasSort_bin (hd : ds.WellSorted) (hel : left.encode ds = .ok l)
    (hl : left.HasSort ds l.sortOf) (her : right.encode ds = .ok r)
    (hr : right.HasSort ds r.sortOf) (h : op.HasSignature l.sortOf r.sortOf u) :
    (Exp.bin op left right).HasSort ds (op.combine l r).sortOf := by
  have hsorted := h.sorted (.of_sortOf (hd.encode hel) rfl) (.of_sortOf (hd.encode her) rfl)
  rw [hsorted.sortOf_eq]
  exact .bin hl hr h

/-- The rules of encoding give terms of the expressions' sorts. -/
theorem sort_rules (hd : ds.WellSorted) : EncodingRules ds fun e t => e.HasSort ds t.sortOf where
  var h := by
    obtain ⟨s, hs, h⟩ := bind_eq_ok.1 h
    cases h
    exact .var (Ty.hasSort_iff_encodeSort.2 hs)
  int h := .int (integerText?_isSome_iff.1 h)
  float h := .float (Binary64.isFinite_iff.2 ⟨_, h⟩)
  bool := .bool
  call hl hσ := by
    obtain ⟨entry, he, rfl⟩ := mem_of_lookup? hl
    have hs : Sorted 0 _ _ := (hd entry he).substitute (hσ.sorted fun h => hd.encode h.1)
    rw [hs.sortOf_eq]
    exact .call hl (hσ.haveSorts And.right)
  sub _ ha _ hi hsa hsi := by
    rw [hsa] at ha
    rw [hsi] at hi
    simp only [Term.sortOf, hsa, Term.elementSort]
    exact .sub ha hi
  upd _ ha _ hi _ hv hsa hsi hsv := by
    rw [hsa] at ha
    rw [hsi] at hi
    simp only [Term.sortOf, hsa]
    exact .upd ha hi hv hsv
  not _ ha hs := .not (hs ▸ ha)
  neg _ ha hs := .neg ha hs
  booleans hop hel hl her hr hsl hsr := by
    obtain ⟨hsig, rfl⟩ := BinOp.signature_of_booleans hop
    exact hd.hasSort_bin hel hl her hr (by rw [hsl, hsr]; exact hsig)
  alike hop hel hl her hr hs := by
    obtain ⟨hsig, rfl⟩ := BinOp.signature_of_alike hop hs
    exact hd.hasSort_bin hel hl her hr hsig
  integers hop hel hl her hr hsl hsr := by
    obtain ⟨hsig, rfl⟩ := BinOp.signature_of_integers hop
    exact hd.hasSort_bin hel hl her hr (by rw [hsl, hsr]; exact hsig)
  numbers hop hel hl her hr hsl hsr := by
    obtain ⟨⟨u, hsig⟩, rfl⟩ := BinOp.signature_of_numbers hop hsl hsr
    exact hd.hasSort_bin hel hl her hr hsig
  quantified {kind names body b} he hb hs := by
    have hq : Sorted 0 (Term.quantify kind (names.map constantName) b) .bool :=
      (Sorted.of_sortOf (hd.encode he) hs).quantify _ _
    rw [hq.sortOf_eq]
    exact .quantified (hs ▸ hb)
  len {arg t} h := by
    obtain ⟨v, hv, ht, rfl⟩ := encodeLength_eq_ok h
    cases arg with
    | var w =>
      cases w with
      | plain name type => cases hv
      | array name type length => cases hv; exact .lenVar ht
    | upd array index value length => cases hv; exact .lenUpd ht
    | _ => cases hv

/-- What is encoded has the sort of its term. -/
theorem hasSort_of_encode (hd : ds.WellSorted) (h : e.encode ds = .ok t) :
    e.HasSort ds t.sortOf :=
  hd.sort_rules.holds e h

end Definitions.WellSorted

/-! ## Expressions with a sort are encoded -/

/-- Operands whose sorts fit the operator's signature are encoded together. -/
theorem encode_bin {ds : Definitions} {left right : Exp} {op : BinOp} {l r : Term}
    {s t u : TermSort} (hel : left.encode ds = .ok l) (her : right.encode ds = .ok r)
    (hl : l.sortOf = s) (hr : r.sortOf = t) (h : op.HasSignature s t u) :
    (Exp.bin op left right).encode ds = .ok (op.combine l r) :=
  encode_bin_iff_builds.2 ⟨l, r, hel, her, h.builds hl hr⟩

/-- A binary expression is encoded if its operands are and the operator has a signature for their
sorts. -/
theorem encode_bin_eq_ok {ds : Definitions} {left right : Exp} {op : BinOp} {t : Term} :
    (Exp.bin op left right).encode ds = .ok t ↔
      ∃ l r u, left.encode ds = .ok l ∧ right.encode ds = .ok r ∧
        op.HasSignature l.sortOf r.sortOf u ∧ t = op.combine l r := by
  rw [encode_bin_iff_builds]
  constructor
  · rintro ⟨l, r, hl, hr, hb⟩
    obtain ⟨⟨u, hsig⟩, rfl⟩ := BinOp.signature_of_builds hb
    exact ⟨l, r, u, hl, hr, hsig, rfl⟩
  · rintro ⟨l, r, u, hl, hr, hsig, rfl⟩
    exact ⟨l, r, hl, hr, hsig.builds rfl rfl⟩

/-- A call is a formula. -/
theorem Exp.HasSort.of_call {ds : Definitions} {name : String} {parameters : List Variable}
    {body : Exp} {args : List Exp} {s : TermSort}
    (h : (Exp.call name parameters body args).HasSort ds s) : s = .bool := by
  cases h with
  | call => rfl

mutual

/-- An expression with a sort has a term of that sort. -/
theorem Exp.HasSort.encode {ds : Definitions} (hd : ds.WellSorted) : ∀ {e : Exp} {s : TermSort},
    e.HasSort ds s → ∃ t, e.encode ds = .ok t ∧ t.sortOf = s
  | .var v, s, .var h => by
    refine ⟨.const (constantName v.name) s, ?_, rfl⟩
    rw [Exp.encode]
    exact bind_eq_ok.2 ⟨_, Ty.hasSort_iff_encodeSort.1 h, rfl⟩
  | .int n, _, .int h => ⟨_, encode_int_eq_ok.2 ⟨integerText?_isSome_iff.2 h, rfl⟩, rfl⟩
  | .float x, _, .float h => by
    obtain ⟨q, hq⟩ := Binary64.isFinite_iff.1 h
    exact ⟨.real q, encode_float_eq_ok.2 ⟨q, hq, rfl⟩, rfl⟩
  | .bool b, _, .bool => ⟨.bool b, encode_bool_eq_ok.2 rfl, rfl⟩
  | .call name parameters body args, _, .call (d := d) hl ha => by
    obtain ⟨hlen, σ, hσ⟩ := ha.encode hd
    have he : (Exp.call name parameters body args).encode ds = .ok (d.body.substitute σ) :=
      encode_call_eq_ok.2 ⟨d, σ, hl, hlen, hσ, rfl⟩
    exact ⟨_, he, (hd.hasSort_of_encode he).of_call⟩
  | .sub array index, _, .sub (s := s) ha hi => by
    obtain ⟨a, hea, hsa⟩ := ha.encode hd
    obtain ⟨i, hei, hsi⟩ := hi.encode hd
    exact ⟨.app .select a i, encode_sub_eq_ok.2 ⟨a, i, s, hea, hei, hsa, hsi, rfl⟩,
      by simp only [Term.sortOf, hsa, Term.elementSort]⟩
  | .upd array index value length, _, .upd (s := s) ha hi hv hf => by
    obtain ⟨a, hea, hsa⟩ := ha.encode hd
    obtain ⟨i, hei, hsi⟩ := hi.encode hd
    obtain ⟨v, hev, rfl⟩ := hv.encode hd
    exact ⟨.store a i (v.coerce (.basic s)),
      encode_upd_eq_ok.2 ⟨a, i, v, s, hea, hei, hev, hsa, hsi, hf, rfl⟩, hsa⟩
  | .not arg, _, .not ha => by
    obtain ⟨a, hea, hsa⟩ := ha.encode hd
    exact ⟨.not a, encode_not_eq_ok.2 ⟨a, hea, hsa, rfl⟩, rfl⟩
  | .neg arg, _, .neg ha hs => by
    obtain ⟨a, hea, rfl⟩ := ha.encode hd
    exact ⟨.neg a, encode_neg_eq_ok.2 ⟨a, hea, hs, rfl⟩, rfl⟩
  | .bin op left right, _, .bin hl hr h => by
    obtain ⟨l, hel, hsl⟩ := hl.encode hd
    obtain ⟨r, her, hsr⟩ := hr.encode hd
    refine ⟨op.combine l r, encode_bin hel her hsl hsr h, ?_⟩
    exact (h.sorted (.of_sortOf (hd.encode hel) hsl) (.of_sortOf (hd.encode her) hsr)).sortOf_eq
  | .quantified kind names body, _, .quantified hb => by
    obtain ⟨b, heb, hsb⟩ := hb.encode hd
    exact ⟨_, encode_quantified_eq_ok.2 ⟨b, heb, hsb, rfl⟩,
      ((Sorted.of_sortOf (hd.encode heb) hsb).quantify _ _).sortOf_eq⟩
  | .len _, _, .lenVar h => ⟨_, encode_len_eq_ok.2 ⟨_, rfl, h, rfl⟩, rfl⟩
  | .len _, _, .lenUpd h => ⟨_, encode_len_eq_ok.2 ⟨_, rfl, h, rfl⟩, rfl⟩

/-- Arguments of their parameters' sorts are encoded. -/
theorem Exp.HaveSorts.encode {ds : Definitions} (hd : ds.WellSorted) :
    ∀ {formals : List (String × BasicSort)} {args : List Exp}, Exp.HaveSorts ds formals args →
      args.length = formals.length ∧ ∃ σ, Exp.encodeArgs ds formals args = .ok σ
  | [], [], .nil => ⟨rfl, [], rfl⟩
  | formal :: formals, arg :: args, .cons ha hf hs => by
    obtain ⟨a, hea, rfl⟩ := ha.encode hd
    obtain ⟨hlen, σ, hσ⟩ := hs.encode hd
    refine ⟨congrArg Nat.succ hlen, (formal, a.coerce (.basic formal.2)) :: σ, ?_⟩
    exact encodeArgs_cons_eq_ok.2 ⟨a, σ, hea, hf, hσ, rfl⟩

end

/-- An expression has a sort exactly if it has a term, and the sort is that of the term. -/
theorem Definitions.WellSorted.hasSort_iff {ds : Definitions} (hd : ds.WellSorted) {e : Exp}
    {s : TermSort} : e.HasSort ds s ↔ ∃ t, e.encode ds = .ok t ∧ t.sortOf = s :=
  ⟨fun h => h.encode hd, fun ⟨_, he, hs⟩ => hs ▸ hd.hasSort_of_encode he⟩

/-- An expression has one sort. -/
theorem Exp.HasSort.unique {ds : Definitions} (hd : ds.WellSorted) {e : Exp} {s t : TermSort}
    (hs : e.HasSort ds s) (ht : e.HasSort ds t) : s = t := by
  obtain ⟨u, hu, rfl⟩ := hs.encode hd
  obtain ⟨w, hw, rfl⟩ := ht.encode hd
  rw [hu] at hw
  cases hw
  rfl

end Discharge
