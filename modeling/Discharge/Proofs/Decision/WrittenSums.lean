import Discharge.Proofs.Decision.Ground
import Discharge.Proofs.Decision.Verdict
import Discharge.Proofs.Encoding.Congruence
import Discharge.Proofs.Number.WrittenDecimal

/-!
# Sums of written numbers

A decimal of at most fifteen digits that count, and of moderate size, goes through a double and becomes
the rational that its digits spell. So sums, differences and products of such decimals and of integers
are encoded with the value that one computes from what is written, and comparisons of them are decided
accordingly (`WrittenDecimal.encode_parse_eq_value`).
-/

namespace Discharge

/-! ## What is computed from what is written -/

/-- Sums, differences, products and negations of written numbers. -/
inductive WrittenSum where
  | decimal (n : WrittenDecimal) (h : n.IsModerate)
  | int (n : Nat) (h : n < Nat.pow 10 integerDigitLimit)
  | neg (a : WrittenSum)
  | add (a b : WrittenSum)
  | sub (a b : WrittenSum)
  | mul (a b : WrittenSum)

/-- An operator between two texts, in brackets. -/
def bracketed (a symbol b : String) : String := "(" ++ a ++ " " ++ symbol ++ " " ++ b ++ ")"

namespace WrittenSum

/-- The value. -/
def value : WrittenSum → Rat
  | decimal n _ => n.value
  | int n _ => n
  | neg a => -a.value
  | add a b => a.value + b.value
  | sub a b => a.value - b.value
  | mul a b => a.value * b.value

/-- The text, in brackets but for single numbers. -/
def text : WrittenSum → String
  | decimal n _ => n.text
  | int n _ => toString (n : Int)
  | neg a => "(-" ++ a.text ++ ")"
  | add a b => bracketed a.text "+" b.text
  | sub a b => bracketed a.text "-" b.text
  | mul a b => bracketed a.text "*" b.text

/-- The expression that is read. -/
def exp : WrittenSum → Exp
  | decimal n _ => .float n.double
  | int n _ => .int n
  | neg a => .neg a.exp
  | add a b => .bin .add a.exp b.exp
  | sub a b => .bin .sub a.exp b.exp
  | mul a b => .bin .mul a.exp b.exp

end WrittenSum

/-- Whether two numbers compare as an operator says. -/
def BinOp.compares? : BinOp → Rat → Rat → Option Bool
  | .eq, p, q => some (decide (p = q))
  | .ne, p, q => some (decide (p ≠ q))
  | .lt, p, q => some (decide (p < q))
  | .le, p, q => some (decide (p ≤ q))
  | .gt, p, q => some (decide (q < p))
  | .ge, p, q => some (decide (q ≤ p))
  | _, _, _ => none

/-! ## The terms of sums -/

namespace Term

variable {l r : Term} {p q : Rat} {w : Bool}

/-- A term that is made of numbers is still so when it is widened, with the same value. -/
theorem Ground.coerce (h : Ground l p) (s : TermSort) : Ground (l.coerce s) p := by
  unfold Term.coerce
  split
  · exact .toReal h
  · exact h

/-- A comparison from the other side compares the negative difference. -/
theorem compareZero?_flip {op : TermOp} (h : compareZero? op (p - q) = some w) :
    compareZero? op.flip (q - p) = some w := by
  rw [← h, ← neg_sub p q]
  cases op <;> simp only [compareZero?, TermOp.flip, neg_lt_zero, neg_pos, neg_nonneg,
    neg_nonpos, neg_eq_zero]

/-- A comparison, whichever side comes first. -/
theorem Ground.compare (hl : Ground l p) (hr : Ground r q) {op : TermOp}
    (h : compareZero? op (p - q) = some w) (hf : (Term.compare op l r).isFormula = true) :
    Compares (Term.compare op l r) w := by
  refine ⟨?_, hf⟩
  unfold Term.compare balance
  dsimp only
  split
  · exact ⟨_, _, _, q, p, rfl, hr.coerce _, hl.coerce _, compareZero?_flip h⟩
  · exact ⟨_, _, _, p, q, rfl, hl.coerce _, hr.coerce _, h⟩

/-- An equality with a term that is made of numbers is a comparison. -/
theorem Ground.equality (hl : Ground l p) (r : Term) : Term.equality l r = Term.compare .eq l r := by
  rw [Term.equality, if_pos hl.isArithmetic]

end Term

namespace WrittenSum

open Term (Ground Compares Signs Sorted isArithmetic_widest)

/-- Two sums are encoded as the operator combines their terms. -/
theorem encode_combine {a b : Exp} {l r : Term} {s t u : TermSort} {op : BinOp}
    (hl : Sorted 0 l s) (hr : Sorted 0 r t) (ha : ∀ ds, a.encode ds = .ok l)
    (hb : ∀ ds, b.encode ds = .ok r) (h : op.HasSignature s t u) (ds : Definitions) :
    (Exp.bin op a b).encode ds = .ok (op.combine l r) :=
  encode_bin (ha ds) (hb ds) hl.sortOf_eq hr.sortOf_eq h

/-- A sum is encoded as a term of its value, over whatever definitions. -/
theorem exists_encode (a : WrittenSum) : ∃ t s, Ground t a.value ∧ Sorted 0 t s ∧
    s.isArithmetic = true ∧ ∀ ds : Definitions, a.exp.encode ds = .ok t := by
  induction a with
  | decimal n h =>
    refine ⟨_, .real, .real n.value, .real, rfl, fun ds => ?_⟩
    rw [exp, Exp.encode, WrittenDecimal.decimalValue?_double h]
  | int n h =>
    refine ⟨_, .int, .int n, .int, rfl, fun ds => encode_int_eq_ok.2 ⟨?_, rfl⟩⟩
    rw [integerText?, Int.natAbs_natCast, if_pos h]
    rfl
  | neg a ih =>
    obtain ⟨t, s, ht, hs, hn, ha⟩ := ih
    exact ⟨_, s, .neg ht, hs.neg hn, hn, fun ds =>
      encode_neg_eq_ok.2 ⟨t, ha ds, ht.isArithmetic, rfl⟩⟩
  | add a b iha ihb =>
    obtain ⟨l, s, hl, hsl, hnl, ha⟩ := iha
    obtain ⟨r, t, hr, hsr, hnr, hb⟩ := ihb
    have hsig : BinOp.add.HasSignature s t (s.widest t) := .numeric rfl hnl hnr
    exact ⟨_, _, .add (hl.coerce _) (hr.coerce _), hsig.sorted hsl hsr, isArithmetic_widest s hnr,
      encode_combine hsl hsr ha hb hsig⟩
  | sub a b iha ihb =>
    obtain ⟨l, s, hl, hsl, hnl, ha⟩ := iha
    obtain ⟨r, t, hr, hsr, hnr, hb⟩ := ihb
    have hsig : BinOp.sub.HasSignature s t (s.widest t) := .numeric rfl hnl hnr
    exact ⟨_, _, .sub (hl.coerce _) (hr.coerce _), hsig.sorted hsl hsr, isArithmetic_widest s hnr,
      encode_combine hsl hsr ha hb hsig⟩
  | mul a b iha ihb =>
    obtain ⟨l, s, hl, hsl, hnl, ha⟩ := iha
    obtain ⟨r, t, hr, hsr, hnr, hb⟩ := ihb
    have hsig : BinOp.mul.HasSignature s t (s.widest t) := .numeric rfl hnl hnr
    exact ⟨_, _, .mul (hl.coerce _) (hr.coerce _), hsig.sorted hsl hsr, isArithmetic_widest s hnr,
      encode_combine hsl hsr ha hb hsig⟩

/-! ## Comparisons -/

/-- The comparison that an operator builds says of its sides what the operator says of their values. The
operator may build its negation. -/
theorem exists_signs {op : BinOp} {l r : Term} {p q : Rat} {v : Bool} (hl : Ground l p)
    (hr : Ground r q) (h : op.compares? p q = some v) (hf : Sorted 0 (op.combine l r) .bool) :
    ∃ t b w, Signs t (op.combine l r) b ∧ Compares t w ∧ (b = w ↔ v = true) := by
  have hcompare {o : TermOp} {w : Bool} (ho : Term.compareZero? o (p - q) = some w)
      (hs : Sorted 0 (Term.compare o l r) .bool) : Compares (Term.compare o l r) w :=
    hl.compare hr ho (by rw [Term.isFormula, hs.check?]; rfl)
  have hself {o : TermOp} {w : Bool} (ho : Term.compareZero? o (p - q) = some w)
      (hs : Sorted 0 (Term.compare o l r) .bool) :
      ∃ t b w', Signs t (Term.compare o l r) b ∧ Compares t w' ∧ (b = w' ↔ w = true) :=
    ⟨_, true, w, .self, hcompare ho hs, eq_comm⟩
  cases op <;> cases h
  case eq =>
    have heq : BinOp.eq.combine l r = Term.compare .eq l r := hl.equality r
    rw [heq] at hf ⊢
    exact hself (by simp [Term.compareZero?, sub_eq_zero]) hf
  case ne =>
    have heq : BinOp.ne.combine l r = .not (Term.compare .eq l r) :=
      congrArg Term.not (hl.equality r)
    rw [heq] at hf ⊢
    refine ⟨_, false, decide (p = q), .not .self, hcompare ?_ hf.of_not, ?_⟩
    · simp [Term.compareZero?, sub_eq_zero]
    · rw [eq_comm, decide_eq_false_iff_not, decide_eq_true_eq]
  case lt => exact hself (by simp [Term.compareZero?]) hf
  case le => exact hself (by simp [Term.compareZero?]) hf
  case gt => exact hself (by simp [Term.compareZero?]) hf
  case ge => exact hself (by simp [Term.compareZero?]) hf

/-- Comparisons of sums are decided by the values that are written. -/
theorem check_compare {op : BinOp} {v : Bool} (a b : WrittenSum)
    (h : op.compares? a.value b.value = some v) (ds : Definitions) {options : Options}
    (ho : options.tactic? = some .search) :
    ds.check options (.bin op a.exp b.exp) =
      .ok (if v then .valid else .notProven ⟨.empty, none⟩) := by
  obtain ⟨l, s, hl, hsl, hnl, ha⟩ := a.exists_encode
  obtain ⟨r, t, hr, hsr, hnr, hb⟩ := b.exists_encode
  have hsig : op.HasSignature s t .bool := by
    cases op <;> cases h
    case eq | ne => exact .equality rfl (.inr ⟨hnl, hnr⟩)
    all_goals exact .comparison rfl hnl hnr
  have hf := hsig.sorted hsl hsr
  obtain ⟨u, c, w, hsigns, hcompares, hvw⟩ := exists_signs hl hr h hf
  have hgoal : expect (.bin op a.exp b.exp) .bool (op.combine l r) = .ok (op.combine l r) :=
    expect_eq_ok.2 ⟨admits_bool.2 hf.sortOf_eq, rfl⟩
  have hassignments : Model.assignments {} = .empty := rfl
  simp only [Definitions.check, encode_combine hsl hsr ha hb hsig ds, hgoal, ho, Term.verdict,
    hsigns.decide hcompares, hvw]
  cases v
  · simp [hassignments]
  · rfl

/-! ## Texts -/

/-- The text is read as the expression, whatever is declared. -/
def ReadAs (text : String) (e : Exp) : Prop :=
  ∃ t, Writes .atom text t ∧ ∀ (ps : List Predicate) (scope : Scope), Resolves ps scope t e

/-- Operators other than divisions are read as themselves. -/
theorem ReadAs.bin {op : BinOp} {symbol s s' : String} {a b : Exp} (hop : op.symbol? = some symbol)
    (hdiv : op ≠ .div) (hread : op.asRead = op) (ha : ReadAs s a) (hb : ReadAs s' b) :
    ReadAs (bracketed s symbol s') (.bin op a b) := by
  obtain ⟨t, ht, hr⟩ := ha
  obtain ⟨u, hu, hs⟩ := hb
  have hwrites := Writes.bin hop ht.of_atom hu.of_atom
  rw [hread] at hwrites
  exact ⟨_, hwrites, fun ps scope => .bin op hdiv (hr ps scope) (hs ps scope)⟩

/-- The text of a sum is read as its expression. -/
theorem readAs (a : WrittenSum) : ReadAs a.text a.exp := by
  induction a with
  | decimal n h => exact ⟨_, n.writes, fun _ _ => .float n.double⟩
  | int n h => exact ⟨_, .int h, fun _ _ => .int n⟩
  | neg a ih =>
    obtain ⟨t, ht, hr⟩ := ih
    exact ⟨_, ht.of_atom.neg, fun ps scope => .neg (hr ps scope)⟩
  | add a b iha ihb | sub a b iha ihb | mul a b iha ihb => exact .bin rfl nofun rfl iha ihb

/-- The text of a comparison is read as the comparison. -/
theorem parse_bracketed {op : BinOp} {symbol : String} {v : Bool} (a b : WrittenSum)
    (hop : op.symbol? = some symbol) (h : op.compares? a.value b.value = some v)
    (declared : List Variable) (ps : List Predicate) :
    Exp.parse (bracketed a.text symbol b.text) declared ps = .ok (.bin op a.exp b.exp) := by
  have hread : op.asRead = op := by cases op <;> first | rfl | cases h
  have hdiv : op ≠ .div := by
    rintro rfl
    cases h
  obtain ⟨t, hwrites, hresolves⟩ := ReadAs.bin hop hdiv hread a.readAs b.readAs
  exact Exp.parse_eq_ok.2 ⟨t, hwrites.of_atom.ofText?_eq, (hresolves ps _).resolve_eq⟩

end WrittenSum

namespace WrittenDecimal

/-- A decimal of at most fifteen digits that count, and of moderate size, is exact from its text to its
term: it is read as the nearest double, and this is encoded as the rational that the digits spell. So a
comparison of sums of such decimals is decided as it is written: it is valid if it holds of the values,
and else it is refuted, whatever text it is read from; one such text has every operation in brackets. -/
theorem encode_parse_eq_value (declared : List Variable) (ps : List Predicate) (ds : Definitions) :
    (∀ n : WrittenDecimal, n.IsModerate → ∃ x : Binary64,
      Exp.parse n.text declared ps = .ok (.float x) ∧ x.IsNearest n.value ∧
        (Exp.float x).encode ds = .ok (.real n.value)) ∧
    ∀ (a b : WrittenSum) (op : BinOp) (symbol : String) (v : Bool), op.symbol? = some symbol →
      op.compares? a.value b.value = some v →
        Exp.parse (bracketed a.text symbol b.text) declared ps = .ok (.bin op a.exp b.exp) ∧
        ∀ options : Options, options.tactic? = some .search →
          ds.check options (.bin op a.exp b.exp) =
            .ok (if v then .valid else .notProven ⟨.empty, none⟩) := by
  constructor
  · intro n h
    refine ⟨n.double, ?_, n.isNearest_double, ?_⟩
    · exact Exp.parse_eq_ok.2 ⟨_, n.writes.of_atom.ofText?_eq, rfl⟩
    · rw [Exp.encode, decimalValue?_double h]
  · intro a b op symbol v hop h
    exact ⟨a.parse_bracketed b hop h declared ps, fun options ho => a.check_compare b h ds ho⟩

/-- Tenths. -/
def tenths (c : Char) (h : isDecimalDigit c = true) : WrittenDecimal where
  whole := ['0']
  fraction := [c]
  whole_ne_nil := nofun
  fraction_ne_nil := nofun
  isDecimalDigit_whole := by simpa using Token.isDecimalDigit_of_isDigit (c := '0') rfl
  isDecimalDigit_fraction := by simpa using h

/-- The digits of a number of tenths. -/
theorem digits_tenths {c : Char} {v : Nat} (h : isDecimalDigit c = true)
    (hv : decimalDigit? c = some v) : (tenths c h).digits = [0, v] := by
  have hzero : decimalDigit? '0' = some 0 := by decide
  simp [digits, tenths, hzero, hv]

/-- The value of a number of tenths. -/
theorem value_tenths {c : Char} {v : Nat} (h : isDecimalDigit c = true)
    (hv : decimalDigit? c = some v) : (tenths c h).value = v / 10 := by
  rw [value, digits_tenths h hv]
  simp [tenths, Nat.ofDigits]

/-- A number of tenths is written moderately. -/
theorem isModerate_tenths {c : Char} {v : Nat} (h : isDecimalDigit c = true)
    (hv : decimalDigit? c = some v) (hpos : 0 < v) : (tenths c h).IsModerate := by
  have hsignificant : (tenths c h).significant = [v] := by
    simp [significant, digits_tenths h hv, List.rdropWhile, hpos.ne']
  refine ⟨by simp [hsignificant], .inr ?_⟩
  rw [value_tenths h hv]
  have hone : (1 : Rat) ≤ v := by exact_mod_cast hpos
  have hten : (v : Rat) ≤ 10 := by exact_mod_cast (decimalDigit?_lt hv).le
  constructor
  · refine (zpow_le_zpow_right₀ (by norm_num) (show (-300 : Int) ≤ -1 by decide)).trans ?_
    rw [zpow_neg_one]
    linarith
  · refine le_trans ?_ (one_le_pow₀ (by norm_num))
    linarith

/-- One tenth and two tenths are three tenths, and not more than that. -/
theorem check_tenths :
    (∃ x : Binary64, Exp.parse "0.1" [] [] = .ok (.float x) ∧
      (Exp.float x).encode .empty = .ok (.real (1 / 10))) ∧
    (∃ e, Exp.parse "((0.1 + 0.2) == 0.3)" [] [] = .ok e ∧
      Definitions.empty.check {} e = .ok .valid) ∧
    ∃ e, Exp.parse "((0.1 + 0.2) > 0.3)" [] [] = .ok e ∧
      Definitions.empty.check {} e = .ok (.notProven ⟨.empty, none⟩) := by
  have hone : decimalDigit? '1' = some 1 := by decide
  have htwo : decimalDigit? '2' = some 2 := by decide
  have hthree : decimalDigit? '3' = some 3 := by decide
  have h₁ := isModerate_tenths (h := by decide) hone Nat.one_pos
  have h₂ := isModerate_tenths (h := by decide) htwo Nat.two_pos
  have h₃ := isModerate_tenths (h := by decide) hthree (by decide)
  have hleft : WrittenSum.value (.add (.decimal _ h₁) (.decimal _ h₂)) = 3 / 10 := by
    simp only [WrittenSum.value, value_tenths _ hone, value_tenths _ htwo]
    norm_num
  have hright : WrittenSum.value (.decimal _ h₃) = 3 / 10 := by
    simp only [WrittenSum.value, value_tenths _ hthree]
    norm_num
  obtain ⟨hdecimal, hsums⟩ := encode_parse_eq_value [] [] .empty
  refine ⟨?_, ?_, ?_⟩
  · obtain ⟨x, hparse, -, hencode⟩ := hdecimal _ h₁
    rw [value_tenths _ hone, Nat.cast_one] at hencode
    exact ⟨x, hparse, hencode⟩
  · obtain ⟨hparse, hcheck⟩ := hsums (.add (.decimal _ h₁) (.decimal _ h₂)) (.decimal _ h₃) .eq "=="
      true rfl (by simp [BinOp.compares?, hleft, hright])
    exact ⟨_, hparse, hcheck {} rfl⟩
  · obtain ⟨hparse, hcheck⟩ := hsums (.add (.decimal _ h₁) (.decimal _ h₂)) (.decimal _ h₃) .gt ">"
      false rfl (by simp [BinOp.compares?, hleft, hright])
    exact ⟨_, hparse, hcheck {} rfl⟩

end WrittenDecimal

end Discharge
