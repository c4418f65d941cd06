import Mathlib.Data.List.DropRight
import Mathlib.Data.Nat.Digits.Lemmas
import Discharge.Proofs.Number.Literals
import Discharge.Proofs.Syntax.Texts

/-!
# Decimals as they are written

A `WrittenDecimal` is digits, a point and digits, as expressions may hold them. It has the rational that
the digits spell, and the double that is read. `WrittenDecimal.decimalValue?_double` says that the double
is encoded as that rational, if no more than fifteen digits count and the number is zero or of moderate
size.
-/

namespace Discharge

/-- Decimal digits with a point between them. -/
structure WrittenDecimal where
  whole : List Char
  fraction : List Char
  whole_ne_nil : whole ≠ []
  fraction_ne_nil : fraction ≠ []
  isDecimalDigit_whole : ∀ c ∈ whole, isDecimalDigit c = true
  isDecimalDigit_fraction : ∀ c ∈ fraction, isDecimalDigit c = true

namespace WrittenDecimal

variable (n : WrittenDecimal)

/-- The text. -/
def text : String := String.ofList (n.whole ++ '.' :: n.fraction)

/-- The values of the digits, without the point. -/
def digits : List Nat := (n.whole ++ n.fraction).filterMap decimalDigit?

/-- The rational that the digits spell. -/
def value : Rat := (Nat.ofDigits 10 n.digits.reverse : Nat) / 10 ^ n.fraction.length

/-- The digits from the first to the last one that is not zero. -/
def significant : List Nat := (n.digits.dropWhile (· == 0)).rdropWhile (· == 0)

/-- At most fifteen digits count, and the number is zero or of moderate size. -/
structure IsModerate : Prop where
  significant : n.significant.length ≤ 15
  size : n.value = 0 ∨ (10 : Rat) ^ (-300 : Int) ≤ n.value ∧ n.value ≤ 10 ^ 300

/-- The numeral that is read. -/
def decimal : Decimal :=
  .ofParts (n.whole.filterMap decimalDigit?) (n.fraction.filterMap decimalDigit?)

/-- The double that is read. -/
def double : Binary64 := .ofDecimal false n.decimal

/-! ## Digits -/

/-- The value of a decimal digit is less than ten. -/
theorem decimalDigit?_lt {c : Char} {v : Nat} (h : decimalDigit? c = some v) : v < 10 := by
  unfold decimalDigit? at h
  obtain ⟨z, hz, rfl⟩ := Option.map_eq_some_iff.1 h
  have := List.find?_some hz
  simp only [Bool.and_eq_true, decide_eq_true_eq] at this
  omega

/-- The digits of a written decimal are less than ten. -/
theorem lt_of_mem_digits : ∀ d ∈ n.digits, d < 10 := by
  intro d hd
  obtain ⟨c, -, hc⟩ := List.mem_filterMap.1 hd
  exact decimalDigit?_lt hc

/-- The number that a run of digits spells, in the terms of the library. -/
theorem ofDigitValues_eq (values : List Nat) :
    Decimal.ofDigitValues values = Nat.ofDigits 10 values.reverse := by
  induction values using List.reverseRecOn with
  | nil => rfl
  | append_singleton values v ih =>
    rw [Decimal.ofDigitValues, List.foldl_append, List.foldl_cons, List.foldl_nil,
      ← Decimal.ofDigitValues, ih, List.reverse_append, List.reverse_singleton, List.singleton_append,
      Nat.ofDigits_cons, Nat.add_comm]

/-- Written digits have as many values as there are digits. -/
theorem length_filterMap_decimalDigit? {cs : List Char} (h : ∀ c ∈ cs, isDecimalDigit c = true) :
    (cs.filterMap decimalDigit?).length = cs.length := by
  induction cs with
  | nil => rfl
  | cons c cs ih =>
    obtain ⟨hc, hcs⟩ := List.forall_mem_cons.1 h
    obtain ⟨v, hv⟩ := Option.isSome_iff_exists.1 hc
    rw [List.filterMap_cons_some hv, List.length_cons, List.length_cons, ih hcs]

/-- The numeral that is read has the value that the digits spell. -/
theorem toRat_decimal : n.decimal.toRat = n.value := by
  rw [Decimal.toRat_eq, decimal, Decimal.ofParts, ofDigitValues_eq,
    length_filterMap_decimalDigit? n.isDecimalDigit_fraction, zpow_neg, zpow_natCast, value, digits,
    List.filterMap_append, div_eq_mul_inv]

/-- Zeros at the end of the digits are a power of ten. -/
theorem ofDigits_dropWhile_zero : ∀ ds : List Nat,
    ∃ k, Nat.ofDigits 10 ds = 10 ^ k * Nat.ofDigits 10 (ds.dropWhile (· == 0))
  | [] => ⟨0, by simp⟩
  | d :: ds => by
    by_cases hd : d = 0
    · obtain ⟨k, hk⟩ := ofDigits_dropWhile_zero ds
      refine ⟨k + 1, ?_⟩
      rw [List.dropWhile_cons_of_pos (by simpa using hd), hd, Nat.ofDigits_cons, hk, pow_succ]
      ring
    · exact ⟨0, by rw [List.dropWhile_cons_of_neg (by simpa using hd), pow_zero, one_mul]⟩

/-- Zeros before the digits do not count. -/
theorem ofDigits_rdropWhile_zero (ds : List Nat) :
    Nat.ofDigits 10 (ds.rdropWhile (· == 0)) = Nat.ofDigits 10 ds := by
  induction ds using List.reverseRecOn with
  | nil => rfl
  | append_singleton ds d ih =>
    by_cases hd : d = 0
    · rw [List.rdropWhile_concat_pos _ _ _ (by simpa using hd), ih, hd, Nat.ofDigits_append,
        Nat.ofDigits_singleton, mul_zero, add_zero]
    · rw [List.rdropWhile_concat_neg _ _ _ (by simpa using hd)]

/-- The value is a power of ten times a number with as many digits as count. -/
theorem exists_value_eq : ∃ (m : Nat) (e : Int),
    n.value = m * (10 : Rat) ^ e ∧ m < 10 ^ n.significant.length := by
  obtain ⟨k, hk⟩ := ofDigits_dropWhile_zero (n.digits.reverse.rdropWhile (· == 0))
  rw [ofDigits_rdropWhile_zero] at hk
  have hsignificant : (n.digits.reverse.rdropWhile (· == 0)).dropWhile (· == 0) =
      n.significant.reverse := by
    rw [significant, List.rdropWhile, List.reverse_reverse, List.rdropWhile, List.reverse_reverse]
  rw [hsignificant] at hk
  refine ⟨Nat.ofDigits 10 n.significant.reverse, k - n.fraction.length, ?_, ?_⟩
  · rw [value, hk, zpow_sub₀ (by norm_num), zpow_natCast, zpow_natCast]
    push_cast
    ring
  · rw [← List.length_reverse]
    refine Nat.ofDigits_lt_base_pow_length (by norm_num) fun d hd => n.lt_of_mem_digits d ?_
    rw [List.mem_reverse, significant] at hd
    exact List.dropWhile_subset _ ((List.rdropWhile_prefix _ _).subset hd)

/-! ## What is read -/

/-- The text is read as the double. -/
theorem writes : Writes .atom n.text (.float n.double) := by
  refine ⟨_, .of_numeral ?_, .float _ _, by simp [Token.Fits]⟩
  rw [text, String.toList_ofList]
  exact .float n.whole n.fraction n.whole_ne_nil n.fraction_ne_nil n.isDecimalDigit_whole
    n.isDecimalDigit_fraction

/-- The double is the one nearest to the number that is spelled. -/
theorem isNearest_double : n.double.IsNearest n.value := by
  have h := Binary64.isNearest_ofDecimal false n.decimal
  rwa [signed_false, toRat_decimal] at h

variable {n}

/-- The double is encoded as the number that is spelled. -/
theorem decimalValue?_double (h : n.IsModerate) : n.double.decimalValue? = some n.value := by
  rcases h.size with hzero | ⟨hlow, hhigh⟩
  · have hread : n.double = .ofRank false 0 :=
      Binary64.ofDecimal_of_toRat_eq_zero (n.toRat_decimal.trans hzero)
    have hpos : 0 < finiteRanks := by decide
    rw [hread, Binary64.ofRank, dif_pos hpos, Binary64.decimalValue?_finite,
      Binary64.toRat_shortest_zero, signed_zero, hzero]
  · obtain ⟨m, e, hvalue, hm⟩ := n.exists_value_eq
    have hfifteen : m < 10 ^ 15 := hm.trans_le (Nat.pow_le_pow_right (by norm_num) h.significant)
    rw [← n.toRat_decimal] at hvalue hlow hhigh
    rw [double, Binary64.decimalValue?_ofDecimal hvalue hfifteen hlow hhigh, signed_false,
      n.toRat_decimal]

end WrittenDecimal

end Discharge
