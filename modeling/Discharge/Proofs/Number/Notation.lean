import Discharge.Number.Decimal
import Discharge.Proofs.Number.Shortest
import Discharge.Proofs.Syntax.Spelling

/-!
# Written numbers read back

`text_of_positional`: the text of a double that is zero or lies in the positional range consists of
digits around a point, and these digits are read as the same double. `text_of_not_positional`: the
text of any other double that can be read contains a word, be it the mark of the power of ten or the
word for infinity.
-/

namespace Discharge

namespace Decimal

/-- The number that a run of ASCII digits spells, in the terms of the standard library. -/
theorem ofDigitValues_map (cs : List Char) :
    ofDigitValues (cs.map fun c => c.toNat - '0'.toNat) = Nat.ofDigitChars 10 cs 0 := by
  rw [ofDigitValues, List.foldl_map]
  rfl

/-- The values of the usual digits. -/
theorem filterMap_decimalDigit? {cs : List Char} (h : ∀ c ∈ cs, c.isDigit = true) :
    cs.filterMap decimalDigit? = cs.map fun c => c.toNat - '0'.toNat := by
  induction cs with
  | nil => rfl
  | cons c cs ih =>
    rw [List.filterMap_cons_some (Token.decimalDigit?_of_isDigit (h c List.mem_cons_self)),
      ih fun d hd => h d (List.mem_cons_of_mem c hd)]
    rfl

/-- The numeral that written digits before and after a point spell. -/
theorem ofParts_of_digits {w f : List Char} (hw : ∀ c ∈ w, c.isDigit = true)
    (hf : ∀ c ∈ f, c.isDigit = true) :
    ofParts (w.filterMap decimalDigit?) (f.filterMap decimalDigit?) =
      ⟨Nat.ofDigitChars 10 (w ++ f) 0, -(f.length : Int)⟩ := by
  rw [filterMap_decimalDigit? hw, filterMap_decimalDigit? hf, ofParts, ← List.map_append,
    ofDigitValues_map, List.length_map]

/-- The digits of a number are digits. -/
theorem isDigit_of_mem_toDigits {n : Nat} : ∀ c ∈ Nat.toDigits 10 n, c.isDigit = true :=
  fun _ hc => Nat.isDigit_of_mem_toDigits (by decide) (by decide) hc

/-- Zeros that fill up a numeral are digits. -/
theorem isDigit_of_mem_zeros {n : Nat} : ∀ c ∈ Layout.zeros n, c.isDigit = true := by
  intro c hc
  rw [List.eq_of_mem_replicate hc]
  decide

/-- Two runs of digits make a run of digits. -/
theorem isDigit_of_mem_append {l m : List Char} (hl : ∀ c ∈ l, c.isDigit = true)
    (hm : ∀ c ∈ m, c.isDigit = true) : ∀ c ∈ l ++ m, c.isDigit = true :=
  fun c hc => (List.mem_append.1 hc).elim (hl c) (hm c)

/-- Digits around a point and the numeral that they spell. -/
structure Pointed (text : List Char) (value : Rat) (w f : List Char) : Prop where
  eq : text = w ++ '.' :: f
  whole : w ≠ []
  fraction : f ≠ []
  wholeDigits : ∀ c ∈ w, c.isDigit = true
  fractionDigits : ∀ c ∈ f, c.isDigit = true
  value : (ofParts (w.filterMap decimalDigit?) (f.filterMap decimalDigit?)).toRat = value

/-- A single zero is a run of digits. -/
theorem isDigit_zero : ∀ c ∈ ['0'], c.isDigit = true := List.all_eq_true.1 rfl

/-- Digits after a point and `k` zeros. -/
theorem pointed_zeros_append {ds : List Char} (hne : ds ≠ []) (hd : ∀ c ∈ ds, c.isDigit = true)
    (k : Nat) : Pointed ('0' :: '.' :: Layout.zeros k ++ ds)
      (Nat.ofDigitChars 10 ds 0 * (10 : Rat) ^ (-(k : Int) - ds.length)) ['0']
      (Layout.zeros k ++ ds) := by
  have hf : ∀ c ∈ Layout.zeros k ++ ds, c.isDigit = true :=
    isDigit_of_mem_append isDigit_of_mem_zeros hd
  refine ⟨rfl, by simp, by simp [hne], isDigit_zero, hf, ?_⟩
  have hvalue : Nat.ofDigitChars 10 (['0'] ++ (Layout.zeros k ++ ds)) 0 =
      Nat.ofDigitChars 10 ds 0 := by
    rw [Nat.ofDigitChars_append, Nat.ofDigitChars_append, Layout.zeros,
      Nat.ofDigitChars_replicate_zero]
    rfl
  have hexp : -((Layout.zeros k ++ ds).length : Int) = -(k : Int) - ds.length := by
    rw [List.length_append, Layout.zeros, List.length_replicate]
    omega
  rw [ofParts_of_digits isDigit_zero hf, toRat_eq, hvalue, hexp]

/-- Digits and `k` zeros before a point. -/
theorem pointed_append_zeros {ds : List Char} (hne : ds ≠ []) (hd : ∀ c ∈ ds, c.isDigit = true)
    (k : Nat) : Pointed (ds ++ Layout.zeros k ++ ['.', '0'])
      (Nat.ofDigitChars 10 ds 0 * (10 : Rat) ^ k) (ds ++ Layout.zeros k) ['0'] := by
  have hw : ∀ c ∈ ds ++ Layout.zeros k, c.isDigit = true :=
    isDigit_of_mem_append hd isDigit_of_mem_zeros
  refine ⟨by simp, by simp [hne], by simp, hw, isDigit_zero, ?_⟩
  have hvalue : Nat.ofDigitChars 10 (ds ++ Layout.zeros k ++ ['0']) 0 =
      10 * (10 ^ k * Nat.ofDigitChars 10 ds 0) := by
    rw [Nat.ofDigitChars_append, Nat.ofDigitChars_append, Layout.zeros,
      Nat.ofDigitChars_replicate_zero]
    rfl
  rw [ofParts_of_digits hw isDigit_zero, toRat_eq, hvalue]
  simp only [List.length_singleton, Nat.cast_one, zpow_neg, zpow_one]
  push_cast
  field_simp

/-- Digits with a point among them. -/
theorem pointed_take_drop {ds : List Char} {n : Nat} (hd : ∀ c ∈ ds, c.isDigit = true)
    (hpos : 0 < n) (hlen : n < ds.length) : Pointed (ds.take n ++ '.' :: ds.drop n)
      (Nat.ofDigitChars 10 ds 0 * (10 : Rat) ^ ((n : Int) - ds.length)) (ds.take n)
      (ds.drop n) := by
  have hw : ∀ c ∈ ds.take n, c.isDigit = true := fun c hc => hd c (List.mem_of_mem_take hc)
  have hf : ∀ c ∈ ds.drop n, c.isDigit = true := fun c hc => hd c (List.mem_of_mem_drop hc)
  refine ⟨rfl, ?_, ?_, hw, hf, ?_⟩
  · refine List.ne_nil_of_length_pos ?_
    rw [List.length_take]
    omega
  · refine List.ne_nil_of_length_pos ?_
    rw [List.length_drop]
    omega
  · have hexp : -((ds.drop n).length : Int) = (n : Int) - ds.length := by
      rw [List.length_drop]
      omega
    rw [ofParts_of_digits hw hf, List.take_append_drop, toRat_eq, hexp]

/-- Positional notation keeps the value. -/
theorem pointed_positional {ds : List Char} (hne : ds ≠ []) (hd : ∀ c ∈ ds, c.isDigit = true)
    (whole : Int) : ∃ w f, Pointed (Layout.positional ds whole)
      (Nat.ofDigitChars 10 ds 0 * (10 : Rat) ^ (whole - ds.length)) w f := by
  unfold Layout.positional
  split
  · next h =>
    obtain ⟨k, hk⟩ := Int.eq_ofNat_of_zero_le (show 0 ≤ -whole by omega)
    obtain rfl : whole = -(k : Int) := by omega
    rw [hk, Int.toNat_natCast]
    exact ⟨_, _, pointed_zeros_append hne hd k⟩
  · next h =>
    obtain ⟨n, rfl⟩ := Int.eq_ofNat_of_zero_le (show 0 ≤ whole by omega)
    rw [Int.toNat_natCast]
    dsimp only
    split
    · next hlen =>
      have hexp : (n : Int) - ds.length = (n - ds.length : Nat) := by omega
      rw [hexp, zpow_natCast]
      exact ⟨_, _, pointed_append_zeros hne hd _⟩
    · next hlen => exact ⟨_, _, pointed_take_drop hd (by omega) (by omega)⟩

/-- A fraction with a power of two below the line has a numeral without a power of ten. -/
theorem pointed_fraction (m n : Nat) :
    ∃ text w f, Pointed text ((m : Rat) / 2 ^ n) w f := by
  have hten : (10 : Rat) ^ n = 2 ^ n * 5 ^ n := by rw [← mul_pow]; norm_num
  have hvalue : ((m * 5 ^ n : Nat) : Rat) * 10 ^ (-(n : Int)) = m / 2 ^ n := by
    rw [zpow_neg, zpow_natCast, hten]
    push_cast
    field_simp
  obtain ⟨w, f, hp⟩ := pointed_positional (Nat.toDigits_ne_nil (n := m * 5 ^ n) (b := 10))
    isDigit_of_mem_toDigits ((Nat.toDigits 10 (m * 5 ^ n)).length - n)
  rw [Nat.ofDigitChars_ten_toDigits, sub_sub_cancel_left, hvalue] at hp
  exact ⟨_, w, f, hp⟩

/-- A decimal in the positional range is written as digits around a point that spell its value. -/
theorem pointed_write {d : Decimal} (h : d.digits = 0 ∨ -4 ≤ d.place ∧ d.place < 16) :
    ∃ w f, Pointed (Layout.standard.write d) d.toRat w f := by
  have hpoint := pointed_positional (Nat.toDigits_ne_nil (n := d.digits) (b := 10))
    isDigit_of_mem_toDigits (d.place + 1)
  have hvalue : (Nat.ofDigitChars 10 (Nat.toDigits 10 d.digits) 0 : Rat) *
      (10 : Rat) ^ (d.place + 1 - (Nat.toDigits 10 d.digits).length) = d.toRat := by
    rw [Nat.ofDigitChars_ten_toDigits, toRat_eq]
    congr 2
    unfold place
    omega
  rw [hvalue] at hpoint
  have hwrite : Layout.standard.write d =
      Layout.positional (Nat.toDigits 10 d.digits) (d.place + 1) := by
    unfold Layout.write
    simp only
    rw [if_pos]
    · rfl
    · rw [Bool.or_eq_true, Bool.and_eq_true, decide_eq_true_eq, decide_eq_true_eq,
        decide_eq_true_eq]
      exact h
  rwa [hwrite]

/-- A number with a digit at a moderate place is in the range that is rounded and not cut off. -/
theorem place_le_log2 {d : Decimal} (h : 0 < d.digits) : d.place ≤ d.exponent + d.digits.log2 := by
  have hle := (length_toDigits_le h).1
  have hpow : 2 ^ ((Nat.toDigits 10 d.digits).length - 1) ≤ d.digits :=
    (Nat.pow_le_pow_left (by decide) _).trans hle
  have hlog := (Nat.le_log2 h.ne').2 hpow
  have hpos : 0 < (Nat.toDigits 10 d.digits).length := Nat.length_toDigits_pos
  unfold place
  omega

end Decimal

namespace Binary64

open Decimal (Pointed)

variable {r : Nat}

/-- A decimal of moderate size is read as the double in whose interval it lies. -/
theorem ofDecimal_eq {d : Decimal} (hr : 0 < r) (hround : RoundsAt r d.toRat)
    (hplace : -400 ≤ d.place) (hexp : d.exponent ≤ 0) : ofDecimal false d = ofRank false r := by
  have hunits : (0 : Rat) < unitsPerOne := by exact_mod_cast unitsPerOne_pos
  have hdigits : 0 < d.digits := by
    rw [← Decimal.toRat_pos_iff]
    have hlow := hround.low
    have hpos : (0 : Rat) < units r := by exact_mod_cast units_pos hr
    have hpred : (0 : Rat) ≤ units (r - 1) := Nat.cast_nonneg _
    by_contra hq
    have := mul_nonneg (neg_nonneg.2 (not_lt.1 hq)) hunits.le
    linarith
  have hlog := Decimal.place_le_log2 hdigits
  have hcut : (decide (d.digits = 0) || decide (d.exponent + d.digits.log2 + 400 < 0)) = false := by
    rw [Bool.or_eq_false_iff, decide_eq_false_iff_not, decide_eq_false_iff_not]
    omega
  unfold ofDecimal
  rw [hcut, if_neg Bool.false_ne_true, if_neg (by omega)]
  rw [Decimal.toRat_eq] at hround
  split
  · next h =>
    have hzero : d.exponent = 0 := by omega
    rw [hzero, zpow_zero, mul_one] at hround
    rw [hzero]
    refine congrArg (ofRank false) (nearestRank_eq Nat.one_pos ?_)
    simpa using hround
  · next h =>
    obtain ⟨n, hn⟩ := Int.eq_ofNat_of_zero_le (show 0 ≤ -d.exponent by omega)
    have he : d.exponent = -(n : Int) := by omega
    rw [he, zpow_neg, zpow_natCast, ← div_eq_mul_inv] at hround
    rw [hn, Int.toNat_natCast]
    refine congrArg (ofRank false) (nearestRank_eq (Nat.pow_pos (by decide)) ?_)
    rw [Nat.pow_eq, Nat.cast_pow]
    exact hround

/-- A numeral with value zero is nearest to the double zero. -/
theorem ofDecimal_of_toRat_eq_zero {d : Decimal} (h : d.toRat = 0) :
    ofDecimal false d = ofRank false 0 := by
  have hdigits : d.digits = 0 := by
    by_contra hne
    have := (Decimal.toRat_pos_iff d).2 (Nat.pos_of_ne_zero hne)
    rw [h] at this
    exact lt_irrefl _ this
  rw [ofDecimal, hdigits]
  rfl

/-- Every rank has a numeral without a power of ten that is read as its number: the exact value. -/
theorem exists_pointed (r : Nat) : ∃ text w f v, Pointed text v w f ∧
    ofDecimal false (Decimal.ofParts (w.filterMap decimalDigit?) (f.filterMap decimalDigit?)) =
      ofRank false r := by
  obtain ⟨n, hn⟩ : ∃ n, unitsPerOne = 2 ^ n := by
    unfold unitsPerOne
    generalize 1074 = n
    exact ⟨n, rfl⟩
  obtain ⟨text, w, f, hp⟩ := Decimal.pointed_fraction (units r) n
  refine ⟨text, w, f, _, hp, ?_⟩
  have hparts := Decimal.ofParts_of_digits hp.wholeDigits hp.fractionDigits
  have hvalue := hp.value
  rcases Nat.eq_zero_or_pos r with rfl | hr
  · exact ofDecimal_of_toRat_eq_zero (by rw [hvalue, units_zero]; simp)
  have hunits : (0 : Rat) < (2 : Rat) ^ n := by positivity
  have hone : (1 : Rat) ≤ units r := by exact_mod_cast units_pos hr
  refine ofDecimal_eq hr ?_ ?_ (by rw [hparts]; simp)
  · -- The value itself lies between the middles to its neighbours.
    have hmid : 2 * ((units r : Rat) / 2 ^ n) * unitsPerOne = units r + units r := by
      rw [hn]
      push_cast
      field_simp
      ring
    have hlow : (units (r - 1) : Rat) < units r := by exact_mod_cast units_lt_units (by omega)
    have hhigh : (units r : Rat) < units (r + 1) := by exact_mod_cast units_lt_units (by omega)
    rw [hvalue]
    exact .of_lt (by linarith) (by linarith)
  · have hpos : 0 < (Decimal.ofParts (w.filterMap decimalDigit?)
        (f.filterMap decimalDigit?)).digits := by
      rw [← Decimal.toRat_pos_iff, hvalue]
      exact div_pos (by linarith) hunits
    have hten : (2 : Rat) ^ n ≤ 10 ^ 400 := by
      have h : unitsPerOne ≤ Nat.pow 10 400 := by decide +kernel
      rw [hn] at h
      generalize 400 = k at h ⊢
      exact_mod_cast h
    have hbound : (10 : Rat) ^ (-400 : Int) = (10 ^ 400)⁻¹ := zpow_neg 10 (400 : Nat)
    rw [Decimal.le_place_iff hpos, hvalue, le_div_iff₀ hunits, hbound,
      inv_mul_le_iff₀ (by positivity)]
    exact hten.trans (le_mul_of_one_le_right (by positivity) hone)

/-- The text of a finite double that is not negative is its shortest decimal in the usual layout. -/
theorem toList_text (r : Fin finiteRanks) :
    (finite false r).text.toList = Layout.standard.write (shortest r) := by
  rw [text, if_neg Bool.false_ne_true, String.toList_ofList]

/-- The double of the rank of a finite number is that number. -/
theorem ofRank_val (r : Fin finiteRanks) : ofRank false r = finite false r := by
  rw [ofRank, dif_pos r.isLt]

/-- A positional double is written as digits around a point that are read as the double. -/
theorem text_of_positional {r : Fin finiteRanks} (h : (finite false r).Positional) :
    ∃ w f v, Pointed (finite false r).text.toList v w f ∧
      ofDecimal false (Decimal.ofParts (w.filterMap decimalDigit?) (f.filterMap decimalDigit?)) =
        finite false r := by
  have hplace := (positional_finite_iff r).1 h
  obtain ⟨w, f, hp⟩ := Decimal.pointed_write hplace
  refine ⟨w, f, _, by rw [toList_text]; exact hp, ?_⟩
  have hparts := Decimal.ofParts_of_digits hp.wholeDigits hp.fractionDigits
  have hvalue := hp.value
  rw [← ofRank_val r]
  rcases Nat.eq_zero_or_pos r.val with h0 | hr
  · have hzero : (shortest r).toRat = 0 := by
      rw [h0, Decimal.toRat_eq]
      simp [shortest]
    rw [ofDecimal_of_toRat_eq_zero (hvalue.trans hzero), h0]
  · have hdigits := shortest_digits_pos hr
    refine ofDecimal_eq hr (hvalue ▸ shortest_rounds hr) ?_ (by rw [hparts]; simp)
    have hpos : 0 < (Decimal.ofParts (w.filterMap decimalDigit?)
        (f.filterMap decimalDigit?)).digits := by
      rw [← Decimal.toRat_pos_iff, hvalue, Decimal.toRat_pos_iff]
      exact hdigits
    rw [Decimal.le_place_iff hpos, hvalue, ← Decimal.le_place_iff hdigits]
    have := (hplace.resolve_left hdigits.ne').1
    omega

/-- A text with a power of ten: a numeral, the mark, a sign, and digits. -/
structure Scientific (text m : List Char) (u : Token) (sign : Char) (es : List Char) : Prop where
  eq : text = m ++ 'e' :: sign :: es
  numeral : Token.Numeral u m
  sign_eq : sign = '+' ∨ sign = '-'
  ne_nil : es ≠ []
  digits : ∀ c ∈ es, c.isDigit = true

/-- The power of ten in a text is a letter, a sign and at least one digit. -/
theorem scientific_power (layout : Layout) (e : Int) : ∃ sign es,
    layout.power e = 'e' :: sign :: es ∧ (sign = '+' ∨ sign = '-') ∧ es ≠ [] ∧
      ∀ c ∈ es, c.isDigit = true := by
  refine ⟨_, _, rfl, ?_, by simp,
    Decimal.isDigit_of_mem_append Decimal.isDigit_of_mem_zeros Decimal.isDigit_of_mem_toDigits⟩
  split
  · exact .inr rfl
  · exact .inl rfl

/-- A text with a power of ten is in scientific notation. -/
theorem scientific_of_digits {ds : List Char} (hne : ds ≠ []) (hd : ∀ c ∈ ds, c.isDigit = true)
    (layout : Layout) (e : Int) :
    ∃ m u sign es, Scientific (layout.scientific ds e) m u sign es := by
  obtain ⟨sign, es, hpow, hsign, hes, hed⟩ := scientific_power layout e
  cases ds with
  | nil => exact absurd rfl hne
  | cons c cs =>
    cases cs with
    | nil => exact ⟨[c], _, sign, es, by rw [Layout.scientific, hpow]; rfl, .int [c] hne hd,
        hsign, hes, hed⟩
    | cons d ds =>
      have hdec : ∀ a ∈ c :: d :: ds, isDecimalDigit a = true :=
        fun a ha => Token.isDecimalDigit_of_isDigit (hd a ha)
      refine ⟨[c] ++ '.' :: (d :: ds), _, sign, es, ?_,
        .float [c] (d :: ds) (by simp) (by simp) ?_ ?_, hsign, hes, hed⟩
      · rw [Layout.scientific, hpow]
        · rfl
        · simp
      · intro a ha
        exact hdec a (by simp_all)
      · intro a ha
        exact hdec a (List.mem_cons_of_mem c ha)

/-- Any other finite double is written with a power of ten. -/
theorem text_of_not_positional {r : Fin finiteRanks} (h : ¬ (finite false r).Positional) :
    ∃ m u sign es, Scientific (finite false r).text.toList m u sign es := by
  rw [positional_finite_iff] at h
  have hwrite : (finite false r).text.toList = Layout.standard.scientific
      (Nat.toDigits 10 (shortest r).digits) (shortest r).place := by
    rw [toList_text]
    unfold Layout.write
    simp only
    rw [if_neg]
    · rfl
    · rw [Bool.or_eq_true, Bool.and_eq_true, decide_eq_true_eq, decide_eq_true_eq,
        decide_eq_true_eq]
      exact h
  rw [hwrite]
  exact scientific_of_digits Nat.toDigits_ne_nil Decimal.isDigit_of_mem_toDigits _ _

end Binary64

end Discharge
