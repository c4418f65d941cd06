import Discharge.Expr.Printer
import Discharge.Syntax.Token
import Mathlib

/-!
# Spelled tokens

`Scans` says which texts spell which tokens: blanks may stand before any token and at the end, and
each token is a piece of the text. Names and numbers are as long as possible, `<=` is not followed
by `>` and `<` not by `=>`. Nothing is said of an order in which tokens are tried.

`scanFrom_sound` and `scanFrom_complete` relate this to the scanner. The scanner takes the longest
operator, so it needs more than `Scans` gives: after an operator comes the beginning of an operand.
Tokens of a formula are so (`Adjacent`), and then the two agree.
-/

namespace Discharge

namespace Token

/-! ## What spells a token -/

/-- The spelling of a token that has just one. -/
def symbol? : Token → Option String
  | .truth b => some (if b then "true" else "false")
  | .sign kind => some kind.keyword
  | .length => some "\\length"
  | .op o => if o = .floatDiv then none else o.symbol?
  | .bang => some "!"
  | .lparen => some "("
  | .rparen => some ")"
  | .lbracket => some "["
  | .rbracket => some "]"
  | .comma => some ","
  | .dot => some "."
  | .assign => some ":="
  | .int _ => none
  | .float _ _ => none
  | .word _ => none
  | .invalid _ => none

/-- The names that are no names. -/
def IsKeyword (name : String) : Prop := name = "true" ∨ name = "false"

/-- Integers in ASCII digits, and digits of any script around a point. -/
inductive Numeral : Token → List Char → Prop
  | int (ds : List Char) (hne : ds ≠ []) (h : ∀ c ∈ ds, c.isDigit = true) : Numeral (.int ds) ds
  | float (w f : List Char) (hw : w ≠ []) (hf : f ≠ []) (hwd : ∀ c ∈ w, isDecimalDigit c = true)
      (hfd : ∀ c ∈ f, isDecimalDigit c = true) :
      Numeral (.float (w.filterMap decimalDigit?) (f.filterMap decimalDigit?)) (w ++ '.' :: f)

/-- `Spelled g t s`: the characters `s` spell the token `t`. `g` says that names may be keywords. -/
inductive Spelled (g : Bool) : Token → List Char → Prop
  | symbol {t : Token} {s : String} (h : t.symbol? = some s) : Spelled g t s.toList
  | numeral {t : Token} {s : List Char} (h : Numeral t s) : Spelled g t s
  | word (c : Char) (cs : List Char) (hc : isNameStart c = true)
      (hcs : ∀ d ∈ cs, isNamePart d = true)
      (hk : g = false → ¬ IsKeyword (String.ofList (c :: cs))) :
      Spelled g (.word (String.ofList (c :: cs))) (c :: cs)

/-- Whether the text `r` does not begin with a character of a class. -/
def NoHead (p : Char → Bool) (r : List Char) : Prop := ∀ c cs, r = c :: cs → p c = false

/-- `Ends t s r`: the token `t`, spelled `s`, is not cut short before the text `r`. -/
def Ends (t : Token) (s r : List Char) : Prop :=
  match t with
  | .word _ => NoHead isNamePart r
  | .truth _ => NoHead isNamePart r
  | .int _ => ∀ u s' r', s ++ r = s' ++ r' → Numeral u s' → s'.length ≤ s.length
  | .float _ _ => ∀ u s' r', s ++ r = s' ++ r' → Numeral u s' → s'.length ≤ s.length
  | .op .lt => ∀ r', r ≠ '=' :: '>' :: r'
  | .op .le => ∀ r', r ≠ '>' :: r'
  | _ => True

/-- `Scans free g cs ts`: the text `cs` spells the tokens `ts`. `g` says that the text directly
follows a quantifier sign, and `free` that a name at such a place may be a keyword. -/
inductive Scans (free : Bool) : Bool → List Char → List Token → Prop
  | done {g} : Scans free g [] []
  | blank {g c cs ts} (hc : isBlank c = true) (h : Scans free false cs ts) :
      Scans free g (c :: cs) ts
  | token {g t s r ts} (hs : Spelled (free && g) t s) (he : Ends t s r)
      (h : Scans free t.isSign r ts) : Scans free g (s ++ r) (t :: ts)

/-! ## Classes of characters -/

/-- The digits by their code points. -/
theorem isDigit_iff {c : Char} : c.isDigit = true ↔ 48 ≤ c.toNat ∧ c.toNat ≤ 57 := by
  simp only [Char.isDigit, Bool.and_eq_true, decide_eq_true_eq, ge_iff_le, UInt32.le_iff_toNat_le]
  exact Iff.rfl

/-- The letters by their code points. -/
theorem isAlpha_iff {c : Char} :
    c.isAlpha = true ↔ 65 ≤ c.toNat ∧ c.toNat ≤ 90 ∨ 97 ≤ c.toNat ∧ c.toNat ≤ 122 := by
  simp only [Char.isAlpha, Char.isUpper, Char.isLower, Bool.or_eq_true, Bool.and_eq_true,
    decide_eq_true_eq, ge_iff_le, UInt32.le_iff_toNat_le]
  exact Iff.rfl

/-- The blank characters. -/
theorem isBlank_iff {c : Char} :
    isBlank c = true ↔ c = ' ' ∨ c = '\t' ∨ c = '\n' ∨ c = '\r' := by
  simp [isBlank, or_assoc]

/-- ASCII digits are decimal digits, of the value that one expects. -/
theorem decimalDigit?_of_isDigit {c : Char} (h : c.isDigit = true) :
    decimalDigit? c = some (c.toNat - 48) := by
  obtain ⟨h₁, h₂⟩ := isDigit_iff.1 h
  have hz : decide (48 ≤ c.toNat) && decide (c.toNat < 48 + 10) := by
    simp only [Bool.and_eq_true, decide_eq_true_eq]; omega
  rw [decimalDigit?, decimalZeros, List.find?_cons, hz]
  rfl

/-- The ten usual digits are decimal digits of a script. -/
theorem isDecimalDigit_of_isDigit {c : Char} (h : c.isDigit = true) : isDecimalDigit c = true := by
  rw [isDecimalDigit, decimalDigit?_of_isDigit h, Option.isSome_some]

/-- No digit lies outside the ASCII digits and below the code points of all letters. -/
theorem toNat_of_isDecimalDigit {c : Char} (h : isDecimalDigit c = true) :
    c.isDigit = true ∨ 0x660 ≤ c.toNat := by
  rw [isDecimalDigit, decimalDigit?, Option.isSome_map] at h
  obtain ⟨z, hz⟩ := Option.isSome_iff_exists.1 h
  have hall : ∀ z ∈ decimalZeros, z = 0x30 ∨ 0x660 ≤ z := by decide
  have hrange := List.find?_some hz
  simp only [Bool.and_eq_true, decide_eq_true_eq] at hrange
  rcases hall z (List.mem_of_find?_eq_some hz) with rfl | hge
  · exact .inl (isDigit_iff.2 (by omega))
  · exact .inr (by omega)

/-! ## Runs -/

section Runs

variable {p : Char → Bool} {l r s' r' : List Char}

/-- What is left when a run is taken off does not begin with a character of the run. -/
theorem noHead_dropWhile : NoHead p (l.dropWhile p) := by
  intro c cs h
  have hd := List.head?_dropWhile_not p l
  rwa [h] at hd

/-- A run that is not continued is what is taken of a text. -/
theorem takeWhile_run (hl : ∀ c ∈ l, p c = true) (hr : NoHead p r) : (l ++ r).takeWhile p = l := by
  rw [List.takeWhile_append_of_pos hl]
  cases r with
  | nil => simp
  | cons c cs => rw [List.takeWhile_cons, hr c cs rfl]; simp

/-- What follows a run that is not continued is what is left of a text. -/
theorem dropWhile_run (hl : ∀ c ∈ l, p c = true) (hr : NoHead p r) : (l ++ r).dropWhile p = r := by
  rw [List.dropWhile_append_of_pos hl]
  cases r with
  | nil => rfl
  | cons c cs => rw [List.dropWhile_cons, hr c cs rfl]; simp

/-- A maximal run is the longest. -/
theorem length_le_run (hl : ∀ c ∈ l, p c = true) (hr : NoHead p r) (hs : ∀ c ∈ s', p c = true)
    (h : l ++ r = s' ++ r') : s'.length ≤ l.length := by
  have hrun := takeWhile_run hl hr
  rw [h, List.takeWhile_append_of_pos hs] at hrun
  rw [← hrun, List.length_append]
  omega

end Runs

/-! ## Numbers -/

section Numbers

variable {c : Char} {cs ds w f r r' s' : List Char} {t u : Token}

/-- A point is no digit. -/
theorem noHead_point : NoHead isDecimalDigit ('.' :: r) := by
  intro c cs h
  obtain ⟨rfl, -⟩ := List.cons.inj h
  decide

/-- Whether a text begins with digits of any script around a point. -/
def HasPoint (cs : List Char) : Prop :=
  ∃ w f r, w ≠ [] ∧ f ≠ [] ∧ (∀ c ∈ w, isDecimalDigit c = true) ∧
    (∀ c ∈ f, isDecimalDigit c = true) ∧ cs = w ++ '.' :: (f ++ r)

/-- Digits, a point and digits are read as one number, up to the first character that is no digit.
-/
theorem number_float (hf : f ≠ []) (hwd : ∀ c ∈ w, isDecimalDigit c = true)
    (hfd : ∀ c ∈ f, isDecimalDigit c = true) (hr : NoHead isDecimalDigit r) :
    number (w ++ '.' :: (f ++ r)) =
      (.float (w.filterMap decimalDigit?) (f.filterMap decimalDigit?), r) := by
  unfold number
  rw [takeWhile_run hwd noHead_point, dropWhile_run hwd noHead_point]
  change (if ((f ++ r).takeWhile isDecimalDigit).isEmpty = true then _ else _) = _
  rw [takeWhile_run hfd hr, dropWhile_run hfd hr, if_neg (by simpa using hf)]

/-- A number without a point is read as an integer. -/
theorem number_of_not_hasPoint (hc : isDecimalDigit c = true) (h : ¬ HasPoint (c :: cs)) :
    number (c :: cs) = number.integer (c :: cs) := by
  unfold number
  dsimp only
  split
  · next r hr =>
    split
    · rfl
    · next hf =>
      have heq : c :: cs = (c :: cs).takeWhile isDecimalDigit ++
          '.' :: (r.takeWhile isDecimalDigit ++ r.dropWhile isDecimalDigit) := by
        rw [List.takeWhile_append_dropWhile, ← hr, List.takeWhile_append_dropWhile]
      exact absurd ⟨_, _, _, by simp [hc], by simpa using hf, fun _ => List.mem_takeWhile_imp,
        fun _ => List.mem_takeWhile_imp, heq⟩ h
  · rfl

/-- A run of digits is read as one integer. -/
theorem integer_run (hne : ds ≠ []) (hd : ∀ c ∈ ds, c.isDigit = true) (hr : NoHead Char.isDigit r) :
    number.integer (ds ++ r) = (.int ds, r) := by
  obtain ⟨c, ds, rfl⟩ := List.exists_cons_of_ne_nil hne
  have hc := hd c List.mem_cons_self
  have hds : ∀ d ∈ ds, d.isDigit = true := fun d hm => hd d (List.mem_cons_of_mem c hm)
  rw [List.cons_append, number.integer, if_pos hc, takeWhile_run hds hr, dropWhile_run hds hr]

/-- No numeral at the front of a text is longer than its float. -/
theorem length_le_float (hwd : ∀ c ∈ w, isDecimalDigit c = true)
    (hfd : ∀ c ∈ f, isDecimalDigit c = true) (hr : NoHead isDecimalDigit r)
    (h : (w ++ '.' :: f) ++ r = s' ++ r') (hu : Numeral u s') :
    s'.length ≤ (w ++ '.' :: f).length := by
  rw [List.append_assoc, List.cons_append] at h
  cases hu with
  | int ds hne hd =>
    have hlen := length_le_run hwd noHead_point (fun c hc => isDecimalDigit_of_isDigit (hd c hc)) h
    rw [List.length_append]
    omega
  | float w' f' hw' hf' hwd' hfd' =>
    rw [List.append_assoc, List.cons_append] at h
    have hw : w = w' := by
      rw [← takeWhile_run hwd (noHead_point (r := f ++ r)), h, takeWhile_run hwd' noHead_point]
    subst hw
    have hlen := length_le_run hfd hr hfd' (List.cons.inj (List.append_cancel_left h)).2
    simp only [List.length_append, List.length_cons]
    omega

/-- No numeral at the front of a text without a float is longer than its integer. -/
theorem length_le_int (hd : ∀ c ∈ ds, c.isDigit = true) (hr : NoHead Char.isDigit r)
    (hno : ¬ HasPoint (ds ++ r)) (h : ds ++ r = s' ++ r') (hu : Numeral u s') :
    s'.length ≤ ds.length := by
  cases hu with
  | int ds' hne' hd' => exact length_le_run hd hr hd' h
  | float w' f' hw' hf' hwd' hfd' =>
    exact absurd ⟨w', f', r', hw', hf', hwd', hfd', by rw [h]; simp⟩ hno

/-- A decimal digit begins a numeral, or is of another script and begins no token. -/
theorem number_sound (hc : isDecimalDigit c = true) (h : number (c :: cs) = (t, r))
    (ht : ∀ d, t ≠ .invalid d) : ∃ s, c :: cs = s ++ r ∧ Numeral t s ∧ Ends t s r := by
  by_cases hpoint : HasPoint (c :: cs)
  · obtain ⟨w, f, r₀, hw, hf, hwd, hfd, heq⟩ := hpoint
    have hfd' : ∀ d ∈ f ++ r₀.takeWhile isDecimalDigit, isDecimalDigit d = true := by
      intro d hd
      rcases List.mem_append.1 hd with hd | hd
      · exact hfd d hd
      · exact List.mem_takeWhile_imp hd
    have heq' : c :: cs =
        w ++ '.' :: ((f ++ r₀.takeWhile isDecimalDigit) ++ r₀.dropWhile isDecimalDigit) := by
      rw [heq, List.append_assoc, List.takeWhile_append_dropWhile]
    rw [heq', number_float (by simp [hf]) hwd hfd' noHead_dropWhile, Prod.mk.injEq] at h
    obtain ⟨rfl, rfl⟩ := h
    refine ⟨w ++ '.' :: (f ++ r₀.takeWhile isDecimalDigit), by rw [heq']; simp,
      .float w _ hw (by simp [hf]) hwd hfd', ?_⟩
    exact fun u s' r' hs hu => length_le_float hwd hfd' noHead_dropWhile hs hu
  · rw [number_of_not_hasPoint hc hpoint, number.integer] at h
    split at h
    · next hdig =>
      obtain ⟨rfl, rfl⟩ := Prod.mk.inj h
      have hd : ∀ d ∈ c :: cs.takeWhile Char.isDigit, d.isDigit = true := by
        intro d hd
        rcases List.mem_cons.1 hd with rfl | hd
        · exact hdig
        · exact List.mem_takeWhile_imp hd
      have heq : c :: cs = (c :: cs.takeWhile Char.isDigit) ++ cs.dropWhile Char.isDigit := by
        rw [List.cons_append, List.takeWhile_append_dropWhile]
      refine ⟨_, heq, .int _ (by simp) hd, ?_⟩
      exact fun u s' r' hs hu => length_le_int hd noHead_dropWhile (heq ▸ hpoint) hs hu
    · exact absurd (Prod.mk.inj h).1.symm (ht c)

/-- A numeral that no longer one contains is what the scanner takes. -/
theorem number_complete {s : List Char} (hs : Numeral t s) (he : Ends t s r) :
    number (s ++ r) = (t, r) := by
  cases hs with
  | int ds hne hd =>
    have hr : NoHead Char.isDigit r := by
      intro c cs hrc
      by_contra hc
      have hc : c.isDigit = true := by simpa using hc
      have hlonger : Numeral (.int (s ++ [c])) (s ++ [c]) := by
        refine .int _ (by simp) fun d hm => ?_
        rcases List.mem_append.1 hm with hm | hm
        · exact hd d hm
        · rwa [List.mem_singleton.1 hm]
      have hlen := he _ _ cs (by simp [hrc]) hlonger
      rw [List.length_append, List.length_singleton] at hlen
      omega
    have hno : ¬ HasPoint (s ++ r) := by
      rintro ⟨w, f, r', hw, hf, hwd, hfd, heq⟩
      have heq' : s ++ r = (w ++ '.' :: f) ++ r' := by rw [heq]; simp
      have hlen := he _ _ r' heq' (.float w f hw hf hwd hfd)
      have hpre : w ++ '.' :: f <+: s :=
        List.prefix_of_prefix_length_le ⟨r', heq'.symm⟩ (List.prefix_append s r) hlen
      have hpoint : '.' ∈ s := hpre.subset (by simp)
      exact absurd (hd '.' hpoint) (by decide)
    obtain ⟨c, cs, rfl⟩ := List.exists_cons_of_ne_nil hne
    have hc := isDecimalDigit_of_isDigit (hd c List.mem_cons_self)
    exact (number_of_not_hasPoint hc hno).trans (integer_run hne hd hr)
  | float w f hw hf hwd hfd =>
    have hr : NoHead isDecimalDigit r := by
      intro c cs hrc
      by_contra hc
      have hc : isDecimalDigit c = true := by simpa using hc
      have hlonger := Numeral.float w (f ++ [c]) hw (by simp) hwd (fun d hm => by
        rcases List.mem_append.1 hm with hm | hm
        · exact hfd d hm
        · rwa [List.mem_singleton.1 hm])
      have hlen := he _ _ cs (by simp [hrc]) hlonger
      simp only [List.length_append, List.length_cons, List.length_nil] at hlen
      omega
    rw [List.append_assoc, List.cons_append]
    exact number_float hf hwd hfd hr

end Numbers

/-! ## Tokens of fixed spelling -/

/-- Whether only an operand can follow the token. -/
def needsOperand : Token → Bool
  | .op _ => true
  | .bang => true
  | _ => false

/-- Whether the token can begin an operand. -/
def startsOperand : Token → Bool
  | .op o => o == .sub
  | .bang => true
  | .sign _ => true
  | .int _ => true
  | .float _ _ => true
  | .truth _ => true
  | .word _ => true
  | .length => true
  | .lparen => true
  | _ => false

/-- The characters that prolong an operator. -/
def prolongs (c : Char) : Bool := c == '=' || c == '>'

/-- What is left of a text behind a prefix. -/
theorem rest?_eq_some {p cs r : List Char} : rest? p cs = some r ↔ cs = p ++ r := by
  induction p generalizing cs with
  | nil => simp [rest?]
  | cons a p ih =>
    cases cs with
    | nil => simp [rest?]
    | cons c cs =>
      by_cases hac : a = c
      · simp [rest?, hac, ih]
      · simp [rest?, hac, Ne.symm hac]

/-- The fixed tokens are spelled as they are listed. -/
theorem fixed_symbol : ∀ p ∈ fixed, p.2.symbol? = some (String.ofList p.1) := by decide

/-- No fixed token is a truth value. -/
theorem fixed_ne_truth : ∀ p ∈ fixed, ∀ b, p.2 ≠ .truth b := by decide

/-- A fixed token is found only where it stands, and only if nothing prolongs it. -/
theorem fixed?_sound {cs r : List Char} {t : Token} (h : fixed? cs = some (t, r)) :
    ∃ s : String, cs = s.toList ++ r ∧ t.symbol? = some s ∧ Ends t s.toList r := by
  obtain ⟨⟨s, u⟩, hm, hs⟩ := List.exists_of_findSome?_eq_some h
  obtain ⟨r', hr, he⟩ := Option.map_eq_some_iff.1 hs
  obtain ⟨rfl, rfl⟩ := Prod.mk.inj he
  obtain rfl := rest?_eq_some.1 hr
  have hsym := fixed_symbol _ hm
  refine ⟨String.ofList s, by rw [String.toList_ofList], hsym, ?_⟩
  cases u with
  | op o =>
    cases o with
    | lt =>
      obtain rfl : s = ['<'] := by
        rw [← String.toList_ofList (l := s), ← Option.some.inj hsym]; rfl
      rintro q rfl
      simp [fixed?, fixed, rest?] at h
    | le =>
      obtain rfl : s = ['<', '='] := by
        rw [← String.toList_ofList (l := s), ← Option.some.inj hsym]; rfl
      rintro q rfl
      simp [fixed?, fixed, rest?] at h
    | _ => exact trivial
  | truth b => exact absurd rfl (fixed_ne_truth _ hm b)
  | int ds => cases hsym
  | float w f => cases hsym
  | word n => cases hsym
  | _ => exact trivial

/-- Before a rest that does not prolong it, a token of fixed spelling is the one that is taken. -/
theorem fixed?_complete {t : Token} {s : String} {r : List Char} (hs : t.symbol? = some s)
    (ht : ∀ b, t ≠ .truth b) (hr : t.needsOperand = true → NoHead prolongs r) :
    fixed? (s.toList ++ r) = some (t, r) := by
  have hhead : t.needsOperand = true → ∀ c cs, r = c :: cs → '=' ≠ c ∧ '>' ≠ c := by
    intro hn c cs hrc
    have hc := hr hn c cs hrc
    simp only [prolongs, Bool.or_eq_false_iff, beq_eq_false_iff_ne] at hc
    exact ⟨hc.1.symm, hc.2.symm⟩
  cases t with
  | int ds => cases hs
  | float w f => cases hs
  | word n => cases hs
  | invalid c => cases hs
  | truth b => exact absurd rfl (ht b)
  | op o =>
    cases r with
    | nil =>
      cases o <;> simp only [symbol?, BinOp.symbol?] at hs <;> first
        | (obtain rfl := Option.some.inj hs; rfl)
        | cases hs
    | cons c cs =>
      obtain ⟨heq, hgt⟩ := hhead rfl c cs rfl
      cases o <;> simp only [symbol?, BinOp.symbol?] at hs <;> first
        | (obtain rfl := Option.some.inj hs; simp [fixed?, fixed, rest?, heq, hgt])
        | cases hs
  | bang =>
    obtain rfl := Option.some.inj hs
    cases r with
    | nil => rfl
    | cons c cs =>
      obtain ⟨heq, hgt⟩ := hhead rfl c cs rfl
      simp [fixed?, fixed, rest?, heq]
  | sign kind =>
    obtain rfl := Option.some.inj hs
    cases kind <;> simp [fixed?, fixed, rest?, Quantifier.keyword]
  | _ => obtain rfl := Option.some.inj hs; simp [fixed?, fixed, rest?]

/-! ## The scanner -/

section Scanner

variable {g free : Bool} {c : Char} {cs r s : List Char} {t : Token} {ts : List Token}

/-- A character that is no letter begins no name. -/
theorem isNameStart_false {c : Char} (h : ¬ (65 ≤ c.toNat ∧ c.toNat ≤ 90))
    (h' : ¬ (97 ≤ c.toNat ∧ c.toNat ≤ 122)) : isNameStart c = false := by
  rw [Bool.eq_false_iff]
  exact fun hc => (isAlpha_iff.1 hc).elim h h'

/-- No digit begins a name. -/
theorem isNameStart_of_isDecimalDigit (h : isDecimalDigit c = true) : isNameStart c = false := by
  rcases toNat_of_isDecimalDigit h with hd | hge
  · obtain ⟨h₁, h₂⟩ := isDigit_iff.1 hd
    exact isNameStart_false (by omega) (by omega)
  · exact isNameStart_false (by omega) (by omega)

/-- No blank begins a name. -/
theorem isBlank_of_isNameStart (h : isNameStart c = true) : isBlank c = false := by
  rw [Bool.eq_false_iff]
  intro hb
  rcases isBlank_iff.1 hb with rfl | rfl | rfl | rfl <;> revert h <;> decide

/-- No blank is a digit. -/
theorem isBlank_of_isDecimalDigit (h : isDecimalDigit c = true) : isBlank c = false := by
  rw [Bool.eq_false_iff]
  intro hb
  rcases isBlank_iff.1 hb with rfl | rfl | rfl | rfl <;> revert h <;> decide

/-- The characters that prolong an operator. -/
theorem prolongs_iff : prolongs c = true ↔ c = '=' ∨ c = '>' := by simp [prolongs]

/-- No character that begins a name prolongs an operator. -/
theorem prolongs_of_isNameStart (h : isNameStart c = true) : prolongs c = false := by
  rw [Bool.eq_false_iff]
  intro hb
  rcases prolongs_iff.1 hb with rfl | rfl <;> revert h <;> decide

/-- No digit prolongs an operator. -/
theorem prolongs_of_isDecimalDigit (h : isDecimalDigit c = true) : prolongs c = false := by
  rw [Bool.eq_false_iff]
  intro hb
  rcases prolongs_iff.1 hb with rfl | rfl <;> revert h <;> decide

/-- The first token that the scanner takes is spelled by what it took. -/
theorem front_sound (h : front g c cs = (t, r)) (ht : ∀ d, t ≠ .invalid d) :
    ∃ s, c :: cs = s ++ r ∧ Spelled g t s ∧ Ends t s r := by
  unfold front at h
  split at h
  · next hc =>
    obtain ⟨rfl, rfl⟩ := Prod.mk.inj h
    have hrun : ∀ d ∈ cs.takeWhile isNamePart, isNamePart d = true :=
      fun d => List.mem_takeWhile_imp
    refine ⟨c :: cs.takeWhile isNamePart, ?_, ?_⟩
    · rw [List.cons_append, List.takeWhile_append_dropWhile]
    · have hend : NoHead isNamePart (cs.dropWhile isNamePart) := noHead_dropWhile
      unfold ofName
      split
      · next hg => exact ⟨.word c _ hc hrun fun hg' => absurd hg (by simp [hg']), hend⟩
      · split
        · next htrue => rw [htrue]; exact ⟨.symbol (s := "true") rfl, hend⟩
        · next hne =>
          split
          · next hfalse => rw [hfalse]; exact ⟨.symbol (s := "false") rfl, hend⟩
          · next hne' =>
            refine ⟨.word c _ hc hrun fun _ hk => ?_, hend⟩
            rcases hk with hk | hk
            · exact hne (by rw [← String.toList_ofList (l := c :: _), hk]; rfl)
            · exact hne' (by rw [← String.toList_ofList (l := c :: _), hk]; rfl)
  · split at h
    · next hc =>
      obtain ⟨s, hs, hn, he⟩ := number_sound hc h ht
      exact ⟨s, hs, .numeral hn, he⟩
    · cases hf : fixed? (c :: cs) with
      | none =>
        rw [hf] at h
        exact absurd (Prod.mk.inj h).1.symm (ht c)
      | some p =>
        rw [hf] at h
        obtain rfl : p = (t, r) := h
        obtain ⟨s, hs, hsym, he⟩ := fixed?_sound hf
        exact ⟨s.toList, hs, .symbol hsym, he⟩

/-- The first character of a fixed token is no blank, no digit, and begins no name. -/
theorem fixed_head : ∀ p ∈ fixed, p.1.head?.any (fun c =>
    !isBlank c && !isNameStart c && !isDecimalDigit c) = true := by decide +kernel

/-- A spelled token that what follows does not prolong is the first that the scanner takes. -/
theorem front_complete (hs : Spelled g t s) (he : Ends t s r)
    (hr : t.needsOperand = true → NoHead prolongs r) (ht : g = true → ∀ b, t ≠ .truth b) :
    ∃ c cs, s = c :: cs ∧ isBlank c = false ∧ front g c (cs ++ r) = (t, r) := by
  cases hs with
  | @symbol t s h =>
    by_cases hb : ∃ b, t = .truth b
    · obtain ⟨b, rfl⟩ := hb
      have hg : g = false := by
        cases g with
        | false => rfl
        | true => exact absurd rfl (ht rfl b)
      obtain rfl := Option.some.inj h
      subst hg
      have hend : NoHead isNamePart r := he
      cases b with
      | true =>
        refine ⟨'t', ['r', 'u', 'e'], rfl, rfl, ?_⟩
        have hrun : ∀ d ∈ ['r', 'u', 'e'], isNamePart d = true := List.all_eq_true.1 rfl
        rw [front, if_pos (by decide), takeWhile_run hrun hend, dropWhile_run hrun hend]
        rfl
      | false =>
        refine ⟨'f', ['a', 'l', 's', 'e'], rfl, rfl, ?_⟩
        have hrun : ∀ d ∈ ['a', 'l', 's', 'e'], isNamePart d = true := List.all_eq_true.1 rfl
        rw [front, if_pos (by decide), takeWhile_run hrun hend, dropWhile_run hrun hend]
        rfl
    · have hf := fixed?_complete h (fun b hb' => hb ⟨b, hb'⟩) hr
      obtain ⟨⟨s', u⟩, hm, hsome⟩ := List.exists_of_findSome?_eq_some hf
      obtain ⟨r', hr', heq⟩ := Option.map_eq_some_iff.1 hsome
      obtain ⟨rfl, rfl⟩ := Prod.mk.inj heq
      have hcut := rest?_eq_some.1 hr'
      have hhead := fixed_head _ hm
      cases s' with
      | nil => cases hhead
      | cons c cs =>
        obtain hsc : s.toList = c :: cs := List.append_cancel_right hcut
        simp only [List.head?_cons, Option.any_some, Bool.and_eq_true, Bool.not_eq_true'] at hhead
        obtain ⟨⟨h₁, h₂⟩, h₃⟩ := hhead
        refine ⟨c, cs, hsc, h₁, ?_⟩
        rw [hsc, List.cons_append] at hf
        rw [front, if_neg (by simp [h₂]), if_neg (by simp [h₃]), hf]
        rfl
  | numeral h =>
    have hnum := number_complete h he
    obtain ⟨c, cs, rfl, hc⟩ : ∃ c cs, s = c :: cs ∧ isDecimalDigit c = true := by
      cases h with
      | int ds hne hd =>
        obtain ⟨c, cs, rfl⟩ := List.exists_cons_of_ne_nil hne
        exact ⟨c, cs, rfl, isDecimalDigit_of_isDigit (hd c List.mem_cons_self)⟩
      | float w f hw hf hwd hfd =>
        obtain ⟨c, cs, rfl⟩ := List.exists_cons_of_ne_nil hw
        exact ⟨c, cs ++ '.' :: f, rfl, hwd c List.mem_cons_self⟩
    refine ⟨c, cs, rfl, isBlank_of_isDecimalDigit hc, ?_⟩
    rw [front, if_neg (by simp [isNameStart_of_isDecimalDigit hc]), if_pos hc]
    exact hnum
  | word c cs hc hcs hk =>
    refine ⟨c, cs, rfl, isBlank_of_isNameStart hc, ?_⟩
    have hend : NoHead isNamePart r := he
    rw [front, if_pos hc, takeWhile_run hcs hend, dropWhile_run hcs hend, ofName]
    cases g with
    | true => rfl
    | false =>
      have hkey := hk rfl
      rw [if_neg Bool.false_ne_true, if_neg, if_neg]
      · exact fun h => hkey (.inr (by rw [h]))
      · exact fun h => hkey (.inl (by rw [h]))

/-- Where the scanner finds no stray character, the text spells its tokens. -/
theorem scanFrom_sound (h : ∀ d, .invalid d ∉ scanFrom g cs) : Scans true g cs (scanFrom g cs) := by
  induction hlen : cs.length using Nat.strongRecOn generalizing g cs with
  | ind len ih =>
    cases cs with
    | nil => rw [scanFrom]; exact .done
    | cons c cs =>
      rw [List.length_cons] at hlen
      by_cases hc : isBlank c = true
      · rw [scanFrom, if_pos hc] at h ⊢
        exact .blank hc (ih cs.length (by omega) h rfl)
      · rw [scanFrom, if_neg hc] at h ⊢
        obtain ⟨s, hs, hsp, he⟩ := front_sound (Prod.eta (front g c cs)).symm
          fun d hd => h d (hd ▸ List.mem_cons_self)
        have hlt := length_front g c cs
        have hrest := ih _ (by omega) (fun d hd => h d (List.mem_cons_of_mem _ hd)) rfl
        rw [hs]
        exact .token (by rwa [Bool.true_and]) he hrest

/-- What may stand next to each other in a formula, as far as the scanner depends on it. -/
structure Follows (a b : Token) : Prop where
  operand : a.needsOperand = true → b.startsOperand = true
  name : a.isSign = true → ∃ n, b = .word n

/-- Whether neighbouring tokens are as in a formula. -/
def Adjacent (ts : List Token) : Prop := List.IsChain Follows ts

/-- The token of an operand begins with a character that prolongs no operator. -/
theorem Spelled.noHead (h : Spelled g t s) (ht : t.startsOperand = true) :
    NoHead prolongs (s ++ r) := by
  have hcase : ∃ c cs, s = c :: cs ∧ prolongs c = false := by
    cases h with
    | symbol h =>
      cases t with
      | op o =>
        cases o with
        | sub => obtain rfl := Option.some.inj h; exact ⟨'-', [], rfl, rfl⟩
        | _ => cases ht
      | bang => obtain rfl := Option.some.inj h; exact ⟨'!', [], rfl, rfl⟩
      | lparen => obtain rfl := Option.some.inj h; exact ⟨'(', [], rfl, rfl⟩
      | length => obtain rfl := Option.some.inj h; exact ⟨'\\', _, rfl, rfl⟩
      | truth b => obtain rfl := Option.some.inj h; cases b <;> exact ⟨_, _, rfl, rfl⟩
      | sign kind => obtain rfl := Option.some.inj h; cases kind <;> exact ⟨_, _, rfl, rfl⟩
      | int ds => cases h
      | float w f => cases h
      | word n => cases h
      | _ => cases ht
    | numeral h =>
      cases h with
      | int ds hne hd =>
        obtain ⟨c, cs, rfl⟩ := List.exists_cons_of_ne_nil hne
        exact ⟨c, cs, rfl, prolongs_of_isDecimalDigit
          (isDecimalDigit_of_isDigit (hd c List.mem_cons_self))⟩
      | float w f hw hf hwd hfd =>
        obtain ⟨c, cs, rfl⟩ := List.exists_cons_of_ne_nil hw
        exact ⟨c, _, rfl, prolongs_of_isDecimalDigit (hwd c List.mem_cons_self)⟩
    | word c cs hc hcs hk => exact ⟨c, cs, rfl, prolongs_of_isNameStart hc⟩
  obtain ⟨c, cs, rfl, hc⟩ := hcase
  intro d ds hd
  obtain ⟨rfl, -⟩ := List.cons.inj hd
  exact hc

/-- Where an operand begins, the text does not prolong an operator. -/
theorem Scans.noHead (h : Scans free g cs ts)
    (hts : ∀ t us, ts = t :: us → t.startsOperand = true) : NoHead prolongs cs := by
  cases h with
  | done => intro c cs h; cases h
  | blank hc _ =>
    intro d ds hd
    obtain ⟨rfl, -⟩ := List.cons.inj hd
    rcases isBlank_iff.1 hc with rfl | rfl | rfl | rfl <;> rfl
  | token hs _ _ => exact hs.noHead (hts _ _ rfl)

/-- The scanner takes a spelled token that what follows does not prolong. -/
theorem scanFrom_token (hs : Spelled g t s) (he : Ends t s r)
    (hr : t.needsOperand = true → NoHead prolongs r) (ht : g = true → ∀ b, t ≠ .truth b) :
    scanFrom g (s ++ r) = t :: scanFrom t.isSign r := by
  obtain ⟨c, cs, rfl, hc, hfront⟩ := front_complete hs he hr ht
  rw [List.cons_append, scanFrom, if_neg (by simp [hc]), hfront]

/-- A text that spells tokens which stand as in a formula is scanned to these tokens. -/
theorem scanFrom_complete (h : Scans true g cs ts) (hadj : Adjacent ts)
    (hg : g = true → ∀ t us, ts = t :: us → ∃ n, t = .word n) : scanFrom g cs = ts := by
  induction h with
  | done => rw [scanFrom]
  | blank hc _ ih => rw [scanFrom, if_pos hc]; exact ih hadj (by simp)
  | @token g t s r ts hs he hrest ih =>
    have hnext : ∀ u us, ts = u :: us → Follows t u := by
      rintro u us rfl
      exact (List.isChain_cons_cons.1 hadj).1
    have hr : t.needsOperand = true → NoHead prolongs r :=
      fun hn => hrest.noHead fun u us hts => (hnext u us hts).operand hn
    have ht : g = true → ∀ b, t ≠ .truth b := by
      intro hgt b hb
      obtain ⟨n, hn⟩ := hg hgt t ts rfl
      rw [hn] at hb
      cases hb
    rw [Bool.true_and] at hs
    rw [scanFrom_token hs he hr ht]
    exact congrArg _ (ih hadj.of_cons fun hsign u us hts => (hnext u us hts).name hsign)

/-- Without keywords for names there are fewer texts, namely those whose names are none. -/
theorem scans_iff_of_names : Scans false g cs ts ↔
    Scans true g cs ts ∧ ∀ n, .word n ∈ ts → ¬ IsKeyword n := by
  constructor
  · intro h
    induction h with
    | done => exact ⟨.done, by simp⟩
    | blank hc _ ih => exact ⟨.blank hc ih.1, ih.2⟩
    | @token g t s r ts hs he _ ih =>
      refine ⟨.token ?_ he ih.1, ?_⟩
      · cases hs with
        | symbol h => exact .symbol h
        | numeral h => exact .numeral h
        | word c cs hc hcs hk => exact .word c cs hc hcs fun _ => hk rfl
      · intro n hn
        rcases List.mem_cons.1 hn with rfl | hn
        · cases hs with
          | symbol h => cases h
          | numeral h => cases h
          | word c cs hc hcs hk => exact hk rfl
        · exact ih.2 n hn
  · rintro ⟨h, hkey⟩
    induction h with
    | done => exact .done
    | blank hc _ ih => exact .blank hc (ih hkey)
    | @token g t s r ts hs he _ ih =>
      refine .token ?_ he (ih fun n hn => hkey n (List.mem_cons_of_mem _ hn))
      cases hs with
      | symbol h => exact .symbol h
      | numeral h => exact .numeral h
      | word c cs hc hcs hk => exact .word c cs hc hcs fun _ => hkey _ List.mem_cons_self

end Scanner

end Token

end Discharge
