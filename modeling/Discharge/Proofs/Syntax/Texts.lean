import Discharge.Proofs.Syntax.Scoping

/-!
# Texts of trees

`Writes st s t` says that the text `s` is read as the tree `t` wherever an expression of the stratum
`st` may stand. There is one rule for each form of trees; the results of most stand in brackets and
are atoms, so that they may stand anywhere. By `Writes.ofText?_eq` reading the whole text answers with
the tree.

A double has a text only if it has no sign. By `Writes.exists_float` every such double has one, be it
out of the range of positional notation or infinite.
-/

namespace Discharge

open Token (commas scanFrom IsKeyword IsName NoHead Short Fits isNamePart ofName)

/-! ## Derivations -/

/-- A number below a power of ten has at most as many digits as its exponent says. -/
theorem length_toDigits_le_of_lt {n k : Nat} (hk : 0 < k) (h : n < Nat.pow 10 k) :
    (Nat.toDigits 10 n).length ≤ k :=
  (Nat.length_toDigits_le_iff (by decide) hk).2 h

/-- An application of an operator to operands. -/
theorem Derives.of_operands {op : BinOp} {k : Nat} {l m : List Token} {t u : Tree}
    (hop : op ∈ operatorsAt k) (hl : Derives (.level 0) false l t)
    (hm : Derives (.level 0) false m u) :
    Derives (.level loosest) false (l ++ .op op :: m) (.bin op t u) := by
  have hlevel := mem_operatorsAt.1 hop
  refine Derives.loosen ?_ (BinOp.level?_le hlevel)
  by_cases hk : k = implicationLevel
  · subst hk
    obtain rfl := BinOp.eq_implies hlevel
    exact .right (hl.loosen (Nat.zero_le _)) (hm.loosen (Nat.zero_le _))
  · exact .left hop hk (hl.loosen (Nat.zero_le _)) (hm.loosen (Nat.zero_le _))

/-- An operator that has a symbol is read at some level. -/
theorem BinOp.exists_mem_operatorsAt {op : BinOp} {s : String} (h : op.symbol? = some s) :
    ∃ k, op.asRead ∈ operatorsAt k := by
  cases op with
  | unknown => cases h
  | _ => exact ⟨_, mem_operatorsAt.2 rfl⟩

/-- A quantifier in parentheses is an atom. -/
theorem Derives.bracketed_quantified (kind : Quantifier) {ns : List String} {l : List Token}
    {t : Tree} (hne : ns ≠ []) (h : Derives (.level loosest) false l t) :
    Derives .atom false (.lparen :: .sign kind ::
      (commas (ns.map fun m => [.word m]) ++ .dot :: (l ++ [.rparen]))) (.quantified kind ns t) := by
  simpa using Derives.paren ((Derives.quantified kind ns hne h).loosen (Nat.zero_le loosest))

/-- A quantifier in parentheses has no integer with too many digits if its body has none. -/
theorem Token.Short.bracketed_quantified (kind : Quantifier) (ns : List String) {l : List Token}
    (h : Short l) : Short (.lparen :: .sign kind ::
      (commas (ns.map fun m => [.word m]) ++ .dot :: (l ++ [.rparen]))) := by
  have hnames : Short (commas (ns.map fun m => [.word m])) := by
    refine Token.short_commas fun ts hts => ?_
    obtain ⟨m, -, rfl⟩ := List.mem_map.1 hts
    simp [Fits]
  simp [Fits, hnames, h]

/-! ## Names after a quantifier sign -/

namespace Token

variable {r : List Char} {n : String}

/-- Directly after a quantifier sign every name is taken as one. -/
theorem scanFrom_name_of_glued (hn : IsName n) (hr : NoHead isNamePart r) :
    scanFrom true (n.toList ++ r) = .word n :: scanFrom false r := by
  obtain ⟨c, cs, rfl, hc, hcs⟩ := hn
  rw [String.toList_ofList]
  exact scanFrom_token (.word c cs hc hcs nofun) hr nofun nofun

/-- Names with commas between them are scanned as words and commas. -/
theorem scanFrom_names {ns : List String} (hn : ∀ m ∈ ns, IsName m) (hk : ∀ m ∈ ns, ¬ IsKeyword m)
    (hr : NoHead isNamePart r) : scanFrom false ((", ".intercalate ns).toList ++ r) =
      commas (ns.map fun m => [.word m]) ++ scanFrom false r := by
  refine scanFrom_intercalate (fun _ => noHead_cons rfl) ?_ hr
  rw [List.forall₂_map_right_iff, List.forall₂_same]
  intro m hm r hr
  rw [scanFrom_name (hn m hm) hr, ofName_of_not_isKeyword (hk m hm)]
  rfl

/-- Directly after a quantifier sign the first of several names may be a keyword. -/
theorem scanFrom_names_of_glued {ns : List String} (hn : ∀ m ∈ n :: ns, IsName m)
    (hk : ∀ m ∈ ns, ¬ IsKeyword m) (hr : NoHead isNamePart r) :
    scanFrom true ((", ".intercalate (n :: ns)).toList ++ r) =
      commas ((n :: ns).map fun m => [.word m]) ++ scanFrom false r := by
  obtain ⟨hfirst, hns⟩ := List.forall_mem_cons.1 hn
  cases ns with
  | nil => simpa [commas] using scanFrom_name_of_glued hfirst hr
  | cons m ns =>
    have htext : (", ".intercalate (n :: m :: ns)).toList ++ r =
        n.toList ++ ',' :: ' ' :: ((", ".intercalate (m :: ns)).toList ++ r) := by
      simp [String.intercalate_cons_cons, String.toList_append]
    have hcomma : NoHead isNamePart (',' :: ' ' :: ((", ".intercalate (m :: ns)).toList ++ r)) :=
      noHead_cons rfl
    rw [htext, scanFrom_name_of_glued hfirst hcomma, scanFrom_comma, scanFrom_blank,
      scanFrom_names hns hk hr]
    simp [commas]

end Token

/-! ## Texts and trees -/

/-- `Writes st s t`: whatever part of an expression follows the text `s`, its tokens spell the tree `t`
in the stratum `st`. -/
def Writes (st : Stratum) (s : String) (t : Tree) : Prop :=
  ∃ ts, Printed s ts ∧ Derives st false ts t ∧ Short ts

namespace Writes

variable {k : Nat} {a b c n : String} {t u v : Tree}

/-- What spells a formula of one level spells a formula of each looser level. -/
theorem loosen {j : Nat} (h : Writes (.level k) a t) (hkj : k ≤ j) : Writes (.level j) a t :=
  let ⟨ts, hp, hd, hs⟩ := h
  ⟨ts, hp, hd.loosen hkj, hs⟩

/-- What spells an atom spells a formula of every level. -/
theorem of_atom (h : Writes .atom a t) : Writes (.level k) a t :=
  let ⟨ts, hp, hd, hs⟩ := h
  ⟨ts, hp, hd.of_atom, hs⟩

/-- The text as a whole is read as the tree. -/
theorem ofText?_eq (h : Writes (.level loosest) a t) : Tree.ofText? a = .ok t := by
  obtain ⟨ts, hp, hd, hs⟩ := h
  rw [Tree.ofText?, hp.scan_eq]
  exact Tree.ofTokens?_complete hd hs

/-- An identifier spells a reference. -/
theorem name (h : IsIdentifier n) : Writes .atom n (.name n) := by
  have hp := Printed.of_name h.1
  rw [Token.ofName_of_not_isKeyword h.2] at hp
  exact ⟨_, hp, .name n, by simp [Fits]⟩

/-- A truth value in its printed form spells itself. -/
theorem truth (b : Bool) : Writes .atom (if b then "true" else "false") (.truth b) :=
  ⟨_, .of_truth b, .truth b, by simp [Fits]⟩

/-- An integer that does not have too many digits spells itself. -/
theorem int {n : Nat} (h : n < Nat.pow 10 integerDigitLimit) :
    Writes .atom (toString (n : Int)) (.int n) := by
  have hd := Derives.int (Nat.toDigits 10 n)
  rw [Decimal.ofDigitValues_map, Nat.ofDigitChars_ten_toDigits] at hd
  have hfits : Fits (.int (Nat.toDigits 10 n)) := length_toDigits_le_of_lt (by decide) h
  exact ⟨_, .of_int (Int.natCast_nonneg n), hd, by simpa using hfits⟩

/-- Digits with a point spell the double that they are nearest to. -/
theorem pointed {text w f : List Char} {q : Rat} {x : Binary64}
    (h : Decimal.Pointed text q w f) (hx : Binary64.ofDecimal false
      (Decimal.ofParts (w.filterMap decimalDigit?) (f.filterMap decimalDigit?)) = x) :
    Writes .atom (String.ofList text) (.float x) := by
  subst hx
  refine ⟨_, .of_numeral ?_, .float _ _, by simp [Fits]⟩
  rw [String.toList_ofList, h.eq]
  exact .float w f h.whole h.fraction
    (fun c hc => Token.isDecimalDigit_of_isDigit (h.wholeDigits c hc))
    fun c hc => Token.isDecimalDigit_of_isDigit (h.fractionDigits c hc)

/-- The text of a positional double. -/
theorem float {r : Fin finiteRanks} (h : (Binary64.finite false r).Positional) :
    Writes .atom (Binary64.finite false r).text (.float (.finite false r)) := by
  obtain ⟨w, f, q, hp, hread⟩ := Binary64.text_of_positional h
  have hwrites := pointed hp hread
  rwa [String.ofList_toList] at hwrites

/-- Every double without a sign has a text. -/
theorem exists_float {x : Binary64} (h : x.Readable) : ∃ s, Writes .atom s (.float x) := by
  have hrank (r : Nat) : ∃ s, Writes .atom s (.float (.ofRank false r)) := by
    obtain ⟨text, w, f, q, hp, hread⟩ := Binary64.exists_pointed r
    exact ⟨_, pointed hp hread⟩
  cases x with
  | nan => exact absurd h id
  | infinity negative =>
    obtain rfl : negative = false := h
    have hinf : Binary64.ofRank false finiteRanks = .infinity false :=
      dif_neg (Nat.lt_irrefl finiteRanks)
    exact hinf ▸ hrank finiteRanks
  | finite negative r =>
    obtain rfl : negative = false := h
    exact Binary64.ofRank_val r ▸ hrank r

/-- A minus sign in front of an operand spells its negative. -/
theorem minus (h : Writes (.level 0) a t) : Writes (.level 0) ("-" ++ a) (.neg t) := by
  obtain ⟨ts, hp, hd, hs⟩ := h
  have htext (r : List Char) : ("-" ++ a).toList ++ r = '-' :: (a.toList ++ r) := by
    simp [String.toList_append]
  refine ⟨.op .sub :: ts, ⟨fun r => ?_, fun r hr => ?_⟩, .neg hd, by simp [Fits, hs]⟩
  · rw [htext]
    exact Token.noHead_cons rfl
  · rw [htext, Token.scanFrom_minus (hp.noHead r), hp.scan r hr]
    rfl

/-- A negation in parentheses spells the negation. -/
theorem not (h : Writes (.level 0) a t) : Writes .atom ("(!" ++ a ++ ")") (.not t) := by
  obtain ⟨ts, hp, hd, hs⟩ := h
  exact ⟨_, .not hp, .paren (hd.not.loosen (Nat.zero_le loosest)), by simp [Fits, hs]⟩

/-- A negative in parentheses spells the negative. -/
theorem neg (h : Writes (.level 0) a t) : Writes .atom ("(-" ++ a ++ ")") (.neg t) := by
  obtain ⟨ts, hp, hd, hs⟩ := h
  exact ⟨_, .neg hp, .paren (hd.neg.loosen (Nat.zero_le loosest)), by simp [Fits, hs]⟩

/-- An array in the parentheses of a length spells its length. -/
theorem len (h : Writes (.level loosest) a t) :
    Writes .atom ("\\length(" ++ a ++ ")") (.len t) := by
  obtain ⟨ts, hp, hd, hs⟩ := h
  exact ⟨_, .len hp, .len hd, by simp [Fits, hs]⟩

/-- An index in brackets spells the subscript. -/
theorem sub (ha : Writes .atom a t) (hb : Writes (.level loosest) b u) :
    Writes .atom (a ++ "[" ++ b ++ "]") (.sub t u) := by
  obtain ⟨ts, hp, hd, hs⟩ := ha
  obtain ⟨us, hp', hd', hs'⟩ := hb
  exact ⟨_, .sub hp hp', .sub hd hd', by simp [Fits, hs, hs']⟩

/-- An index and a value in brackets spell the update. -/
theorem upd (ha : Writes .atom a t) (hb : Writes (.level loosest) b u)
    (hc : Writes (.level loosest) c v) :
    Writes .atom (a ++ "[" ++ b ++ " := " ++ c ++ "]") (.upd t u v) := by
  obtain ⟨ts, hp, hd, hs⟩ := ha
  obtain ⟨us, hp', hd', hs'⟩ := hb
  obtain ⟨vs, hp'', hd'', hs''⟩ := hc
  exact ⟨_, .upd hp hp' hp'', .upd hd hd' hd'', by simp [Fits, hs, hs', hs'']⟩

/-- Two operands in parentheses, with an operator between them, spell what a reader takes the
operator for. -/
theorem bin {op : BinOp} (hop : op.symbol? = some c) (ha : Writes (.level 0) a t)
    (hb : Writes (.level 0) b u) :
    Writes .atom ("(" ++ a ++ " " ++ c ++ " " ++ b ++ ")") (.bin op.asRead t u) := by
  obtain ⟨ts, hp, hd, hs⟩ := ha
  obtain ⟨us, hp', hd', hs'⟩ := hb
  obtain ⟨k, hk⟩ := BinOp.exists_mem_operatorsAt hop
  have hbin := Derives.paren (hd.of_operands hk hd')
  exact ⟨_, .bin hp hp' hop, by simpa using hbin, by simp [Fits, hs, hs']⟩

/-- A quantifier in parentheses spells itself, if it has a name and all its names are identifiers.
-/
theorem quantified {kind : Quantifier} {ns : List String} (hne : ns ≠ [])
    (hn : ∀ m ∈ ns, IsIdentifier m) (hb : Writes (.level loosest) b t) :
    Writes .atom ("(" ++ kind.keyword ++ " " ++ ", ".intercalate ns ++ ". " ++ b ++ ")")
      (.quantified kind ns t) := by
  obtain ⟨ts, hp, hd, hs⟩ := hb
  have hnames : ns.map (fun m => [ofName false m.toList]) = ns.map fun m => [.word m] :=
    List.map_congr_left fun m hm => congrArg (fun s => [s]) (Token.ofName_of_not_isKeyword (hn m hm).2)
  refine ⟨_, ?_, .bracketed_quantified kind hne hd, .bracketed_quantified kind ns hs⟩
  rw [← hnames]
  exact .quantified (fun m hm => (hn m hm).1) hp

/-- Without a blank after the sign, the first name may be a keyword. -/
theorem quantified_of_glued {kind : Quantifier} {ns : List String} (hne : ns ≠ [])
    (hn : ∀ m ∈ ns, IsName m) (hk : ∀ m ∈ ns.tail, ¬ IsKeyword m)
    (hb : Writes (.level loosest) b t) :
    Writes .atom ("(" ++ kind.keyword ++ ", ".intercalate ns ++ ". " ++ b ++ ")")
      (.quantified kind ns t) := by
  obtain ⟨ts, hp, hd, hs⟩ := hb
  have htext (r : List Char) :
      ("(" ++ kind.keyword ++ ", ".intercalate ns ++ ". " ++ b ++ ")").toList ++ r =
        '(' :: (kind.keyword.toList ++ ((", ".intercalate ns).toList ++
          '.' :: ' ' :: (b.toList ++ ')' :: r))) := by
    simp [String.toList_append]
  have hsign (r : List Char) :
      scanFrom false (kind.keyword.toList ++ r) = .sign kind :: scanFrom true r :=
    Token.scanFrom_symbol (t := .sign kind) rfl nofun nofun
  obtain ⟨n, ns, rfl⟩ := List.exists_cons_of_ne_nil hne
  refine ⟨_, ⟨fun r => ?_, fun r _ => ?_⟩, .bracketed_quantified kind hne hd,
    .bracketed_quantified kind _ hs⟩
  · rw [htext]
    exact Token.noHead_cons rfl
  · rw [htext, Token.scanFrom_lparen, hsign,
      Token.scanFrom_names_of_glued hn hk (Token.noHead_cons rfl), Token.scanFrom_dot,
      Token.scanFrom_blank, hp.scan _ (delimited_cons rfl), Token.scanFrom_rparen]
    simp

/-- The tokens of several texts, part by part. -/
theorem exists_parts {ss : List String} {us : List Tree}
    (h : List.Forall₂ (Writes (.level loosest)) ss us) :
    ∃ parts : List (Bool × List Token × Tree), parts.map (·.2.2) = us ∧
      List.Forall₂ Printed ss (parts.map (·.2.1)) ∧
      ∀ p ∈ parts, Derives (.level loosest) p.1 p.2.1 p.2.2 ∧ Short p.2.1 := by
  induction h with
  | nil => exact ⟨[], rfl, .nil, nofun⟩
  | @cons s u ss us hw _ ih =>
    obtain ⟨ts, hp, hd, hs⟩ := hw
    obtain ⟨parts, rfl, hprinted, hparts⟩ := ih
    exact ⟨(false, ts, u) :: parts, rfl, .cons hp hprinted, List.forall_mem_cons.2 ⟨⟨hd, hs⟩, hparts⟩⟩

/-- Arguments in parentheses behind an identifier spell the call. -/
theorem call {ss : List String} {us : List Tree} (hn : IsIdentifier n)
    (h : List.Forall₂ (Writes (.level loosest)) ss us) :
    Writes .atom (n ++ "(" ++ ", ".intercalate ss ++ ")") (.call n us) := by
  obtain ⟨parts, rfl, hprinted, hparts⟩ := exists_parts h
  have hp := Printed.call hn.1 hprinted
  rw [Token.ofName_of_not_isKeyword hn.2] at hp
  have hs : Short (commas (parts.map (·.2.1))) := by
    refine Token.short_commas fun ts hts => ?_
    obtain ⟨p, hp, rfl⟩ := List.mem_map.1 hts
    exact (hparts p hp).2
  exact ⟨_, hp, .call n parts fun p hp => (hparts p hp).1, by simp [Fits, hs]⟩

end Writes

end Discharge
