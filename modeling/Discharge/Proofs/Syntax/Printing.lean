import Discharge.Proofs.Number.Notation
import Discharge.Proofs.Syntax.Rendering
import Discharge.Expr.Printer

/-!
# The tokens of printed parts

`Printed s ts` says that the scanner finds the tokens `ts` in the text `s`, whatever part of an
expression follows it. There is one rule for each form of expressions. A name that is a keyword is
printed like any other and scanned as a truth value; a float with a power of ten is scanned as
several tokens, among them a word (`Binary64.scan_text`).
-/

namespace Discharge

open Token (commas scanFrom scan Spelled Ends NoHead isNamePart isNameStart IsKeyword ofName)

/-! ## Where a token ends -/

/-- The characters that follow a part of a printed expression. -/
def delimits (c : Char) : Bool := c == ')' || c == '[' || c == ']' || c == ',' || c == ' '

/-- Whether a text may follow a part of a printed expression. -/
def Delimited (r : List Char) : Prop := ∀ c cs, r = c :: cs → delimits c = true

/-- The end of a text delimits what stands before it. -/
theorem delimited_nil : Delimited [] := fun _ _ h => nomatch h

/-- A delimiting character delimits what stands before it. -/
theorem delimited_cons {c : Char} {cs : List Char} (h : delimits c = true) :
    Delimited (c :: cs) := by
  intro d ds hd
  obtain ⟨rfl, -⟩ := List.cons.inj hd
  exact h

/-- The characters that may follow a part of a printed text. -/
theorem delimits_iff {c : Char} :
    delimits c = true ↔ c = ')' ∨ c = '[' ∨ c = ']' ∨ c = ',' ∨ c = ' ' := by
  simp [delimits, or_assoc]

/-- Whether the characters that delimit are outside a class. -/
theorem Delimited.noHead {p : Char → Bool} {r : List Char} (h : Delimited r)
    (hp : p ')' = false ∧ p '[' = false ∧ p ']' = false ∧ p ',' = false ∧ p ' ' = false) :
    NoHead p r := by
  intro c cs hr
  obtain ⟨h₁, h₂, h₃, h₄, h₅⟩ := hp
  rcases delimits_iff.1 (h c cs hr) with rfl | rfl | rfl | rfl | rfl <;> assumption

namespace Token

variable {g : Bool} {t : Token} {s : String} {r : List Char}

/-- Digits and the point, before which a numeral may go on. -/
def isNumeric (c : Char) : Bool := isDecimalDigit c || c == '.'

/-- A run of digits has no point, unless what follows it continues the number. -/
theorem not_hasPoint {ds : List Char} (hd : ∀ c ∈ ds, isDecimalDigit c = true)
    (hr : NoHead isNumeric r) : ¬ HasPoint (ds ++ r) := by
  rintro ⟨w, f, r', hw, hf, hwd, hfd, heq⟩
  have hdig : NoHead isDecimalDigit r := fun c cs hc => (Bool.or_eq_false_iff.1 (hr c cs hc)).1
  have hdrop := dropWhile_run hd hdig
  rw [heq, dropWhile_run hwd noHead_point] at hdrop
  have := hr _ _ hdrop.symm
  cases this

/-- A written number is a token of its own if nothing that follows continues it. -/
theorem Numeral.ends {m : List Char} (h : Numeral t m) (hr : NoHead isNumeric r) : Ends t m r := by
  have hdig : NoHead isDecimalDigit r := fun c cs hc => (Bool.or_eq_false_iff.1 (hr c cs hc)).1
  cases h with
  | int ds hne hd =>
    have hascii : NoHead Char.isDigit r := by
      intro c cs hc
      rw [Bool.eq_false_iff]
      intro h
      exact absurd (isDecimalDigit_of_isDigit h) (by simp [hdig c cs hc])
    have hno := not_hasPoint (fun c hc => isDecimalDigit_of_isDigit (hd c hc)) hr
    exact fun u s' r' hs hu => length_le_int hd hascii hno hs hu
  | float w f hw hf hwd hfd => exact fun u s' r' hs hu => length_le_float hwd hfd hdig hs hu

/-- A written number is an operand. -/
theorem Numeral.startsOperand {m : List Char} (h : Numeral t m) : t.startsOperand = true := by
  cases h <;> rfl

/-- A written number is scanned as its token. -/
theorem scanFrom_numeral {m : List Char} (h : Numeral t m) (hr : NoHead isNumeric r) :
    scanFrom false (m ++ r) = t :: scanFrom false r := by
  have hsign : t.isSign = false := by cases h <;> rfl
  have hop : t.needsOperand = false := by cases h <;> rfl
  rw [scanFrom_token (.numeral h) (h.ends hr) (by simp [hop]) (by simp), hsign]

/-- A token of fixed spelling is scanned before everything that does not prolong it. -/
theorem scanFrom_symbol (h : t.symbol? = some s) (ht : ∀ b, t ≠ .truth b)
    (hr : t.needsOperand = true → NoHead prolongs r) :
    scanFrom g (s.toList ++ r) = t :: scanFrom t.isSign r := by
  refine scanFrom_token (.symbol h) ?_ hr fun _ => ht
  cases t with
  | op o =>
    cases o with
    | lt => intro r' hr'; exact absurd (hr rfl _ _ hr') (by decide)
    | le => intro r' hr'; exact absurd (hr rfl _ _ hr') (by decide)
    | _ => exact trivial
  | truth b => exact absurd rfl (ht b)
  | int ds => cases h
  | float w f => cases h
  | word n => cases h
  | _ => exact trivial

/-- A blank is passed over. -/
theorem scanFrom_blank : scanFrom g (' ' :: r) = scanFrom false r := by
  rw [scanFrom, if_pos (by decide)]

/-- A printed truth value is scanned as its token. -/
theorem scanFrom_truth (b : Bool) (hr : NoHead isNamePart r) :
    scanFrom false ((if b then "true" else "false").toList ++ r) =
      .truth b :: scanFrom false r := by
  rw [scanFrom_token (t := .truth b) (.symbol (by cases b <;> rfl)) hr
    (fun h => absurd h Bool.false_ne_true) (by simp)]
  rfl

/-- Names: a letter followed by letters, digits and underscores, keywords among them. -/
def IsName (n : String) : Prop :=
  ∃ c cs, n = String.ofList (c :: cs) ∧ isNameStart c = true ∧ ∀ d ∈ cs, isNamePart d = true

/-- A name that stands anywhere but behind a quantifier is no quantifier sign. -/
theorem isSign_ofName (n : List Char) : (ofName false n).isSign = false := by
  unfold ofName
  split
  · rfl
  · split
    · rfl
    · split <;> rfl

/-- A name is scanned as the token that it spells, a keyword or a word. -/
theorem scanFrom_name {n : String} (hn : IsName n) (hr : NoHead isNamePart r) :
    scanFrom false (n.toList ++ r) = ofName false n.toList :: scanFrom false r := by
  obtain ⟨c, cs, rfl, hc, hcs⟩ := hn
  have hfront : front false c (cs ++ r) = (ofName false (c :: cs), r) := by
    rw [front, if_pos hc, takeWhile_run hcs hr, dropWhile_run hcs hr]
  rw [String.toList_ofList, List.cons_append, scanFrom,
    if_neg (by simp [isBlank_of_isNameStart hc]), hfront, isSign_ofName]

/-- A name that is no keyword is a word. -/
theorem ofName_of_not_isKeyword {n : String} (h : ¬ IsKeyword n) :
    ofName false n.toList = .word n := by
  rw [ofName, if_neg Bool.false_ne_true, if_neg, if_neg, String.ofList_toList]
  · exact fun hn => h (.inr (by rw [← String.ofList_toList (s := n), hn]))
  · exact fun hn => h (.inl (by rw [← String.ofList_toList (s := n), hn]))

end Token

/-! ## Floats -/

namespace Binary64

open Token (scanFrom_numeral scanFrom_symbol)

/-- The doubles that can be read: no `nan`, and no sign. -/
def Readable : Binary64 → Prop
  | .nan => False
  | .infinity negative => negative = false
  | .finite negative _ => negative = false

/-- A double that a decimal rounds to can be read. -/
theorem readable_ofDecimal (d : Decimal) : (ofDecimal false d).Readable := by
  have hrank (r : Nat) : (ofRank false r).Readable := by
    unfold ofRank
    split <;> rfl
  unfold ofDecimal
  split
  · exact hrank 0
  · split
    · rfl
    · split <;> exact hrank _

/-- The tokens of a readable double that is not positional: they hold one word, and no truth value.
-/
inductive WordTokens : List Token → Prop
  | infinity : WordTokens [.word "inf"]
  | scientific (u : Token) (op : BinOp) (es : List Char) (hu : ∃ m, Token.Numeral u m) :
      WordTokens [u, .word "e", .op op, .int es]

/-- The letter of a power of ten is a name. -/
theorem isName_e : Token.IsName "e" := ⟨'e', [], rfl, by decide, by simp⟩

/-- The word for infinity is a name. -/
theorem isName_inf : Token.IsName "inf" := ⟨'i', ['n', 'f'], rfl, by decide, List.all_eq_true.1 rfl⟩

/-- How the text of a double with a power of ten is scanned. -/
theorem scanFrom_scientific {text m es : List Char} {u : Token} {sign : Char}
    (h : Scientific text m u sign es) : ∃ op, ∀ r, Delimited r →
      scanFrom false (text ++ r) = [u, .word "e", .op op, .int es] ++ scanFrom false r := by
  obtain ⟨rfl, hnum, hsign, hne, hd⟩ := h
  obtain ⟨op, s, hsym, hs, hname⟩ : ∃ op s, (Token.op op).symbol? = some s ∧ s.toList = [sign] ∧
      isNamePart sign = false := by
    rcases hsign with rfl | rfl
    · exact ⟨.add, "+", rfl, rfl, rfl⟩
    · exact ⟨.sub, "-", rfl, rfl, rfl⟩
  refine ⟨op, fun r hr => ?_⟩
  have hmark : NoHead Token.isNumeric ('e' :: sign :: es ++ r) := by
    intro c cs hc
    obtain ⟨rfl, -⟩ := List.cons.inj hc
    decide
  have hhead : NoHead isNamePart (sign :: es ++ r) := by
    intro c cs hc
    obtain ⟨rfl, -⟩ := List.cons.inj hc
    exact hname
  have hdigit : NoHead Token.prolongs (es ++ r) := by
    intro c cs hc
    cases es with
    | nil => exact absurd rfl hne
    | cons e es =>
      obtain ⟨rfl, -⟩ := List.cons.inj hc
      exact Token.prolongs_of_isDecimalDigit
        (Token.isDecimalDigit_of_isDigit (hd _ List.mem_cons_self))
  calc scanFrom false (m ++ 'e' :: sign :: es ++ r)
      = u :: scanFrom false ('e' :: sign :: es ++ r) := by
        rw [List.append_assoc, scanFrom_numeral hnum hmark]
    _ = u :: .word "e" :: scanFrom false (sign :: es ++ r) :=
        congrArg _ (Token.scanFrom_name isName_e hhead)
    _ = u :: .word "e" :: .op op :: scanFrom false (es ++ r) := by
        have hop := scanFrom_symbol (g := false) hsym (by simp) fun _ => hdigit
        rw [hs] at hop
        exact congrArg _ (congrArg _ hop)
    _ = u :: .word "e" :: .op op :: .int es :: scanFrom false r := by
        rw [scanFrom_numeral (.int es hne hd) (hr.noHead (by decide))]

/-- The text of a double is scanned on its own, whatever part of an expression follows it. -/
theorem scan_text {x : Binary64} (hx : x.Readable) :
    (∀ r, Delimited r → scanFrom false (x.text.toList ++ r) = scan x.text ++ scanFrom false r) ∧
      ((x.Positional ∧ ∃ w f, scan x.text = [.float w f] ∧
          ofDecimal false (Decimal.ofParts w f) = x) ∨
        (¬ x.Positional ∧ WordTokens (scan x.text))) := by
  have hnil : scanFrom false [] = [] := by rw [scanFrom]
  -- It is enough to know the tokens before every rest.
  have key {us : List Token}
      (h : ∀ r, Delimited r → scanFrom false (x.text.toList ++ r) = us ++ scanFrom false r) :
      scan x.text = us := by
    have := h [] delimited_nil
    rwa [List.append_nil, hnil, List.append_nil] at this
  cases x with
  | nan => exact absurd hx id
  | infinity negative =>
    obtain rfl : negative = false := hx
    have hscan : ∀ r, Delimited r → scanFrom false ((infinity false).text.toList ++ r) =
        [.word "inf"] ++ scanFrom false r :=
      fun r hr => Token.scanFrom_name isName_inf (hr.noHead (by decide))
    refine ⟨fun r hr => by rw [key hscan]; exact hscan r hr, .inr ⟨?_, ?_⟩⟩
    · rintro ⟨q, hq, -⟩
      cases hq
    · rw [key hscan]
      exact .infinity
  | finite negative rank =>
    obtain rfl : negative = false := hx
    by_cases hpos : (finite false rank).Positional
    · obtain ⟨w, f, v, hp, hread⟩ := text_of_positional hpos
      have hw : ∀ c ∈ w, isDecimalDigit c = true :=
        fun c hc => Token.isDecimalDigit_of_isDigit (hp.wholeDigits c hc)
      have hf : ∀ c ∈ f, isDecimalDigit c = true :=
        fun c hc => Token.isDecimalDigit_of_isDigit (hp.fractionDigits c hc)
      have hscan : ∀ r, Delimited r → scanFrom false ((finite false rank).text.toList ++ r) =
          [.float (w.filterMap decimalDigit?) (f.filterMap decimalDigit?)] ++ scanFrom false r := by
        intro r hr
        rw [hp.eq]
        exact scanFrom_numeral (.float w f hp.whole hp.fraction hw hf) (hr.noHead (by decide))
      exact ⟨fun r hr => by rw [key hscan]; exact hscan r hr,
        .inl ⟨hpos, _, _, key hscan, hread⟩⟩
    · obtain ⟨m, u, sign, es, hsci⟩ := text_of_not_positional hpos
      obtain ⟨op, hscan⟩ := scanFrom_scientific hsci
      refine ⟨fun r hr => by rw [key hscan]; exact hscan r hr, .inr ⟨hpos, ?_⟩⟩
      rw [key hscan]
      exact .scientific u op es ⟨m, hsci.numeral⟩

end Binary64

/-! ## Parts of a printed expression -/

namespace Token

variable {g : Bool} {r : List Char}

/-- A text does not begin with a character of a kind if its first one is not of that kind. -/
theorem noHead_cons {p : Char → Bool} {c : Char} {cs : List Char} (h : p c = false) :
    NoHead p (c :: cs) := by
  intro d ds hd
  obtain ⟨rfl, -⟩ := List.cons.inj hd
  exact h

/-- An opening parenthesis is a token, whatever follows. -/
theorem scanFrom_lparen : scanFrom g ('(' :: r) = .lparen :: scanFrom false r :=
  scanFrom_symbol (t := .lparen) (s := "(") rfl (by simp) (by simp [needsOperand])

/-- A closing parenthesis is a token, whatever follows. -/
theorem scanFrom_rparen : scanFrom g (')' :: r) = .rparen :: scanFrom false r :=
  scanFrom_symbol (t := .rparen) (s := ")") rfl (by simp) (by simp [needsOperand])

/-- An opening bracket is a token, whatever follows. -/
theorem scanFrom_lbracket : scanFrom g ('[' :: r) = .lbracket :: scanFrom false r :=
  scanFrom_symbol (t := .lbracket) (s := "[") rfl (by simp) (by simp [needsOperand])

/-- A closing bracket is a token, whatever follows. -/
theorem scanFrom_rbracket : scanFrom g (']' :: r) = .rbracket :: scanFrom false r :=
  scanFrom_symbol (t := .rbracket) (s := "]") rfl (by simp) (by simp [needsOperand])

/-- A comma is a token, whatever follows. -/
theorem scanFrom_comma : scanFrom g (',' :: r) = .comma :: scanFrom false r :=
  scanFrom_symbol (t := .comma) (s := ",") rfl (by simp) (by simp [needsOperand])

/-- A dot is a token, whatever follows. -/
theorem scanFrom_dot : scanFrom g ('.' :: r) = .dot :: scanFrom false r :=
  scanFrom_symbol (t := .dot) (s := ".") rfl (by simp) (by simp [needsOperand])

/-- The sign of an update is a token, whatever follows. -/
theorem scanFrom_assign : scanFrom g (':' :: '=' :: r) = .assign :: scanFrom false r :=
  scanFrom_symbol (t := .assign) (s := ":=") rfl (by simp) (by simp [needsOperand])

/-- A sign of negation is a token, if what follows does not make it an operator. -/
theorem scanFrom_bang (hr : NoHead prolongs r) :
    scanFrom g ('!' :: r) = .bang :: scanFrom false r :=
  scanFrom_symbol (t := .bang) (s := "!") rfl (by simp) fun _ => hr

/-- A minus sign is a token, if what follows does not make it an implication. -/
theorem scanFrom_minus (hr : NoHead prolongs r) :
    scanFrom g ('-' :: r) = .op .sub :: scanFrom false r :=
  scanFrom_symbol (t := .op .sub) (s := "-") rfl (by simp) fun _ => hr

/-- A printed quantifier sign is scanned as its token. -/
theorem scanFrom_keyword (kind : Quantifier) :
    scanFrom g (kind.keyword.toList ++ ' ' :: r) = .sign kind :: scanFrom false r := by
  rw [scanFrom_symbol (t := .sign kind) rfl (by simp) (by simp [needsOperand]), scanFrom_blank]

end Token

/-- The operator that the symbol of an operator is read as. -/
def BinOp.asRead : BinOp → BinOp
  | .floatDiv => .div
  | op => op

/-- A printed operator is scanned as the operator that a reader takes it for. -/
theorem Token.scanFrom_op {g : Bool} {op : BinOp} {s : String} {r : List Char}
    (h : op.symbol? = some s) :
    scanFrom g (s.toList ++ ' ' :: r) = .op op.asRead :: scanFrom false r := by
  have hsym : (Token.op op.asRead).symbol? = some s := by cases op <;> exact h
  rw [scanFrom_symbol hsym (by simp) fun _ => noHead_cons rfl]
  exact congrArg _ scanFrom_blank

/-- Texts with a comma and a blank between any two are scanned to the parts' tokens with commas. `B`
says what may follow a part. -/
theorem scanFrom_intercalate {B : List Char → Prop} (hB : ∀ r, B (',' :: r)) {ss : List String}
    {tss : List (List Token)}
    (h : List.Forall₂ (fun s ts => ∀ r, B r →
      scanFrom false (s.toList ++ r) = ts ++ scanFrom false r) ss tss) {r : List Char} (hr : B r) :
    scanFrom false ((", ".intercalate ss).toList ++ r) = commas tss ++ scanFrom false r := by
  induction h with
  | nil => rw [String.intercalate_nil]; rfl
  | @cons s ts ss tss hs hss ih =>
    cases hss with
    | nil => simpa [commas] using hs r hr
    | @cons s' ts' ss tss _ _ =>
      have hcomma : commas (ts :: ts' :: tss) = ts ++ .comma :: commas (ts' :: tss) := by
        simp [commas]
      rw [String.intercalate_cons_cons, hcomma]
      calc scanFrom false ((s ++ ", " ++ ", ".intercalate (s' :: ss)).toList ++ r)
          = scanFrom false
              (s.toList ++ ',' :: ' ' :: ((", ".intercalate (s' :: ss)).toList ++ r)) := by
            simp [String.toList_append]
        _ = ts ++ .comma :: (commas (ts' :: tss) ++ scanFrom false r) := by
            rw [hs _ (hB _), Token.scanFrom_comma, Token.scanFrom_blank, ih]
        _ = ts ++ .comma :: commas (ts' :: tss) ++ scanFrom false r := by simp

/-- `Printed s ts`: the text `s` of an expression is scanned to `ts` before every part of an
expression that may follow it, and it prolongs no operator before it. -/
structure Printed (s : String) (ts : List Token) : Prop where
  noHead : ∀ r, NoHead Token.prolongs (s.toList ++ r)
  scan : ∀ r, Delimited r → scanFrom false (s.toList ++ r) = ts ++ scanFrom false r

namespace Printed

variable {a b c : String} {l m n : List Token}

/-- A name is printed as the token that it spells. -/
theorem of_name (h : Token.IsName a) : Printed a [ofName false a.toList] := by
  obtain ⟨c, cs, rfl, hc, hcs⟩ := h
  refine ⟨fun r => ?_,
    fun r hr => Token.scanFrom_name ⟨c, cs, rfl, hc, hcs⟩ (hr.noHead (by decide))⟩
  rw [String.toList_ofList]
  exact Token.noHead_cons (Token.prolongs_of_isNameStart hc)

/-- A truth value is printed as its token. -/
theorem of_truth (b : Bool) : Printed (if b then "true" else "false") [.truth b] := by
  refine ⟨fun r => ?_, fun r hr => Token.scanFrom_truth b (hr.noHead (by decide))⟩
  cases b with
  | true => exact Token.noHead_cons (c := 't') rfl
  | false => exact Token.noHead_cons (c := 'f') rfl

/-- A written number is printed as its token. -/
theorem of_numeral {u : Token} (h : Token.Numeral u a.toList) : Printed a [u] :=
  ⟨fun _ => (Spelled.numeral (g := false) h).noHead h.startsOperand,
    fun _ hr => Token.scanFrom_numeral h (hr.noHead (by decide))⟩

/-- An integer that is not negative is printed as its digits. -/
theorem of_int {k : Int} (h : 0 ≤ k) : Printed (toString k) [.int (Nat.toDigits 10 k.toNat)] := by
  refine of_numeral ?_
  rw [Int.toString_eq_repr, Int.repr_eq_if, if_pos h, Nat.toList_repr]
  exact .int _ Nat.toDigits_ne_nil Decimal.isDigit_of_mem_toDigits

/-- A double that can be read is printed as its tokens. -/
theorem of_float {x : Binary64} (h : x.Readable) : Printed x.text (Token.scan x.text) := by
  refine ⟨fun r => ?_, (Binary64.scan_text h).1⟩
  have hnumeral {u : Token} {m : List Char} (hu : Token.Numeral u m) (r : List Char) :
      NoHead Token.prolongs (m ++ r) :=
    (Spelled.numeral (g := false) hu).noHead hu.startsOperand
  cases x with
  | nan => exact absurd h id
  | infinity negative =>
    obtain rfl : negative = false := h
    exact Token.noHead_cons (c := 'i') rfl
  | finite negative rank =>
    obtain rfl : negative = false := h
    by_cases hpos : (Binary64.finite false rank).Positional
    · obtain ⟨w, f, v, hp, -⟩ := Binary64.text_of_positional hpos
      rw [hp.eq]
      exact hnumeral (.float w f hp.whole hp.fraction
        (fun c hc => Token.isDecimalDigit_of_isDigit (hp.wholeDigits c hc))
        fun c hc => Token.isDecimalDigit_of_isDigit (hp.fractionDigits c hc)) r
    · obtain ⟨m, u, sign, es, hsci⟩ := Binary64.text_of_not_positional hpos
      rw [hsci.eq, List.append_assoc]
      exact hnumeral hsci.numeral _

/-- A printed negation, by its operand. -/
theorem not (h : Printed a l) :
    Printed ("(!" ++ a ++ ")") (.lparen :: .bang :: (l ++ [.rparen])) := by
  have htext (r : List Char) :
      ("(!" ++ a ++ ")").toList ++ r = '(' :: '!' :: (a.toList ++ ')' :: r) := by
    simp [String.toList_append]
  refine ⟨fun r => by rw [htext]; exact Token.noHead_cons rfl, fun r _ => ?_⟩
  rw [htext, Token.scanFrom_lparen, Token.scanFrom_bang (h.noHead _),
    h.scan _ (delimited_cons rfl), Token.scanFrom_rparen]
  simp

/-- A printed negative, by its operand. -/
theorem neg (h : Printed a l) :
    Printed ("(-" ++ a ++ ")") (.lparen :: .op .sub :: (l ++ [.rparen])) := by
  have htext (r : List Char) :
      ("(-" ++ a ++ ")").toList ++ r = '(' :: '-' :: (a.toList ++ ')' :: r) := by
    simp [String.toList_append]
  refine ⟨fun r => by rw [htext]; exact Token.noHead_cons rfl, fun r _ => ?_⟩
  rw [htext, Token.scanFrom_lparen, Token.scanFrom_minus (h.noHead _),
    h.scan _ (delimited_cons rfl), Token.scanFrom_rparen]
  simp

/-- A printed length, by the array. -/
theorem len (h : Printed a l) :
    Printed ("\\length(" ++ a ++ ")") (.length :: .lparen :: (l ++ [.rparen])) := by
  have htext (r : List Char) :
      ("\\length(" ++ a ++ ")").toList ++ r =
        "\\length".toList ++ '(' :: (a.toList ++ ')' :: r) := by
    simp [String.toList_append]
  refine ⟨fun r => by rw [htext]; exact Token.noHead_cons (c := '\\') rfl, fun r _ => ?_⟩
  have hlength (r : List Char) :
      scanFrom false ("\\length".toList ++ r) = .length :: scanFrom false r :=
    Token.scanFrom_symbol (t := .length) rfl (by simp) (by simp [Token.needsOperand])
  rw [htext, hlength, Token.scanFrom_lparen, h.scan _ (delimited_cons rfl), Token.scanFrom_rparen]
  simp

/-- A printed subscript, by the array and the index. -/
theorem sub (ha : Printed a l) (hb : Printed b m) :
    Printed (a ++ "[" ++ b ++ "]") (l ++ .lbracket :: (m ++ [.rbracket])) := by
  have htext (r : List Char) :
      (a ++ "[" ++ b ++ "]").toList ++ r = a.toList ++ '[' :: (b.toList ++ ']' :: r) := by
    simp [String.toList_append]
  refine ⟨fun r => by rw [htext]; exact ha.noHead _, fun r _ => ?_⟩
  rw [htext, ha.scan _ (delimited_cons rfl), Token.scanFrom_lbracket,
    hb.scan _ (delimited_cons rfl), Token.scanFrom_rbracket]
  simp

/-- A printed update, by the array, the index and the value. -/
theorem upd (ha : Printed a l) (hb : Printed b m) (hc : Printed c n) :
    Printed (a ++ "[" ++ b ++ " := " ++ c ++ "]")
      (l ++ .lbracket :: (m ++ .assign :: (n ++ [.rbracket]))) := by
  have htext (r : List Char) : (a ++ "[" ++ b ++ " := " ++ c ++ "]").toList ++ r =
      a.toList ++ '[' :: (b.toList ++ ' ' :: ':' :: '=' :: ' ' :: (c.toList ++ ']' :: r)) := by
    simp [String.toList_append]
  refine ⟨fun r => by rw [htext]; exact ha.noHead _, fun r _ => ?_⟩
  rw [htext, ha.scan _ (delimited_cons rfl), Token.scanFrom_lbracket,
    hb.scan _ (delimited_cons rfl), Token.scanFrom_blank, Token.scanFrom_assign,
    Token.scanFrom_blank, hc.scan _ (delimited_cons rfl), Token.scanFrom_rbracket]
  simp

/-- A printed binary expression, by its operands. -/
theorem bin {op : BinOp} (ha : Printed a l) (hb : Printed b m) (hop : op.symbol? = some c) :
    Printed ("(" ++ a ++ " " ++ c ++ " " ++ b ++ ")")
      (.lparen :: (l ++ .op op.asRead :: (m ++ [.rparen]))) := by
  have htext (r : List Char) : ("(" ++ a ++ " " ++ c ++ " " ++ b ++ ")").toList ++ r =
      '(' :: (a.toList ++ ' ' :: (c.toList ++ ' ' :: (b.toList ++ ')' :: r))) := by
    simp [String.toList_append]
  refine ⟨fun r => by rw [htext]; exact Token.noHead_cons rfl, fun r _ => ?_⟩
  rw [htext, Token.scanFrom_lparen, ha.scan _ (delimited_cons rfl), Token.scanFrom_blank,
    Token.scanFrom_op hop, hb.scan _ (delimited_cons rfl), Token.scanFrom_rparen]
  simp

/-- A printed quantifier, by its names and its body. -/
theorem quantified {kind : Quantifier} {names : List String} (hn : ∀ x ∈ names, Token.IsName x)
    (hb : Printed b m) :
    Printed ("(" ++ kind.keyword ++ " " ++ ", ".intercalate names ++ ". " ++ b ++ ")")
      (.lparen :: .sign kind :: (commas (names.map fun x => [ofName false x.toList]) ++
        .dot :: (m ++ [.rparen]))) := by
  have htext (r : List Char) :
      ("(" ++ kind.keyword ++ " " ++ ", ".intercalate names ++ ". " ++ b ++ ")").toList ++ r =
      '(' :: (kind.keyword.toList ++ ' ' :: ((", ".intercalate names).toList ++
        '.' :: ' ' :: (b.toList ++ ')' :: r))) := by
    simp [String.toList_append]
  have hnames : List.Forall₂ (fun s ts => ∀ r, NoHead isNamePart r →
      scanFrom false (s.toList ++ r) = ts ++ scanFrom false r) names
      (names.map fun x => [ofName false x.toList]) := by
    rw [List.forall₂_map_right_iff, List.forall₂_same]
    exact fun x hx r hr => Token.scanFrom_name (hn x hx) hr
  refine ⟨fun r => by rw [htext]; exact Token.noHead_cons rfl, fun r _ => ?_⟩
  rw [htext, Token.scanFrom_lparen, Token.scanFrom_keyword,
    scanFrom_intercalate (fun _ => Token.noHead_cons rfl) hnames (Token.noHead_cons rfl),
    Token.scanFrom_dot, Token.scanFrom_blank, hb.scan _ (delimited_cons rfl), Token.scanFrom_rparen]
  simp

/-- A printed call, by its name and its arguments. -/
theorem call {as : List String} {ts : List (List Token)} (hn : Token.IsName a)
    (has : List.Forall₂ Printed as ts) : Printed (a ++ "(" ++ ", ".intercalate as ++ ")")
      (ofName false a.toList :: .lparen :: (commas ts ++ [.rparen])) := by
  have htext (r : List Char) : (a ++ "(" ++ ", ".intercalate as ++ ")").toList ++ r =
      a.toList ++ '(' :: ((", ".intercalate as).toList ++ ')' :: r) := by
    simp [String.toList_append]
  refine ⟨fun r => by rw [htext]; exact (of_name hn).noHead _, fun r _ => ?_⟩
  rw [htext, Token.scanFrom_name hn (Token.noHead_cons rfl), Token.scanFrom_lparen,
    scanFrom_intercalate (fun _ => delimited_cons rfl) (has.imp fun _ _ h => h.scan)
      (delimited_cons rfl), Token.scanFrom_rparen]
  simp

end Printed

end Discharge
