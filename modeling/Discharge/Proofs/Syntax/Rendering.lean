import Discharge.Proofs.Syntax.ReadComplete
import Discharge.Proofs.Syntax.Spelling

/-!
# Renderings

A text renders a tree if it spells tokens that derive it. `Tree.ofText?_eq_ok_iff_renders` says that
reading answers with a tree exactly for the renderings of that tree, so that no text renders two
trees.

One case needs care. A name that directly follows a quantifier sign is taken as one even if it is
`true` or `false`, so the renderings come in two kinds, with this freedom and without. By
`renders_strict_iff` the strict ones are those whose trees bind no keyword.
-/

namespace Discharge

open Token (commas Adjacent Follows Scans IsKeyword)

/-! ## Tokens of a formula -/

/-- The last token neither needs an operand nor a name after it. -/
def Token.Settled (s : Token) : Prop := s.needsOperand = false ∧ s.isSign = false

open Token (Settled)

/-- Tokens whose neighbours are as in a formula and that end with one that needs nothing more. -/
structure Phrase (l : List Token) : Prop where
  adjacent : Adjacent l
  settled : ∀ s ∈ l.getLast?, Settled s
  valid : ∀ d, .invalid d ∉ l

/-- Whether the first token begins an operand. -/
def Starts (l : List Token) : Prop := ∃ s us, l = s :: us ∧ s.startsOperand = true

variable {s : Token} {l m ts : List Token} {t : Tree} {text : String}

/-- Any token may follow one that is settled. -/
theorem Token.Settled.follows {a b : Token} (h : Settled a) : Follows a b :=
  ⟨fun hn => absurd hn (by simp [h.1]), fun hs => absurd hs (by simp [h.2])⟩

/-- No tokens make a phrase. -/
theorem phrase_nil : Phrase [] := ⟨.nil, by simp, by simp⟩

/-- A settled token is a phrase of its own. -/
theorem phrase_singleton (hs : Settled s) (hv : ∀ d, s ≠ .invalid d) : Phrase [s] :=
  ⟨.singleton s, by simpa using hs, fun d hd => hv d (List.mem_singleton.1 hd).symm⟩

/-- Two phrases make a phrase. -/
theorem Phrase.append (hl : Phrase l) (hm : Phrase m) : Phrase (l ++ m) := by
  refine ⟨List.isChain_append.2 ⟨hl.adjacent, hm.adjacent, ?_⟩, ?_, ?_⟩
  · exact fun a ha b _ => (hl.settled a ha).follows
  · intro a ha
    cases m with
    | nil => rw [List.append_nil] at ha; exact hl.settled a ha
    | cons b bs =>
      rw [List.getLast?_append_of_ne_nil _ (List.cons_ne_nil b bs)] at ha
      exact hm.settled a ha
  · exact fun d hd => (List.mem_append.1 hd).elim (hl.valid d) (hm.valid d)

/-- A settled token in front of a phrase makes a phrase. -/
theorem Phrase.cons (hs : Settled s) (hv : ∀ d, s ≠ .invalid d) (hl : Phrase l) : Phrase (s :: l) :=
  (phrase_singleton hs hv).append hl

/-- A token in front of a phrase makes a phrase if the first token of the phrase may follow it. -/
theorem Phrase.cons_follows {b : Token} (hf : Follows s b) (hv : ∀ d, s ≠ .invalid d)
    (hl : Phrase (b :: l)) : Phrase (s :: b :: l) := by
  refine ⟨List.isChain_cons_cons.2 ⟨hf, hl.adjacent⟩, ?_, ?_⟩
  · intro a ha
    rw [List.getLast?_cons_cons] at ha
    exact hl.settled a ha
  · intro d hd
    rcases List.mem_cons.1 hd with heq | hd
    · exact hv d heq.symm
    · exact hl.valid d hd

/-- After a token that needs an operand there has to begin one. -/
theorem Phrase.cons_operator (hs : s.isSign = false) (hv : ∀ d, s ≠ .invalid d) (hl : Phrase l)
    (hst : Starts l) : Phrase (s :: l) := by
  obtain ⟨b, bs, rfl, hb⟩ := hst
  exact hl.cons_follows ⟨fun _ => hb, fun h => absurd h (by simp [hs])⟩ hv

/-- What begins like an operand does so whatever is added at its end. -/
theorem Starts.append (h : Starts l) : Starts (l ++ m) := by
  obtain ⟨b, bs, rfl, hb⟩ := h
  exact ⟨b, bs ++ m, rfl, hb⟩

/-- Phrases with commas between them make a phrase. -/
theorem phrase_commas {xs : List (List Token)} (h : ∀ x ∈ xs, Phrase x) : Phrase (commas xs) := by
  cases xs with
  | nil => exact phrase_nil
  | cons x xs =>
    refine (h x List.mem_cons_self).append ?_
    have hxs : ∀ y ∈ xs, Phrase y := fun y hy => h y (List.mem_cons_of_mem x hy)
    clear h
    induction xs with
    | nil => exact phrase_nil
    | cons y ys ih =>
      rw [List.flatMap_cons, List.cons_append]
      exact ((hxs y List.mem_cons_self).append
        (ih fun z hz => hxs z (List.mem_cons_of_mem y hz))).cons ⟨rfl, rfl⟩ (by simp)

/-- The tokens of an expression begin an operand and stand as in a formula. -/
theorem Derives.phrase {st : Stratum} {o : Bool} (h : Derives st o l t) : Starts l ∧ Phrase l := by
  induction h with
  | float w f => exact ⟨⟨_, _, rfl, rfl⟩, phrase_singleton ⟨rfl, rfl⟩ (by simp)⟩
  | int ds => exact ⟨⟨_, _, rfl, rfl⟩, phrase_singleton ⟨rfl, rfl⟩ (by simp)⟩
  | truth b => exact ⟨⟨_, _, rfl, rfl⟩, phrase_singleton ⟨rfl, rfl⟩ (by simp)⟩
  | name n => exact ⟨⟨_, _, rfl, rfl⟩, phrase_singleton ⟨rfl, rfl⟩ (by simp)⟩
  | len _ ih =>
    have hclose := ih.2.append (phrase_singleton (s := .rparen) ⟨rfl, rfl⟩ (by simp))
    exact ⟨⟨_, _, rfl, rfl⟩, (hclose.cons ⟨rfl, rfl⟩ (by simp)).cons ⟨rfl, rfl⟩ (by simp)⟩
  | call n parts _ ih =>
    have hargs : Phrase (commas (parts.map (·.2.1))) := by
      refine phrase_commas fun x hx => ?_
      obtain ⟨p, hp, rfl⟩ := List.mem_map.1 hx
      exact (ih p hp).2
    have hclose := hargs.append (phrase_singleton (s := .rparen) ⟨rfl, rfl⟩ (by simp))
    exact ⟨⟨_, _, rfl, rfl⟩, (hclose.cons ⟨rfl, rfl⟩ (by simp)).cons ⟨rfl, rfl⟩ (by simp)⟩
  | paren _ ih =>
    have hclose := ih.2.append (phrase_singleton (s := .rparen) ⟨rfl, rfl⟩ (by simp))
    exact ⟨⟨_, _, rfl, rfl⟩, hclose.cons ⟨rfl, rfl⟩ (by simp)⟩
  | sub _ _ iha ihi =>
    have hclose := ihi.2.append (phrase_singleton (s := .rbracket) ⟨rfl, rfl⟩ (by simp))
    exact ⟨iha.1.append, iha.2.append (hclose.cons ⟨rfl, rfl⟩ (by simp))⟩
  | upd _ _ _ iha ihi ihv =>
    have hclose := ihv.2.append (phrase_singleton (s := .rbracket) ⟨rfl, rfl⟩ (by simp))
    have hupd := ihi.2.append (hclose.cons (s := .assign) ⟨rfl, rfl⟩ (by simp))
    exact ⟨iha.1.append, iha.2.append (hupd.cons ⟨rfl, rfl⟩ (by simp))⟩
  | operand _ ih => exact ih
  | not _ ih => exact ⟨⟨_, _, rfl, rfl⟩, ih.2.cons_operator rfl (by simp) ih.1⟩
  | neg _ ih => exact ⟨⟨_, _, rfl, rfl⟩, ih.2.cons_operator rfl (by simp) ih.1⟩
  | quantified kind ns hne _ ih =>
    refine ⟨⟨_, _, rfl, rfl⟩, ?_⟩
    have hnames : Phrase (commas (ns.map fun n => [.word n])) := by
      refine phrase_commas fun x hx => ?_
      obtain ⟨n, -, rfl⟩ := List.mem_map.1 hx
      exact phrase_singleton ⟨rfl, rfl⟩ (by simp)
    have hbody := hnames.append (ih.2.cons (s := .dot) ⟨rfl, rfl⟩ (by simp))
    obtain ⟨n, ns, rfl⟩ := List.exists_cons_of_ne_nil hne
    exact hbody.cons_follows ⟨fun h => (nomatch h), fun _ => ⟨n, rfl⟩⟩ (by simp)
  | tighter _ ih => exact ih
  | left _ _ _ _ ihx ihy =>
    exact ⟨ihx.1.append, ihx.2.append (ihy.2.cons_operator rfl (by simp) ihy.1)⟩
  | right _ _ ihx ihy =>
    exact ⟨ihx.1.append, ihx.2.append (ihy.2.cons_operator rfl (by simp) ihy.1)⟩

/-! ## Keywords for names -/

/-- A name that is a keyword directly follows a quantifier sign. `g` says that the first token
does. -/
def KeywordsGlued : Bool → List Token → Prop
  | _, [] => True
  | g, s :: ts => (∀ n, s = .word n → IsKeyword n → g = true) ∧ KeywordsGlued s.isSign ts

/-- A scanned text has keywords as names only where they follow a quantifier sign directly. -/
theorem Token.Scans.keywordsGlued {g : Bool} {cs : List Char} (h : Scans true g cs ts) :
    KeywordsGlued g ts := by
  induction h with
  | done => trivial
  | @blank g c cs ts hc _ ih =>
    cases ts with
    | nil => trivial
    | cons s ts => exact ⟨fun n hn hk => absurd (ih.1 n hn hk) Bool.false_ne_true, ih.2⟩
  | @token g t s r ts hs he _ ih =>
    refine ⟨?_, ih⟩
    rintro n rfl hk
    cases hs with
    | symbol h => cases h
    | numeral h => cases h
    | word c cs hc hcs hkey =>
      cases g with
      | true => rfl
      | false => exact absurd hk (hkey rfl)

/-- Both parts of a list of tokens around one token have keywords as names only behind quantifier
signs. -/
theorem KeywordsGlued.split {g : Bool} (h : KeywordsGlued g (l ++ s :: m)) :
    KeywordsGlued g l ∧ KeywordsGlued s.isSign m := by
  induction l generalizing g with
  | nil => exact ⟨trivial, h.2⟩
  | cons a l ih => exact ⟨⟨h.1, (ih h.2).1⟩, (ih h.2).2⟩

/-- Each part between commas has keywords as names only behind quantifier signs. -/
theorem KeywordsGlued.of_commas {xs : List (List Token)} (h : KeywordsGlued false (commas xs)) :
    ∀ x ∈ xs, KeywordsGlued false x := by
  cases xs with
  | nil => simp
  | cons x xs =>
    induction xs generalizing x with
    | nil => simpa [commas] using h
    | cons y ys ih =>
      have hsplit : KeywordsGlued false (x ++ .comma :: commas (y :: ys)) := by
        simpa [commas] using h
      intro z hz
      rcases List.mem_cons.1 hz with rfl | hz
      · exact hsplit.split.1
      · exact ih y hsplit.split.2 z hz

mutual

/-- The names that the quantifiers of a tree bind. -/
def Tree.binders : Tree → List String
  | .int _ => []
  | .float _ => []
  | .truth _ => []
  | .name _ => []
  | .call _ args => Tree.bindersArgs args
  | .sub array index => array.binders ++ index.binders
  | .upd array index value => array.binders ++ index.binders ++ value.binders
  | .len arg => arg.binders
  | .not arg => arg.binders
  | .neg arg => arg.binders
  | .bin _ left right => left.binders ++ right.binders
  | .quantified _ names body => names ++ body.binders

/-- `Tree.binders` over the arguments of a call. -/
def Tree.bindersArgs : List Tree → List String
  | [] => []
  | t :: ts => t.binders ++ Tree.bindersArgs ts

end

/-- The names that arguments bind are those that each of them binds. -/
theorem Tree.mem_bindersArgs {n : String} {us : List Tree} :
    n ∈ Tree.bindersArgs us ↔ ∃ t ∈ us, n ∈ t.binders := by
  induction us with
  | nil => simp [Tree.bindersArgs]
  | cons t us ih => simp [Tree.bindersArgs, ih]

/-- Every name that a quantifier binds is among the tokens. -/
theorem Derives.word_mem {st : Stratum} {o : Bool} {n : String} (h : Derives st o l t)
    (hn : n ∈ t.binders) : .word n ∈ l := by
  induction h with
  | float w f => cases hn
  | int ds => cases hn
  | truth b => cases hn
  | name n => cases hn
  | len _ ih => simp [ih hn]
  | call f parts _ ih =>
    obtain ⟨t, ht, hnt⟩ := Tree.mem_bindersArgs.1 hn
    obtain ⟨p, hp, rfl⟩ := List.mem_map.1 ht
    have hmem : Token.word n ∈ commas (parts.map (·.2.1)) :=
      Token.mem_commas (List.mem_map_of_mem hp) (ih p hp hnt)
    simp [hmem]
  | paren _ ih => simp [ih hn]
  | sub _ _ iha ihi =>
    rcases List.mem_append.1 hn with hn | hn
    · simp [iha hn]
    · simp [ihi hn]
  | upd _ _ _ iha ihi ihv =>
    rcases List.mem_append.1 hn with hn | hn
    · rcases List.mem_append.1 hn with hn | hn
      · simp [iha hn]
      · simp [ihi hn]
    · simp [ihv hn]
  | operand _ ih => exact ih hn
  | not _ ih => simp [ih hn]
  | neg _ ih => simp [ih hn]
  | quantified kind ns _ _ ih =>
    rcases List.mem_append.1 hn with hn | hn
    · have hmem : Token.word n ∈ commas (ns.map fun n => [.word n]) :=
        Token.mem_commas (List.mem_map_of_mem hn) List.mem_cons_self
      simp [hmem]
    · simp [ih hn]
  | tighter _ ih => exact ih hn
  | left _ _ _ _ ihx ihy =>
    rcases List.mem_append.1 hn with hn | hn
    · simp [ihx hn]
    · simp [ihy hn]
  | right _ _ ihx ihy =>
    rcases List.mem_append.1 hn with hn | hn
    · simp [ihx hn]
    · simp [ihy hn]

/-- No name among the tokens is a keyword. -/
def KeywordFree (l : List Token) : Prop := ∀ n, .word n ∈ l → ¬ IsKeyword n

@[simp] theorem keywordFree_nil : KeywordFree [] := nofun

@[simp] theorem keywordFree_cons :
    KeywordFree (s :: l) ↔ (∀ n, s = .word n → ¬ IsKeyword n) ∧ KeywordFree l := by
  simp only [KeywordFree, List.mem_cons, or_imp, forall_and, @eq_comm _ s]

@[simp] theorem keywordFree_append : KeywordFree (l ++ m) ↔ KeywordFree l ∧ KeywordFree m := by
  simp only [KeywordFree, List.mem_append, or_imp, forall_and]

/-- Lists without keywords as names have none with commas between them. -/
theorem keywordFree_commas {xs : List (List Token)} (h : ∀ x ∈ xs, KeywordFree x) :
    KeywordFree (commas xs) := by
  intro n hn
  rcases Token.eq_comma_or_mem hn with heq | ⟨x, hx, hn⟩
  · cases heq
  · exact h x hx n hn

/-- Where no quantifier binds a keyword, no name is one. -/
theorem Derives.keywordFree {st : Stratum} {o : Bool} (h : Derives st o l t)
    (hg : KeywordsGlued false l) (hb : ∀ n ∈ t.binders, ¬ IsKeyword n) : KeywordFree l := by
  induction h with
  | float w f => simp
  | int ds => simp
  | truth b => simp
  | name n =>
    have hn : ¬ IsKeyword n := fun hk => absurd (hg.1 n rfl hk) Bool.false_ne_true
    simpa using hn
  | len _ ih => simpa using ih hg.2.2.split.1 hb
  | call f parts _ ih =>
    have hf : ¬ IsKeyword f := fun hk => absurd (hg.1 f rfl hk) Bool.false_ne_true
    have hargs : KeywordFree (commas (parts.map (·.2.1))) := by
      refine keywordFree_commas fun x hx => ?_
      obtain ⟨p, hp, rfl⟩ := List.mem_map.1 hx
      refine ih p hp (hg.2.2.split.1.of_commas _ hx) fun n hn => hb n ?_
      exact Tree.mem_bindersArgs.2 ⟨p.2.2, List.mem_map_of_mem hp, hn⟩
    simpa using ⟨hf, hargs⟩
  | paren _ ih => simpa using ih hg.2.split.1 hb
  | sub _ _ iha ihi =>
    have ha := iha hg.split.1 fun n hn => hb n (List.mem_append_left _ hn)
    have hi := ihi hg.split.2.split.1 fun n hn => hb n (List.mem_append_right _ hn)
    simpa using ⟨ha, hi⟩
  | upd _ _ _ iha ihi ihv =>
    have ha := iha hg.split.1 fun n hn =>
      hb n (List.mem_append_left _ (List.mem_append_left _ hn))
    have hi := ihi hg.split.2.split.1 fun n hn =>
      hb n (List.mem_append_left _ (List.mem_append_right _ hn))
    have hv := ihv hg.split.2.split.2.split.1 fun n hn => hb n (List.mem_append_right _ hn)
    simpa using ⟨ha, hi, hv⟩
  | operand _ ih => exact ih hg hb
  | not _ ih => simpa using ih hg.2 hb
  | neg _ ih => simpa using ih hg.2 hb
  | quantified kind ns _ _ ih =>
    have hnames : KeywordFree (commas (ns.map fun n => [.word n])) := by
      refine keywordFree_commas fun x hx => ?_
      obtain ⟨n, hn, rfl⟩ := List.mem_map.1 hx
      simpa using hb n (List.mem_append_left _ hn)
    have hbody := ih hg.2.split.2 fun n hn => hb n (List.mem_append_right _ hn)
    simpa using ⟨hnames, hbody⟩
  | tighter _ ih => exact ih hg hb
  | left _ _ _ _ ihx ihy =>
    have hx := ihx hg.split.1 fun n hn => hb n (List.mem_append_left _ hn)
    have hy := ihy hg.split.2 fun n hn => hb n (List.mem_append_right _ hn)
    simpa using ⟨hx, hy⟩
  | right _ _ ihx ihy =>
    have hx := ihx hg.split.1 fun n hn => hb n (List.mem_append_left _ hn)
    have hy := ihy hg.split.2 fun n hn => hb n (List.mem_append_right _ hn)
    simpa using ⟨hx, hy⟩

/-! ## Renderings -/

/-- The text spells tokens that derive the tree. `free` says that a name that directly follows a
quantifier sign may be a keyword. -/
def Renders (free : Bool) (text : String) (t : Tree) : Prop :=
  ∃ ts o, Scans free false text.toList ts ∧ Derives (.level loosest) o ts t

/-- An integer among the tokens is a run of digits of the text. -/
theorem Token.Scans.int_mem {free g : Bool} {cs ds : List Char} (h : Scans free g cs ts)
    (hm : .int ds ∈ ts) : ds <:+: cs ∧ ∀ c ∈ ds, c.isDigit = true := by
  induction h with
  | done => cases hm
  | blank _ _ ih => exact ⟨(ih hm).1.trans (List.suffix_cons _ _).isInfix, (ih hm).2⟩
  | @token g t s r ts hs _ _ ih =>
    rcases List.mem_cons.1 hm with rfl | hm
    · cases hs with
      | symbol h => cases h
      | numeral h =>
        cases h with
        | int _ hne hd => exact ⟨(List.prefix_append _ r).isInfix, hd⟩
    · exact ⟨(ih hm).1.trans (List.suffix_append s r).isInfix, (ih hm).2⟩

/-- A scanned text has no integer with too many digits if it has no run of digits that is too long.
-/
theorem Token.Scans.short {free g : Bool} {cs : List Char} (h : Scans free g cs ts)
    (hcs : ∀ ds, ds <:+: cs → (∀ c ∈ ds, c.isDigit = true) → ds.length ≤ integerDigitLimit) :
    Token.Short ts := by
  intro s hs
  cases s with
  | int ds => exact hcs ds (h.int_mem hs).1 (h.int_mem hs).2
  | _ => exact trivial

/-- What is read as a tree renders it. -/
theorem Tree.renders_of_ofText? (h : ofText? text = .ok t) : Renders true text t := by
  obtain ⟨o, hd, -⟩ := ofTokens?_sound h
  exact ⟨_, o, Token.scanFrom_sound hd.phrase.2.valid, hd⟩

/-- A rendering without overlong integers is read. -/
theorem Tree.ofText?_of_renders (h : Renders true text t)
    (hcs : ∀ ds, ds <:+: text.toList → (∀ c ∈ ds, c.isDigit = true) →
      ds.length ≤ integerDigitLimit) : ofText? text = .ok t := by
  obtain ⟨ts, o, hs, hd⟩ := h
  have hscan : Token.scan text = ts :=
    Token.scanFrom_complete hs hd.phrase.2.adjacent (by simp)
  rw [ofText?, hscan]
  exact ofTokens?_complete hd (hs.short hcs)

/-- The strict renderings are those whose trees bind no keyword. -/
theorem renders_strict_iff :
    Renders false text t ↔ Renders true text t ∧ ∀ n ∈ t.binders, ¬ IsKeyword n := by
  constructor
  · rintro ⟨ts, o, hs, hd⟩
    obtain ⟨hs, hkey⟩ := Token.scans_iff_of_names.1 hs
    exact ⟨⟨ts, o, hs, hd⟩, fun n hn => hkey n (hd.word_mem hn)⟩
  · rintro ⟨⟨ts, o, hs, hd⟩, hb⟩
    exact ⟨ts, o, Token.scans_iff_of_names.2 ⟨hs, hd.keywordFree hs.keywordsGlued hb⟩, hd⟩

/-- Whether every run of digits in the text is within the limit on digits. -/
def DigitsBounded (text : String) : Prop :=
  ∀ ds, ds <:+: text.toList → (∀ c ∈ ds, c.isDigit = true) → ds.length ≤ integerDigitLimit

/-- A text that is not longer than an integer may be has no run of digits that is too long. -/
theorem digitsBounded_of_length (h : text.toList.length ≤ integerDigitLimit) : DigitsBounded text :=
  fun _ hin _ => hin.length_le.trans h

/-- A text is read as a tree exactly if it renders it, and it renders at most one. Its tree renders
it strictly unless a quantifier binds a keyword. -/
theorem Tree.ofText?_eq_ok_iff_renders (text : String) (t : Tree) (h : DigitsBounded text) :
    (ofText? text = .ok t ↔ Renders true text t) ∧
      (Renders false text t ↔ ofText? text = .ok t ∧ ∀ n ∈ t.binders, ¬ IsKeyword n) ∧
      ∀ u, Renders true text t → Renders true text u → t = u := by
  have hread (u : Tree) : ofText? text = .ok u ↔ Renders true text u :=
    ⟨renders_of_ofText?, fun hr => ofText?_of_renders hr h⟩
  refine ⟨hread t, ?_, ?_⟩
  · rw [hread]
    exact renders_strict_iff
  · intro u ht hu
    have hboth := ((hread t).2 ht).symm.trans ((hread u).2 hu)
    exact Except.ok.inj hboth

/-- All kinds of grouping at once: a chain from the left, one from the right, and an open body. -/
theorem Tree.renders_of_mixed_operators :
    DigitsBounded "a-b -1<=c => !p(x,15) => \\exists k,m. a[k:=2][m]*k > -k" ∧
    Renders false "a-b -1<=c => !p(x,15) => \\exists k,m. a[k:=2][m]*k > -k"
      (.bin .implies
        (.bin .le (.bin .sub (.bin .sub (.name "a") (.name "b")) (.int 1)) (.name "c"))
        (.bin .implies (.not (.call "p" [.name "x", .int 15]))
          (.quantified .ex ["k", "m"]
            (.bin .gt
              (.bin .mul (.sub (.upd (.name "a") (.name "k") (.int 2)) (.name "m")) (.name "k"))
              (.neg (.name "k")))))) := by
  have hb : DigitsBounded "a-b -1<=c => !p(x,15) => \\exists k,m. a[k:=2][m]*k > -k" :=
    digitsBounded_of_length (by decide)
  refine ⟨hb, (ofText?_eq_ok_iff_renders _ _ hb).2.1.2 ⟨by cbv, ?_⟩⟩
  intro n hn hk
  rcases hk with rfl | rfl <;> revert hn <;> decide

/-- A name that directly follows a quantifier sign is read as one although it is a keyword. -/
theorem Tree.not_ofText?_iff_strict_renders :
    ¬ ∀ text t, DigitsBounded text → (ofText? text = .ok t ↔ Renders false text t) := by
  intro h
  have hread : ofText? "\\foralltrue. 1 > 0" =
      .ok (.quantified .all ["true"] (.bin .gt (.int 1) (.int 0))) := by cbv
  have hstrict := (h _ _ (digitsBounded_of_length (by decide))).1 hread
  exact (renders_strict_iff.1 hstrict).2 "true" List.mem_cons_self (.inl rfl)

end Discharge
