import Discharge.Proofs.Syntax.Grammar
import Discharge.Proofs.Syntax.Reading

/-!
# What is read is derived

`level_sound`: where the reader of a level answers, the tokens that it took derive its tree.

The reader never looks back at what it has read, so an open left operand has to be excluded by what
follows it. `Stuck k r` says that no operator of a level up to `k` can be taken at `r`. A reader of
level `k` stops at such an `r`, and since the body of a quantifier is read at the loosest level,
nothing can be taken after an open expression. All readers are treated by one induction on the
number of tokens; `Reads n` is its hypothesis.
-/

namespace Discharge

open Token (commas Short)

namespace Tree

variable {k j n : Nat} {x y t : Tree} {o : Bool} {l a ts r : List Token}

/-- No operator of level `k` can be taken at the front of `ts`. -/
def StuckAt (k : Nat) (ts : List Token) : Prop :=
  ∀ op us, ts = .op op :: us → op.level? = some k → operand us = .error .malformed

/-- No operator of a level up to `k` can be taken at the front of `ts`. -/
def Stuck (k : Nat) (ts : List Token) : Prop := ∀ j ≤ k, StuckAt j ts

/-- Where no operator of a level can be taken, nor one of the tighter levels, none up to that level
can. -/
theorem Stuck.succ (h : Stuck k ts) (hs : StuckAt (k + 1) ts) : Stuck (k + 1) ts := by
  intro j hj
  rcases Nat.lt_or_eq_of_le hj with hlt | rfl
  · exact h j (Nat.le_of_lt_succ hlt)
  · exact hs

/-- Where nothing can be taken at the loosest level, nothing can be taken at all. -/
theorem Stuck.of_loosest (h : Stuck loosest ts) (k : Nat) : Stuck k ts :=
  fun j _ op us hts hop => h j (BinOp.level?_le hop) op us hts hop

/-- What reading operators can do: stop where it stands, or read one operator with its operand. -/
theorem operators_cases (h : operators k x ts = .ok (t, r)) :
    (t = x ∧ r = ts ∧ StuckAt k ts) ∨
    ∃ op us y vs, ts = .op op :: us ∧ op.level? = some k ∧ level (operandLevel k) us = .ok (y, vs) ∧
      operators k (.bin op x y) vs = .ok (t, r) := by
  by_cases hts : ∃ op us, ts = .op op :: us ∧ op.level? = some k
  · obtain ⟨op, us, rfl, hop⟩ := hts
    cases hl : level (operandLevel k) us with
    | error e =>
      cases e with
      | malformed =>
        rw [operators_malformed hop hl, Except.ok.injEq, Prod.mk.injEq] at h
        refine .inl ⟨h.1.symm, h.2.symm, ?_⟩
        rintro op' us' hcons -
        obtain ⟨-, rfl⟩ := List.cons.inj hcons
        exact level_eq_malformed_iff.1 hl
      | integerTooLong => rw [operators_tooLong hop hl] at h; cases h
    | ok z =>
      obtain ⟨y, vs⟩ := z
      rw [operators_step hop hl] at h
      exact .inr ⟨op, us, y, vs, rfl, hop, hl, h⟩
  · have hstuck : StuckAt k ts := fun op us h₁ h₂ => absurd ⟨op, us, h₁, h₂⟩ hts
    have hself : operators k x ts = .ok (x, ts) := by
      cases ts with
      | nil => exact operators_nil
      | cons s us => exact operators_cons fun op h₁ h₂ => hts ⟨op, us, by rw [h₁], h₂⟩
    rw [hself, Except.ok.injEq, Prod.mk.injEq] at h
    exact .inl ⟨h.1.symm, h.2.symm, hstuck⟩

/-- Where the reader is stuck, it reads no operator. -/
theorem operators_of_stuckAt (hs : StuckAt k ts) (h : operators k x ts = .ok (t, r)) :
    t = x ∧ r = ts := by
  rcases operators_cases h with ⟨ht, hr, -⟩ | ⟨op, us, y, vs, hts, hop, hl, -⟩
  · exact ⟨ht, hr⟩
  · have hm := level_eq_malformed_iff (k := operandLevel k).2 (hs op us hts hop)
    rw [hm] at hl
    cases hl

/-- The tokens up to `r` derive `t`, and the reader of level `k` has to stop there. -/
def Spells (k : Nat) (ts : List Token) (t : Tree) (r : List Token) : Prop :=
  ∃ l o, ts = l ++ r ∧ Derives (.level k) o l t ∧ Short l ∧ Stuck k r ∧
    (o = true → Stuck loosest r)

/-- Fewer than `n` tokens are read as the grammar says, at all levels. -/
def Reads (n : Nat) : Prop :=
  ∀ (us : List Token) (k : Nat) (t : Tree) (r : List Token), us.length < n →
    level k us = .ok (t, r) → Spells k us t r

/-- What is shown for lists of tokens up to a length holds for the shorter ones. -/
theorem Reads.mono {m : Nat} (h : Reads n) (hm : m ≤ n) : Reads m :=
  fun us k t r hus => h us k t r (Nat.lt_of_lt_of_le hus hm)

/-- Names that are read are at least one, with commas between them. -/
theorem names_sound {ns : List String} (h : names ts = some (ns, r)) :
    ns ≠ [] ∧ ts = commas (ns.map fun n => [.word n]) ++ r := by
  induction hn : ts.length using Nat.strongRecOn generalizing ts ns r with
  | ind n ih =>
    by_cases hw : ∃ m us, ts = .word m :: us
    · obtain ⟨m, us, rfl⟩ := hw
      by_cases hc : ∃ vs, us = .comma :: vs
      · obtain ⟨vs, rfl⟩ := hc
        cases hv : names vs with
        | none =>
          rw [names_comma_left hv, Option.some.injEq, Prod.mk.injEq] at h
          obtain ⟨rfl, rfl⟩ := h
          exact ⟨by simp, by simp [commas]⟩
        | some z =>
          obtain ⟨ns', r'⟩ := z
          rw [names_comma hv, Option.some.injEq, Prod.mk.injEq] at h
          obtain ⟨rfl, rfl⟩ := h
          obtain ⟨hne, hvs⟩ := ih vs.length (by simp only [← hn, List.length_cons]; omega) hv rfl
          obtain ⟨n', ms, rfl⟩ := List.exists_cons_of_ne_nil hne
          refine ⟨by simp, ?_⟩
          rw [hvs]
          simp [commas]
      · rw [names_last fun vs hus => hc ⟨vs, hus⟩, Option.some.injEq, Prod.mk.injEq] at h
        obtain ⟨rfl, rfl⟩ := h
        exact ⟨by simp, by simp [commas]⟩
    · rw [names_eq_none fun m us hts => hw ⟨m, us, hts⟩] at h
      cases h

/-- Subscripts that are read derive the tree from that of the atom before them. The recursion is on
the number of tokens, each subscript being the atom of the next. -/
theorem subscripts_sound (ih : Reads n) (hn : ts.length ≤ n) (ha : Derives .atom false a x)
    (h : subscripts x ts = .ok (t, r)) :
    ∃ m, ts = m ++ r ∧ Derives .atom false (a ++ m) t ∧ Short m := by
  induction hlen : ts.length using Nat.strongRecOn generalizing ts a x with
  | ind len rec =>
    by_cases hb : ∃ us, ts = .lbracket :: us
    · obtain ⟨us, rfl⟩ := hb
      rw [List.length_cons] at hn hlen
      rcases subscripts_cases h with ⟨rfl, rfl⟩ | ⟨i, vs, hi, hr⟩ | ⟨i, vs, v, ws, hi, hv, hr⟩
      · exact ⟨[], rfl, by rwa [List.append_nil], Token.short_nil⟩
      · obtain ⟨p, o, rfl, hp, hps, -⟩ := ih _ _ _ _ (by omega) hi
        simp only [List.length_append, List.length_cons] at hn hlen
        obtain ⟨m, rfl, hm, hms⟩ := rec vs.length (by omega) (by omega) (.sub ha hp) hr rfl
        exact ⟨.lbracket :: (p ++ .rbracket :: m), by simp, by simpa using hm,
          by simp [hps, hms, Token.Fits]⟩
      · obtain ⟨p, o, rfl, hp, hps, -⟩ := ih _ _ _ _ (by omega) hi
        simp only [List.length_append, List.length_cons] at hn hlen
        obtain ⟨q, o', rfl, hq, hqs, -⟩ := ih _ _ _ _ (by omega) hv
        simp only [List.length_append, List.length_cons] at hn hlen
        obtain ⟨m, rfl, hm, hms⟩ := rec ws.length (by omega) (by omega) (.upd ha hp hq) hr rfl
        exact ⟨.lbracket :: (p ++ .assign :: (q ++ .rbracket :: m)), by simp, by simpa using hm,
          by simp [hps, hqs, hms, Token.Fits]⟩
    · rw [subscripts_of_ne fun us hts => hb ⟨us, hts⟩, Except.ok.injEq, Prod.mk.injEq] at h
      obtain ⟨rfl, rfl⟩ := h
      exact ⟨[], rfl, by rwa [List.append_nil], Token.short_nil⟩

/-- Arguments with the tokens of each. -/
def Parts (parts : List (Bool × List Token × Tree)) : Prop :=
  ∀ p ∈ parts, Derives (.level loosest) p.1 p.2.1 p.2.2 ∧ Short p.2.1

/-- Further arguments that are read are formulas, each behind a comma. -/
theorem further_sound {args : List Tree} (ih : Reads n) (hn : ts.length ≤ n)
    (h : further ts = .ok (args, r)) : ∃ parts, Parts parts ∧ args = parts.map (·.2.2) ∧
      ts = (parts.map (·.2.1)).flatMap (.comma :: ·) ++ r := by
  induction hlen : ts.length using Nat.strongRecOn generalizing ts args with
  | ind len rec =>
    by_cases hc : ∃ us, ts = .comma :: us
    · obtain ⟨us, rfl⟩ := hc
      rw [List.length_cons] at hn hlen
      cases hl : level loosest us with
      | error e =>
        cases e with
        | malformed =>
          rw [further_malformed hl, Except.ok.injEq, Prod.mk.injEq] at h
          obtain ⟨rfl, rfl⟩ := h
          exact ⟨[], by simp [Parts], rfl, rfl⟩
        | integerTooLong => rw [further_tooLong hl] at h; cases h
      | ok z =>
        obtain ⟨x, vs⟩ := z
        obtain ⟨p, o, rfl, hp, hps, -⟩ := ih _ _ _ _ (by omega) hl
        rw [further_step hl] at h
        simp only [List.length_append] at hn hlen
        cases hf : further vs with
        | error e => rw [hf] at h; cases h
        | ok w =>
          obtain ⟨args', r'⟩ := w
          rw [hf] at h
          simp only [Except.map, Except.ok.injEq, Prod.mk.injEq] at h
          obtain ⟨rfl, rfl⟩ := h
          obtain ⟨parts, hparts, rfl, hvs⟩ := rec vs.length (by omega) (by omega) hf rfl
          refine ⟨(o, p, x) :: parts, ?_, rfl, by rw [hvs]; simp⟩
          intro q hq
          rcases List.mem_cons.1 hq with rfl | hq
          · exact ⟨hp, hps⟩
          · exact hparts q hq
    · rw [further_of_ne fun us hts => hc ⟨us, hts⟩, Except.ok.injEq, Prod.mk.injEq] at h
      obtain ⟨rfl, rfl⟩ := h
      exact ⟨[], by simp [Parts], rfl, rfl⟩

/-- Arguments that are read are formulas with commas between them; or none was read, and no token
was taken. -/
theorem arguments_sound {args : List Tree} (ih : Reads n) (hn : ts.length < n)
    (h : arguments ts = .ok (args, r)) : ∃ parts, Parts parts ∧ args = parts.map (·.2.2) ∧
      ts = commas (parts.map (·.2.1)) ++ r := by
  cases hl : level loosest ts with
  | error e =>
    cases e with
    | malformed =>
      rw [arguments_malformed hl, Except.ok.injEq, Prod.mk.injEq] at h
      obtain ⟨rfl, rfl⟩ := h
      exact ⟨[], by simp [Parts], rfl, rfl⟩
    | integerTooLong => rw [arguments_tooLong hl] at h; cases h
  | ok z =>
    obtain ⟨x, vs⟩ := z
    obtain ⟨p, o, rfl, hp, hps, -⟩ := ih _ _ _ _ hn hl
    rw [arguments_step hl] at h
    rw [List.length_append] at hn
    cases hf : further vs with
    | error e => rw [hf] at h; cases h
    | ok w =>
      obtain ⟨args', r'⟩ := w
      rw [hf] at h
      simp only [Except.map, Except.ok.injEq, Prod.mk.injEq] at h
      obtain ⟨rfl, rfl⟩ := h
      obtain ⟨parts, hparts, rfl, hvs⟩ := further_sound ih (by omega) hf
      refine ⟨(o, p, x) :: parts, ?_, rfl, by rw [hvs]; simp [commas]⟩
      intro q hq
      rcases List.mem_cons.1 hq with rfl | hq
      · exact ⟨hp, hps⟩
      · exact hparts q hq

/-- An expression up to a closing token. -/
theorem level_close_sound {s : Token} (ih : Reads n) (hn : ts.length < n)
    (h : (level loosest ts).bind (close s) = .ok (t, r)) :
    ∃ l o, ts = l ++ s :: r ∧ Derives (.level loosest) o l t ∧ Short l := by
  cases hl : level loosest ts with
  | error e => rw [hl] at h; cases h
  | ok z =>
    rw [hl] at h
    obtain rfl := close_eq_ok h
    obtain ⟨l, o, hts, hd, hs, -⟩ := ih _ _ _ _ hn hl
    exact ⟨l, o, hts, hd, hs⟩

/-- An atom that is read is derived as one, by the case of the token that it begins with. Only a
formula in parentheses and the arguments of a call need the hypothesis on shorter lists. -/
theorem atom_sound (ih : Reads ts.length) (h : atom ts = .ok (t, r)) :
    ∃ l, ts = l ++ r ∧ Derives .atom false l t ∧ Short l := by
  cases ts with
  | nil => exact absurd (length_atom h) (Nat.not_lt_zero _)
  | cons s ts =>
    rw [List.length_cons] at ih
    have hlt : ts.length < ts.length + 1 := Nat.lt_succ_self _
    cases s with
    | float w f =>
      rw [atom_float, Except.ok.injEq, Prod.mk.injEq] at h
      obtain ⟨rfl, rfl⟩ := h
      exact ⟨[_], rfl, .float w f, by simp [Token.Fits]⟩
    | int ds =>
      by_cases hds : ds.length ≤ integerDigitLimit
      · simp only [atom_int, ofDigits, hds, if_true, Except.map, Except.ok.injEq,
          Prod.mk.injEq] at h
        obtain ⟨rfl, rfl⟩ := h
        exact ⟨[_], rfl, .int ds, by simpa [Token.Fits] using hds⟩
      · simp [atom_int, ofDigits, hds, Except.map] at h
    | truth b =>
      rw [atom_truth, Except.ok.injEq, Prod.mk.injEq] at h
      obtain ⟨rfl, rfl⟩ := h
      exact ⟨[_], rfl, .truth b, by simp [Token.Fits]⟩
    | lparen =>
      rw [atom_paren] at h
      obtain ⟨l, o, rfl, hd, hs⟩ := level_close_sound ih hlt h
      exact ⟨.lparen :: (l ++ [.rparen]), by simp, .paren hd, by simp [hs, Token.Fits]⟩
    | length =>
      by_cases hp : ∃ us, ts = .lparen :: us
      · obtain ⟨us, rfl⟩ := hp
        rw [atom_len] at h
        cases hc : (level loosest us).bind (close .rparen) with
        | error e => rw [hc] at h; cases h
        | ok z =>
          obtain ⟨y, vs⟩ := z
          rw [hc] at h
          simp only [Except.map, Except.ok.injEq, Prod.mk.injEq] at h
          obtain ⟨rfl, rfl⟩ := h
          rw [List.length_cons] at ih
          obtain ⟨l, o, rfl, hd, hs⟩ := level_close_sound ih (by omega) hc
          exact ⟨.length :: .lparen :: (l ++ [.rparen]), by simp, .len hd, by simp [hs, Token.Fits]⟩
      · have hp' : ∀ us, ts ≠ .lparen :: us := fun us hus => hp ⟨us, hus⟩
        rw [atom_malformed (by simpa using hp')] at h
        cases h
    | word n =>
      by_cases hp : ∃ us, ts = .lparen :: us
      · obtain ⟨us, rfl⟩ := hp
        rw [List.length_cons] at ih
        cases ha : arguments us with
        | error e =>
          cases e with
          | malformed =>
            rw [atom_noCall (by simp [ha]) (by simp [ha]), Except.ok.injEq, Prod.mk.injEq] at h
            obtain ⟨rfl, rfl⟩ := h
            exact ⟨[_], rfl, .name n, by simp [Token.Fits]⟩
          | integerTooLong => rw [atom_tooLong ha] at h; cases h
        | ok z =>
          obtain ⟨args, vs⟩ := z
          by_cases hvs : ∃ ws, vs = .rparen :: ws
          · obtain ⟨ws, rfl⟩ := hvs
            rw [atom_call ha, Except.ok.injEq, Prod.mk.injEq] at h
            obtain ⟨rfl, rfl⟩ := h
            obtain ⟨parts, hparts, rfl, rfl⟩ := arguments_sound ih (by omega) ha
            have hs : Short (commas (parts.map (·.2.1))) := by
              refine Token.short_commas fun x hx => ?_
              obtain ⟨p, hp, rfl⟩ := List.mem_map.1 hx
              exact (hparts p hp).2
            exact ⟨_, by simp, .call n parts fun p hp => (hparts p hp).1, by simp [hs, Token.Fits]⟩
          · rw [atom_noCall (by simp [ha]) (fun args' ws heq => hvs ⟨ws, by simp_all⟩),
              Except.ok.injEq, Prod.mk.injEq] at h
            obtain ⟨rfl, rfl⟩ := h
            exact ⟨[_], rfl, .name n, by simp [Token.Fits]⟩
      · rw [atom_word fun us hus => hp ⟨us, hus⟩, Except.ok.injEq, Prod.mk.injEq] at h
        obtain ⟨rfl, rfl⟩ := h
        exact ⟨[_], rfl, .name n, by simp [Token.Fits]⟩
    | _ => rw [atom_malformed (by simp)] at h; cases h

/-! ## Operands, operators and levels -/

/-- A sign before an operand makes an operand. -/
theorem prefix_sound {s : Token} {f : Tree → Tree} (ih : Reads (ts.length + 1)) (hs : s.Fits)
    (hf : ∀ {o l x}, Derives (.level 0) o l x → Derives (.level 0) o (s :: l) (f x))
    (h : ((operand ts).map fun y => (f y.1, y.2)) = .ok (t, r)) : Spells 0 (s :: ts) t r := by
  cases ho : operand ts with
  | error e => rw [ho] at h; cases h
  | ok z =>
    obtain ⟨x, us⟩ := z
    rw [ho] at h
    simp only [Except.map, Except.ok.injEq, Prod.mk.injEq] at h
    obtain ⟨rfl, rfl⟩ := h
    obtain ⟨l, o, rfl, hd, hl, hstuck, hopen⟩ :=
      ih ts 0 x us (Nat.lt_succ_self _) (level_zero.trans ho)
    exact ⟨s :: l, o, rfl, hf hd, Token.short_cons.2 ⟨hs, hl⟩, hstuck, hopen⟩

/-- An operand that is read is derived at the lowest level, by the case of the token that it begins
with. Behind a sign the hypothesis on shorter lists gives the operand that follows, and behind a
quantifier the body, which is open at its end. -/
theorem operand_sound (ih : Reads ts.length) (h : operand ts = .ok (t, r)) : Spells 0 ts t r := by
  have hstuck : Stuck 0 r := by
    intro j hj op us _ hop
    exact absurd (BinOp.level?_pos hop) (by omega)
  cases ts with
  | nil => rw [operand_nil] at h; cases h
  | cons s ts =>
    by_cases hs : beginsAtom s = true
    · cases ha : atom (s :: ts) with
      | error e => rw [operand_error hs ha] at h; cases h
      | ok z =>
        obtain ⟨x, us⟩ := z
        rw [operand_atom hs ha] at h
        obtain ⟨l, hl, hx, hls⟩ := atom_sound ih ha
        obtain ⟨m, rfl, hm, hms⟩ := subscripts_sound ih (Nat.le_of_lt (length_atom ha)) hx h
        exact ⟨l ++ m, false, by rw [hl, List.append_assoc], .operand hm, by simp [hls, hms],
          hstuck, by simp⟩
    · cases s with
      | bang =>
        rw [operand_bang] at h
        exact prefix_sound ih trivial .not h
      | op op =>
        cases op with
        | sub =>
          rw [operand_minus] at h
          exact prefix_sound ih trivial .neg h
        | _ => exact absurd rfl hs
      | sign kind =>
        by_cases hn : ∃ ns us, names ts = some (ns, .dot :: us)
        · obtain ⟨ns, us, hn⟩ := hn
          rw [operand_sign hn] at h
          obtain ⟨hne, rfl⟩ := names_sound hn
          cases hl : level loosest us with
          | error e => rw [hl] at h; cases h
          | ok z =>
            obtain ⟨x, vs⟩ := z
            rw [hl] at h
            simp only [Except.map, Except.ok.injEq, Prod.mk.injEq] at h
            obtain ⟨rfl, rfl⟩ := h
            obtain ⟨l, o, rfl, hd, hs, hend, -⟩ := ih us loosest x vs (by simp; omega) hl
            have hns : Short (commas (ns.map fun n => [.word n])) := by
              refine Token.short_commas fun x hx => ?_
              obtain ⟨n, -, rfl⟩ := List.mem_map.1 hx
              simp [Token.Fits]
            exact ⟨_, true, by simp, .quantified kind ns hne hd, by simp [hns, hs, Token.Fits],
              hstuck, fun _ => hend⟩
        · rw [operand_sign_malformed fun ns us hns => hn ⟨ns, us, hns⟩] at h
          cases h
      | _ => exact absurd rfl hs

/-- Operators of a level that groups to the left, after a left operand `l`. -/
theorem operators_sound (ih : Reads n) (hn : ts.length ≤ n) (hk : k ≠ implicationLevel)
    (hx : Derives (.level k) o l x) (hopen : o = true → Stuck loosest ts) (hs : Stuck (k - 1) ts)
    (h : operators k x ts = .ok (t, r)) :
    ∃ m o', ts = m ++ r ∧ Derives (.level k) o' (l ++ m) t ∧ Short m ∧ Stuck k r ∧
      (o' = true → Stuck loosest r) := by
  induction hlen : ts.length using Nat.strongRecOn generalizing ts l o x with
  | ind len rec =>
    rcases operators_cases h with ⟨rfl, rfl, hat⟩ | ⟨op, us, y, vs, rfl, hop, hl, hr⟩
    · refine ⟨[], o, rfl, by rwa [List.append_nil], Token.short_nil, ?_, hopen⟩
      cases k with
      | zero => exact hs
      | succ k => exact hs.succ hat
    · -- An operator is taken, so the left operand cannot be open.
      have ho : o = false := by
        cases o with
        | false => rfl
        | true =>
          obtain ⟨rfl, hcons⟩ := operators_of_stuckAt ((hopen rfl).of_loosest k k (Nat.le_refl k)) h
          have := length_operators hr
          have := length_level hl
          rw [hcons, List.length_cons] at *
          omega
      subst ho
      have hk' : operandLevel k = k - 1 := if_neg hk
      rw [hk'] at hl
      rw [List.length_cons] at hn hlen
      obtain ⟨p, o', rfl, hy, hps, hstuck, hopen'⟩ := ih us (k - 1) y vs (by omega) hl
      rw [List.length_append] at hn hlen
      have hnew := Derives.left (mem_operatorsAt.2 hop) hk hx hy
      obtain ⟨m, o'', rfl, hm, hms, hend⟩ :=
        rec vs.length (by omega) (by omega) hnew hopen' hstuck hr rfl
      exact ⟨.op op :: (p ++ m), o'', by simp, by simpa using hm, by simp [hps, hms, Token.Fits],
        hend⟩

/-- One step from a level to the next looser one. -/
theorem level_succ_sound (ih : Reads ts.length) (hlevel : Spells k ts x r)
    (hr : r.length ≤ ts.length) {r' : List Token} (h : operators (k + 1) x r = .ok (t, r')) :
    Spells (k + 1) ts t r' := by
  obtain ⟨l, o, hts, hd, hls, hstuck, hopen⟩ := hlevel
  by_cases hk : k + 1 = implicationLevel
  · obtain rfl : k = implicationLevel - 1 := by omega
    rcases operators_cases h with ⟨rfl, rfl, hat⟩ | ⟨op, us, y, vs, rfl, hop, hl, hend⟩
    · exact ⟨l, o, hts, .tighter hd, hls, hstuck.succ hat, hopen⟩
    · obtain rfl := BinOp.eq_implies hop
      have ho : o = false := by
        cases o with
        | false => rfl
        | true =>
          obtain ⟨-, hcons⟩ := operators_of_stuckAt ((hopen rfl).of_loosest _ _ (Nat.le_refl _)) h
          have := length_operators hend
          have := length_level hl
          rw [hcons, List.length_cons] at *
          omega
      subst ho
      obtain ⟨m, o', rfl, hy, hms, hstuck', hopen'⟩ :=
        ih us implicationLevel y vs (by rw [List.length_cons] at hr; omega) hl
      -- The right operand has taken all implications that follow.
      obtain ⟨rfl, rfl⟩ := operators_of_stuckAt (hstuck' _ (Nat.le_refl _)) hend
      exact ⟨l ++ .op .implies :: m, o', by simp [hts], .right hd hy,
        by simp [hls, hms, Token.Fits], hstuck', hopen'⟩
  · obtain ⟨m, o', rfl, hm, hms, hend⟩ := operators_sound ih hr hk (.tighter hd) hopen hstuck h
    exact ⟨l ++ m, o', by rw [hts, List.append_assoc], hm, by simp [hls, hms], hend⟩

/-- The reader follows the grammar on lists of every length, by induction on the length. -/
theorem reads (n : Nat) : Reads n := by
  induction n with
  | zero => intro us k t r h; exact absurd h (Nat.not_lt_zero _)
  | succ n ih =>
    intro us k t r hus h
    have ih : Reads us.length := ih.mono (Nat.le_of_lt_succ hus)
    induction k generalizing t r with
    | zero => exact operand_sound ih (level_zero.symm.trans h)
    | succ k rec =>
      cases hl : level k us with
      | error e => rw [level_succ_error hl] at h; cases h
      | ok z =>
        obtain ⟨x, vs⟩ := z
        rw [level_succ hl] at h
        exact level_succ_sound ih (rec x vs hl) (Nat.le_of_lt (length_level hl)) h

/-- Where the reader of a level answers, the tokens that it took derive its tree. -/
theorem level_sound (h : level k ts = .ok (t, r)) :
    ∃ l o, ts = l ++ r ∧ Derives (.level k) o l t ∧ Short l := by
  obtain ⟨l, o, hts, hd, hs, -⟩ := reads _ ts k t r (Nat.lt_succ_self _) h
  exact ⟨l, o, hts, hd, hs⟩

end Tree

end Discharge
