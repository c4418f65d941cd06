import Discharge.Proofs.Syntax.ReadSound

/-!
# What is derived is read

`ofTokens?_complete`: tokens that derive a tree are read as that tree, unless an integer among them
is overlong. With `ofTokens?_sound` the reader and the grammar agree.

A derivation groups `a - b - c` from the left, while the reader meets `a` first and the operators
after it. So the statement for a level speaks of what follows: reading an expression of level `k`
together with the rest is reading the operators of level `k` in the rest with the expression as left
operand. `Follow` says which rests leave an expression whole. For `=>`, whose right operand takes
every further `=>`, only the statement for such rests holds.
-/

namespace Discharge

open Token (commas)

namespace Token

/-- Whether the token ends an expression that has no end of its own. -/
def closes : Token → Bool
  | .rparen => true
  | .rbracket => true
  | .comma => true
  | .assign => true
  | _ => false

end Token

open Token (Short short_cons)

namespace Tree

variable {k j : Nat} {o : Bool} {x t : Tree} {s : Token} {l ts r : List Token}

/-- What may follow an expression of level `k` that is to be read whole. -/
def Follow (k : Nat) (o : Bool) (r : List Token) : Prop :=
  ∀ s us, r = s :: us → s ≠ .lparen ∧ s ≠ .lbracket ∧
    (∀ op, s = .op op → ∀ j ≤ k, op.level? ≠ some j) ∧ (o = true → s.closes = true)

/-- The end of the tokens may follow every expression. -/
theorem follow_nil : Follow k o [] := fun _ _ h => nomatch h

/-- A token that closes something may follow every expression. -/
theorem follow_closer (h : s.closes = true) : Follow k o (s :: r) := by
  intro u us hcons
  obtain ⟨rfl, rfl⟩ := List.cons.inj hcons
  cases s <;> simp_all [Token.closes]

/-- What may follow an expression of a looser level may follow one of a tighter level. -/
theorem Follow.mono (h : Follow k o r) (hj : j ≤ k) : Follow j o r := by
  intro s us hr
  obtain ⟨h₁, h₂, h₃, h₄⟩ := h s us hr
  exact ⟨h₁, h₂, fun op hs i hi => h₃ op hs i (Nat.le_trans hi hj), h₄⟩

/-- After an open expression comes a closing token or nothing, before which any expression ends. -/
theorem Follow.of_open (h : Follow k true r) : Follow j o r := by
  cases r with
  | nil => exact follow_nil
  | cons s us => exact follow_closer ((h s us rfl).2.2.2 rfl)

/-- An operator of a looser level may follow an expression that has an end of its own. -/
theorem follow_op {op : BinOp} (hop : op.level? = some k) (hk : j < k) :
    Follow j false (.op op :: r) := by
  intro s us hcons
  obtain ⟨rfl, rfl⟩ := List.cons.inj hcons
  refine ⟨by simp, by simp, ?_, by simp⟩
  intro op' hs i hi hop'
  obtain rfl := Token.op.inj hs
  rw [hop, Option.some.injEq] at hop'
  omega

/-- No operator of a level is taken from what may follow an expression of that level. -/
theorem operators_of_follow (h : Follow k o r) : operators k x r = .ok (x, r) := by
  cases r with
  | nil => exact operators_nil
  | cons s us => exact operators_cons fun op hs => (h s us rfl).2.2.1 op hs k (Nat.le_refl k)

/-- No subscript is taken from what may follow an expression. -/
theorem subscripts_of_follow (h : Follow k o r) : subscripts x r = .ok (x, r) :=
  subscripts_of_ne fun us hr => (h .lbracket us hr).2.1 rfl

/-- The names of a quantifier are read up to the dot. -/
theorem names_complete {ns : List String} (hne : ns ≠ []) :
    names (commas (ns.map fun n => [.word n]) ++ .dot :: r) = some (ns, .dot :: r) := by
  induction ns with
  | nil => exact absurd rfl hne
  | cons n ns ih =>
    cases ns with
    | nil => exact names_last (by simp)
    | cons m ns => exact names_comma (ih (by simp))

/-- Where a closing token stands, no expression begins. -/
theorem level_closer (h : s.closes = true) : level k (s :: r) = .error .malformed := by
  rw [level_eq_malformed_iff]
  cases s <;> first
    | exact absurd h Bool.false_ne_true
    | exact operand_error rfl (atom_malformed (by simp))

/-- The expression is read whole before every rest that leaves it whole. -/
def ReadWhole (k : Nat) (o : Bool) (l : List Token) (t : Tree) : Prop :=
  ∀ r, Follow k o r → level k (l ++ r) = .ok (t, r)

/-- A further argument or the end of a call leaves the one before whole. -/
theorem follow_parts {o : Bool} (parts : List (Bool × List Token × Tree)) (r : List Token) :
    Follow loosest o ((parts.map (·.2.1)).flatMap (.comma :: ·) ++ .rparen :: r) := by
  cases parts with
  | nil => exact follow_closer rfl
  | cons q parts => exact follow_closer rfl

/-- Further arguments that are read whole are read up to the closing parenthesis. -/
theorem further_complete {parts : List (Bool × List Token × Tree)}
    (h : ∀ p ∈ parts, ReadWhole loosest p.1 p.2.1 p.2.2) :
    further ((parts.map (·.2.1)).flatMap (.comma :: ·) ++ .rparen :: r) =
      .ok (parts.map (·.2.2), .rparen :: r) := by
  induction parts with
  | nil => exact further_of_ne (by simp)
  | cons p parts ih =>
    have hrest := ih fun q hq => h q (List.mem_cons_of_mem p hq)
    have hp := h p List.mem_cons_self _ (follow_parts parts r)
    simp only [List.map_cons, List.flatMap_cons, List.cons_append, List.append_assoc]
    rw [further_step hp, hrest]
    rfl

/-- Arguments that are read whole are read up to the closing parenthesis. -/
theorem arguments_complete {parts : List (Bool × List Token × Tree)}
    (h : ∀ p ∈ parts, ReadWhole loosest p.1 p.2.1 p.2.2) :
    arguments (commas (parts.map (·.2.1)) ++ .rparen :: r) =
      .ok (parts.map (·.2.2), .rparen :: r) := by
  cases parts with
  | nil => exact arguments_malformed (level_closer rfl)
  | cons p parts =>
    have hrest := further_complete (r := r) fun q hq => h q (List.mem_cons_of_mem p hq)
    have hp := h p List.mem_cons_self _ (follow_parts parts r)
    simp only [List.map_cons, commas, List.append_assoc]
    rw [arguments_step hp, hrest]
    rfl

/-- What the reader does with a derivation of a stratum, before a given rest. -/
def Complete : Stratum → Bool → List Token → Tree → Prop
  | .atom, _, l, t => ∀ r, (∀ us, r ≠ .lparen :: us) → operand (l ++ r) = subscripts t r
  | .level k, o, l, t =>
    (k ≠ implicationLevel → ∀ r, Follow (k - 1) o r → level k (l ++ r) = operators k t r) ∧
      ReadWhole k o l t

/-- At the levels that group to the left, an expression is read whole when it is read before any
operators. -/
theorem Complete.of_level
    (h : ∀ r, Follow (k - 1) o r → level k (l ++ r) = operators k t r) :
    Complete (.level k) o l t :=
  ⟨fun _ => h, fun r hr => (h r (hr.mono (Nat.sub_le k 1))).trans (operators_of_follow hr)⟩

/-- What is read as an operand before all that may follow is read whole at the lowest level. -/
theorem Complete.of_operand (h : ∀ r, Follow 0 o r → operand (l ++ r) = .ok (t, r)) :
    Complete (.level 0) o l t :=
  .of_level fun r hr => by rw [level_zero, h r hr, operators_of_follow hr]

/-- The reader follows every derivation without integers that are too long. The induction is on the
derivation; an operand of the next level is read whole because what follows it may follow that
level, and the operators of a level are read from the left by `Complete` of the part before them. -/
theorem Complete.of_derives {st : Stratum} (h : Derives st o l t) (hl : Short l) :
    Complete st o l t := by
  induction h with
  | float w f => intro r _; exact operand_atom rfl atom_float
  | int ds =>
    intro r _
    have hds : ds.length ≤ integerDigitLimit := (short_cons.1 hl).1
    exact operand_atom rfl (by simp [atom_int, ofDigits, hds, Except.map])
  | truth b => intro r _; exact operand_atom rfl atom_truth
  | len _ ih =>
    intro r _
    have harg := (ih (by simpa [Token.Fits] using hl)).2 (.rparen :: r) (follow_closer rfl)
    simp only [List.cons_append, List.append_assoc, List.nil_append]
    exact operand_atom rfl (by rw [atom_len, harg, Except.bind, close_cons]; rfl)
  | call n parts _ ih =>
    intro r _
    have hargs : ∀ p ∈ parts, ReadWhole loosest p.1 p.2.1 p.2.2 := by
      refine fun p hp => (ih p hp fun s hs => hl s ?_).2
      have hmem : s ∈ commas (parts.map (·.2.1)) :=
        Token.mem_commas (List.mem_map_of_mem hp) hs
      simp [hmem]
    simp only [List.cons_append, List.append_assoc, List.nil_append]
    exact operand_atom rfl (atom_call (arguments_complete hargs))
  | name n => intro r hr; exact operand_atom rfl (atom_word hr)
  | paren _ ih =>
    intro r _
    have harg := (ih (by simpa [Token.Fits] using hl)).2 (.rparen :: r) (follow_closer rfl)
    simp only [List.cons_append, List.append_assoc, List.nil_append]
    exact operand_atom rfl (by rw [atom_paren, harg, Except.bind, close_cons])
  | sub _ _ iha ihi =>
    intro r _
    have hi := (ihi (by simp_all)).2 (.rbracket :: r) (follow_closer rfl)
    simp only [List.cons_append, List.append_assoc, List.nil_append]
    rw [iha (by simp_all) _ (by simp), subscripts_sub hi]
  | @upd _ _ _ _ _ _ m _ _ _ _ iha ihi ihv =>
    intro r _
    have hv := (ihv (by simp_all)).2 (.rbracket :: r) (follow_closer rfl)
    have hi := (ihi (by simp_all)).2 (.assign :: (m ++ .rbracket :: r)) (follow_closer rfl)
    simp only [List.cons_append, List.append_assoc, List.nil_append]
    rw [iha (by simp_all) _ (by simp), subscripts_upd hi hv]
  | operand _ ih =>
    refine .of_operand fun r hr => ?_
    rw [ih hl r fun us hus => (hr .lparen us hus).1 rfl, subscripts_of_follow hr]
  | not _ ih =>
    refine .of_operand fun r hr => ?_
    have harg := (ih (by simpa [Token.Fits] using hl)).2 r hr
    rw [level_zero] at harg
    rw [List.cons_append, operand_bang, harg]
    rfl
  | neg _ ih =>
    refine .of_operand fun r hr => ?_
    have harg := (ih (by simpa [Token.Fits] using hl)).2 r hr
    rw [level_zero] at harg
    rw [List.cons_append, operand_minus, harg]
    rfl
  | quantified kind ns hne _ ih =>
    refine .of_operand fun r hr => ?_
    have hshort : Short _ := (short_cons.1 (Token.short_append.1 (short_cons.1 hl).2).2).2
    have hbody := (ih hshort).2 r hr.of_open
    simp only [List.cons_append, List.append_assoc]
    rw [operand_sign (names_complete hne), hbody]
    rfl
  | tighter _ ih => exact .of_level fun r hr => level_succ ((ih hl).2 r hr)
  | @left k o l m x y op hop hk _ _ ihx ihy =>
    refine .of_level fun r hr => ?_
    have hop := mem_operatorsAt.1 hop
    have hpos := BinOp.level?_pos hop
    have hy : level (operandLevel k) (m ++ r) = .ok (y, r) := by
      rw [show operandLevel k = k - 1 from if_neg hk]
      exact (ihy (by simp_all)).2 r hr
    rw [List.append_assoc, List.cons_append, (ihx (by simp_all)).1 hk _ (follow_op hop (by omega)),
      operators_step hop hy]
  | @right o l m x y _ _ ihx ihy =>
    refine ⟨fun h => absurd rfl h, fun r hr => ?_⟩
    have hx := (ihx (by simp_all)).2 (.op .implies :: (m ++ r)) (follow_op rfl (by decide))
    have hy := (ihy (by simp_all)).2 r hr
    rw [List.append_assoc, List.cons_append,
      show implicationLevel = implicationLevel - 1 + 1 from rfl, level_succ hx]
    exact (operators_step (k := implicationLevel) rfl hy).trans (operators_of_follow hr)

/-- Tokens are read as one formula if nothing is left of them. -/
theorem ofTokens?_eq_ok : ofTokens? ts = .ok t ↔ level loosest ts = .ok (t, []) := by
  unfold ofTokens? level
  cases readLevel loosest ts with
  | error e => simp [bare, Except.map]
  | ok y =>
    obtain ⟨y, r, hr⟩ := y
    cases r <;> simp [bare, Except.map]

/-- Tokens that are read as a tree derive it, and no integer among them is overlong. -/
theorem ofTokens?_sound (h : ofTokens? ts = .ok t) :
    ∃ o, Derives (.level loosest) o ts t ∧ Short ts := by
  obtain ⟨l, o, hts, hd, hs⟩ := level_sound (ofTokens?_eq_ok.1 h)
  rw [List.append_nil] at hts
  exact ⟨o, hts ▸ hd, hts ▸ hs⟩

/-- Tokens that derive a tree are read as that tree, if no integer among them is overlong. -/
theorem ofTokens?_complete (hd : Derives (.level loosest) o ts t) (hl : Short ts) :
    ofTokens? ts = .ok t := by
  have h := (Complete.of_derives hd hl).2 [] follow_nil
  rw [List.append_nil] at h
  exact ofTokens?_eq_ok.2 h

end Tree

end Discharge
