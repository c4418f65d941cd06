import Discharge.Syntax.Reader

/-!
# The readers and their steps

The readers of `Discharge.Syntax.Reader` return their rest together with a bound on its length, by
which they terminate. Here the bound is dropped (`Tree.level`, `Tree.operators` and so on), and each
reader gets one equation for every step that it can take. What is proved of the readers afterwards
goes through these equations only.
-/

namespace Discharge

namespace Tree

attribute [local simp] readLevel readOperators readOperand readAtom readSubscripts readArguments
  readFurther readNames

/-- Drops the bound on the rest. -/
def bare {α : Type} {p : List Token → Prop}
    (x : Except SyntaxError (α × { r : List Token // p r })) :
    Except SyntaxError (α × List Token) :=
  x.map fun y => (y.1, y.2.1)

/-- `readLevel` without the bound. -/
def level (k : Nat) (ts : List Token) : Except SyntaxError (Tree × List Token) :=
  bare (readLevel k ts)

/-- `readOperators` without the bound. -/
def operators (k : Nat) (left : Tree) (ts : List Token) : Except SyntaxError (Tree × List Token) :=
  bare (readOperators k left ts)

/-- `readOperand` without the bound. -/
def operand (ts : List Token) : Except SyntaxError (Tree × List Token) := bare (readOperand ts)

/-- `readAtom` without the bound. -/
def atom (ts : List Token) : Except SyntaxError (Tree × List Token) := bare (readAtom ts)

/-- `readSubscripts` without the bound. -/
def subscripts (array : Tree) (ts : List Token) : Except SyntaxError (Tree × List Token) :=
  bare (readSubscripts array ts)

/-- `readArguments` without the bound. -/
def arguments (ts : List Token) : Except SyntaxError (List Tree × List Token) :=
  bare (readArguments ts)

/-- `readFurther` without the bound. -/
def further (ts : List Token) : Except SyntaxError (List Tree × List Token) := bare (readFurther ts)

/-- `readNames` without the bound. -/
def names (ts : List Token) : Option (List String × List Token) :=
  (readNames ts).map fun y => (y.1, y.2.1)

section Bare

variable {α : Type} {p : List Token → Prop} {e : SyntaxError}
  {x : Except SyntaxError (α × { r : List Token // p r })}

/-- Forgetting the bound on the rest leaves an error as it is. -/
theorem bare_error (h : x = .error e) : bare x = .error e := by rw [h]; rfl

/-- Forgetting the bound on the rest leaves what is read, and the rest as a list. -/
theorem bare_ok {a : α} {r : { r : List Token // p r }} (h : x = .ok (a, r)) :
    bare x = .ok (a, r.1) := by rw [h]; rfl

/-- An error that is seen without the bound is the reader's own. -/
theorem eq_error_of_bare (h : bare x = .error e) : x = .error e := by
  cases x with
  | error e' => simpa [bare, Except.map] using h
  | ok y => simp [bare, Except.map] at h

/-- The rest that is seen without the bound comes from a rest that has it. -/
theorem exists_of_bare {a : α} {r : List Token} (h : bare x = .ok (a, r)) :
    ∃ hr : p r, x = .ok (a, ⟨r, hr⟩) := by
  cases x with
  | error e' => simp [bare, Except.map] at h
  | ok y =>
    obtain ⟨b, s, hs⟩ := y
    simp only [bare, Except.map, Except.ok.injEq, Prod.mk.injEq] at h
    obtain ⟨rfl, rfl⟩ := h
    exact ⟨hs, rfl⟩

end Bare

variable {k : Nat} {x t : Tree} {op : BinOp} {ts r r' : List Token} {e : SyntaxError}

/-! ## The rests get shorter -/

/-- A formula takes at least one token. -/
theorem length_level (h : level k ts = .ok (t, r)) : r.length < ts.length :=
  (exists_of_bare h).1

/-- What follows an operand takes no token, or some of those that are left. -/
theorem length_operators (h : operators k x ts = .ok (t, r)) : r.length ≤ ts.length :=
  (exists_of_bare h).1

/-- An atom takes at least one token. -/
theorem length_atom (h : atom ts = .ok (t, r)) : r.length < ts.length :=
  (exists_of_bare h).1

/-! ## Levels -/

/-- The lowest level is that of operands. -/
theorem level_zero : level 0 ts = operand ts := by
  unfold level operand
  rw [readLevel]

/-- What cannot be read at one level cannot be read at the next. -/
theorem level_succ_error (h : level k ts = .error e) : level (k + 1) ts = .error e := by
  apply bare_error
  rw [readLevel, eq_error_of_bare h]

/-- A formula of a level is an operand of the level below, and the operators that follow it. -/
theorem level_succ (h : level k ts = .ok (x, r)) : level (k + 1) ts = operators (k + 1) x r := by
  obtain ⟨hr, h⟩ := exists_of_bare h
  unfold level operators
  rw [readLevel, h]
  dsimp only
  cases readOperators (k + 1) x r with
  | error e => rfl
  | ok y => rfl

/-! ## Operators -/

/-- At the end of the tokens no operator follows. -/
theorem operators_nil : operators k x [] = .ok (x, []) := by
  unfold operators
  rw [readOperators] <;> simp [bare, Except.map]

/-- A token that is no operator of the level ends the formula of that level. -/
theorem operators_cons {s : Token} (h : ∀ op, s = .op op → op.level? ≠ some k) :
    operators k x (s :: ts) = .ok (x, s :: ts) := by
  unfold operators
  cases s <;> rw [readOperators] <;> try simp [bare, Except.map]
  rw [if_neg (h _ rfl)]

/-- An operator that no operand follows is not taken. -/
theorem operators_malformed (hop : op.level? = some k)
    (h : level (operandLevel k) ts = .error .malformed) :
    operators k x (.op op :: ts) = .ok (x, .op op :: ts) := by
  unfold operators
  rw [readOperators, if_pos hop, eq_error_of_bare h]
  rfl

/-- An integer with too many digits is refused also behind an operator. -/
theorem operators_tooLong (hop : op.level? = some k)
    (h : level (operandLevel k) ts = .error .integerTooLong) :
    operators k x (.op op :: ts) = .error .integerTooLong := by
  unfold operators
  rw [readOperators, if_pos hop, eq_error_of_bare h]
  rfl

/-- An operator and its operand make a binary formula, which is the left operand of what follows. -/
theorem operators_step {y : Tree} (hop : op.level? = some k)
    (h : level (operandLevel k) ts = .ok (y, r)) :
    operators k x (.op op :: ts) = operators k (.bin op x y) r := by
  obtain ⟨hr, h⟩ := exists_of_bare h
  unfold operators
  rw [readOperators, if_pos hop, h]
  dsimp only
  cases readOperators k (.bin op x y) r with
  | error e => rfl
  | ok y => rfl

/-! ## Operands -/

/-- A negation is read as its sign and an operand. -/
theorem operand_bang : operand (.bang :: ts) = (operand ts).map fun y => (.not y.1, y.2) := by
  unfold operand
  rw [readOperand]
  cases readOperand ts with
  | error e => rfl
  | ok y => rfl

/-- A minus sign in front of an operand is read as its negative. -/
theorem operand_minus : operand (.op .sub :: ts) = (operand ts).map fun y => (.neg y.1, y.2) := by
  unfold operand
  rw [readOperand]
  cases readOperand ts with
  | error e => rfl
  | ok y => rfl

/-- A quantifier is read with its names, the dot, and a whole formula as its body. -/
theorem operand_sign {kind : Quantifier} {ns : List String} (h : names ts = some (ns, .dot :: r)) :
    operand (.sign kind :: ts) =
      (level loosest r).map fun y => (.quantified kind ns y.1, y.2) := by
  obtain ⟨⟨ns', r', hr⟩, hn, he⟩ := Option.map_eq_some_iff.1 h
  obtain ⟨rfl, rfl⟩ := Prod.mk.inj he
  unfold operand level
  rw [readOperand, hn]
  dsimp only
  cases readLevel loosest r with
  | error e => rfl
  | ok y => rfl

/-- A quantifier sign without names and a dot begins no operand. -/
theorem operand_sign_malformed {kind : Quantifier}
    (h : ∀ ns r, names ts ≠ some (ns, .dot :: r)) :
    operand (.sign kind :: ts) = .error .malformed := by
  unfold operand
  rw [readOperand]
  cases hn : readNames ts with
  | none => rfl
  | some y =>
    obtain ⟨ns, r, hr⟩ := y
    cases r with
    | nil => rfl
    | cons s r =>
      cases s with
      | dot => exact absurd (by simp [names, hn]) (h ns r)
      | _ => rfl

/-- Whether a token begins an operand that is neither signed nor quantified. -/
def beginsAtom : Token → Bool
  | .bang => false
  | .op o => o != .sub
  | .sign _ => false
  | _ => true

/-- An atom that cannot be read is no operand. -/
theorem operand_error {s : Token} (hs : beginsAtom s = true) (h : atom (s :: ts) = .error e) :
    operand (s :: ts) = .error e := by
  have h := eq_error_of_bare h
  apply bare_error
  cases s with
  | bang => cases hs
  | sign kind => cases hs
  | op o =>
    cases o with
    | sub => cases hs
    | _ => rw [readOperand, h] <;> simp
  | _ => rw [readOperand, h] <;> simp

/-- An operand that begins as an atom is the atom and its subscripts. -/
theorem operand_atom {s : Token} (hs : beginsAtom s = true) (h : atom (s :: ts) = .ok (x, r)) :
    operand (s :: ts) = subscripts x r := by
  obtain ⟨hr, h⟩ := exists_of_bare h
  unfold operand subscripts
  cases s with
  | bang => cases hs
  | sign kind => cases hs
  | op o =>
    cases o with
    | sub => cases hs
    | _ => rw [readOperand, h] <;> first | (dsimp only; cases readSubscripts x r <;> rfl) | simp
  | _ => rw [readOperand, h] <;> first | (dsimp only; cases readSubscripts x r <;> rfl) | simp

/-- No operand is read from no tokens. -/
theorem operand_nil : operand [] = .error .malformed := by
  apply bare_error
  rw [readOperand, readAtom] <;> simp

/-! ## Atoms -/

/-- A numeral with a point is an atom. -/
theorem atom_float {w f : List Nat} : atom (.float w f :: ts) = .ok (ofPoint w f, ts) := by
  unfold atom; rw [readAtom]; rfl

/-- A numeral without a point is an atom, if it does not have too many digits. -/
theorem atom_int {ds : List Char} : atom (.int ds :: ts) = (ofDigits ds).map fun y => (y, ts) := by
  unfold atom
  rw [readAtom]
  cases ofDigits ds with
  | error e => rfl
  | ok y => rfl

/-- A truth value is an atom. -/
theorem atom_truth {b : Bool} : atom (.truth b :: ts) = .ok (.truth b, ts) := by
  unfold atom; rw [readAtom]; rfl

/-- Takes the token `s` off the rest, and the text is malformed if there is another. -/
def close (s : Token) (y : Tree × List Token) : Except SyntaxError (Tree × List Token) :=
  match y.2 with
  | [] => .error .malformed
  | u :: r => if u = s then .ok (y.1, r) else .error .malformed

/-- A closing token that is there is taken. -/
theorem close_cons {s : Token} : close s (x, s :: r) = .ok (x, r) := by simp [close]

/-- What was closed ended with the closing token. -/
theorem close_eq_ok {s : Token} {y : Tree × List Token} (h : close s y = .ok (t, r)) :
    y = (t, s :: r) := by
  obtain ⟨y, us⟩ := y
  cases us with
  | nil => simp [close] at h
  | cons u us =>
    by_cases hu : u = s
    · simp only [close, hu, if_true, Except.ok.injEq, Prod.mk.injEq] at h
      rw [hu, h.1, h.2]
    · simp [close, hu] at h

/-- A length is read as a formula in parentheses. -/
theorem atom_len : atom (.length :: .lparen :: ts) =
    ((level loosest ts).bind (close .rparen)).map fun y => (.len y.1, y.2) := by
  unfold atom level
  rw [readAtom]
  cases readLevel loosest ts with
  | error e => rfl
  | ok y =>
    obtain ⟨y, us, hus⟩ := y
    cases us with
    | nil => rfl
    | cons u us => cases u <;> rfl

/-- A formula in parentheses is an atom, and is that formula. -/
theorem atom_paren : atom (.lparen :: ts) = (level loosest ts).bind (close .rparen) := by
  unfold atom level
  rw [readAtom]
  cases readLevel loosest ts with
  | error e => rfl
  | ok y =>
    obtain ⟨y, us, hus⟩ := y
    cases us with
    | nil => rfl
    | cons u us => cases u <;> rfl

/-- A name that no parenthesis follows is an atom. -/
theorem atom_word {n : String} (h : ∀ r, ts ≠ .lparen :: r) :
    atom (.word n :: ts) = .ok (.name n, ts) := by
  unfold atom
  rw [readAtom]
  · rfl
  · exact h

/-- A name with arguments in parentheses is a call. -/
theorem atom_call {n : String} {args : List Tree} (h : arguments ts = .ok (args, .rparen :: r)) :
    atom (.word n :: .lparen :: ts) = .ok (.call n args, r) := by
  obtain ⟨hr, h⟩ := exists_of_bare h
  unfold atom
  rw [readAtom, h]
  rfl

/-- An integer with too many digits is refused also among the arguments of a call. -/
theorem atom_tooLong {n : String} (h : arguments ts = .error .integerTooLong) :
    atom (.word n :: .lparen :: ts) = .error .integerTooLong := by
  apply bare_error
  rw [readAtom, eq_error_of_bare h]

/-- A name whose arguments cannot be read is a name alone. -/
theorem atom_noCall {n : String} (he : arguments ts ≠ .error .integerTooLong)
    (h : ∀ args r, arguments ts ≠ .ok (args, .rparen :: r)) :
    atom (.word n :: .lparen :: ts) = .ok (.name n, .lparen :: ts) := by
  unfold atom
  rw [readAtom]
  cases ha : readArguments ts with
  | error e =>
    cases e with
    | malformed => rfl
    | integerTooLong => exact absurd (bare_error ha) he
  | ok y =>
    obtain ⟨args, us, hus⟩ := y
    cases us with
    | nil => rfl
    | cons u us =>
      cases u with
      | rparen => exact absurd (bare_ok ha) (h args us)
      | _ => rfl

/-- What begins no atom. -/
theorem atom_malformed {s : Token} (h : s = .comma ∨ s = .rparen ∨ s = .rbracket ∨ s = .lbracket ∨
    s = .dot ∨ s = .assign ∨ s = .bang ∨ (∃ o, s = .op o) ∨ (∃ q, s = .sign q) ∨
    (∃ c, s = .invalid c) ∨ (s = .length ∧ ∀ r, ts ≠ .lparen :: r)) :
    atom (s :: ts) = .error .malformed := by
  apply bare_error
  cases s <;> simp_all

/-! ## Subscripts -/

/-- Where no bracket follows there is no subscript. -/
theorem subscripts_of_ne (h : ∀ r, ts ≠ .lbracket :: r) : subscripts x ts = .ok (x, ts) := by
  unfold subscripts
  cases ts with
  | nil => rw [readSubscripts] <;> simp [bare, Except.map]
  | cons s ts =>
    cases s with
    | lbracket => exact absurd rfl (h ts)
    | _ => rw [readSubscripts] <;> simp [bare, Except.map]

/-- An index in brackets subscripts what stands before it, and may be subscripted itself. -/
theorem subscripts_sub {i : Tree} (h : level loosest ts = .ok (i, .rbracket :: r)) :
    subscripts x (.lbracket :: ts) = subscripts (.sub x i) r := by
  obtain ⟨hr, h⟩ := exists_of_bare h
  unfold subscripts
  rw [readSubscripts, h]
  dsimp only
  cases readSubscripts (.sub x i) r with
  | error e => rfl
  | ok y => rfl

/-- An index and a value in brackets update what stands before them. -/
theorem subscripts_upd {i v : Tree} (hi : level loosest ts = .ok (i, .assign :: r))
    (hv : level loosest r = .ok (v, .rbracket :: r')) :
    subscripts x (.lbracket :: ts) = subscripts (.upd x i v) r' := by
  obtain ⟨hr, hi⟩ := exists_of_bare hi
  obtain ⟨hr', hv⟩ := exists_of_bare hv
  unfold subscripts
  rw [readSubscripts, hi]
  dsimp only
  rw [hv]
  dsimp only
  cases readSubscripts (.upd x i v) r' with
  | error e => rfl
  | ok y => rfl

/-- What reading subscripts can do at a bracket: leave it, read a subscript, or read an update. -/
theorem subscripts_cases (h : subscripts x (.lbracket :: ts) = .ok (t, r)) :
    (t = x ∧ r = .lbracket :: ts) ∨
    (∃ i us, level loosest ts = .ok (i, .rbracket :: us) ∧ subscripts (.sub x i) us = .ok (t, r)) ∨
    (∃ i us v vs, level loosest ts = .ok (i, .assign :: us) ∧
      level loosest us = .ok (v, .rbracket :: vs) ∧ subscripts (.upd x i v) vs = .ok (t, r)) := by
  have h' := h
  unfold subscripts at h'
  rw [readSubscripts] at h'
  cases hi : readLevel loosest ts with
  | error e => cases e <;> simp_all [bare, Except.map]
  | ok y =>
    obtain ⟨i, us, hus⟩ := y
    have hi' := bare_ok hi
    cases us with
    | nil => simp_all [bare, Except.map]
    | cons u us =>
      cases u with
      | rbracket => exact .inr (.inl ⟨i, us, hi', (subscripts_sub hi').symm.trans h⟩)
      | assign =>
        rw [hi] at h'
        dsimp only at h'
        cases hv : readLevel loosest us with
        | error e => cases e <;> simp_all [bare, Except.map]
        | ok z =>
          obtain ⟨v, vs, hvs⟩ := z
          have hv' := bare_ok hv
          cases vs with
          | nil => simp_all [bare, Except.map]
          | cons w vs =>
            cases w with
            | rbracket =>
              exact .inr (.inr ⟨i, us, v, vs, hi', hv', (subscripts_upd hi' hv').symm.trans h⟩)
            | _ => simp_all [bare, Except.map]
      | _ => simp_all [bare, Except.map]

/-! ## Arguments -/

/-- There are no arguments where no formula can be read. -/
theorem arguments_malformed (h : level loosest ts = .error .malformed) :
    arguments ts = .ok ([], ts) := by
  unfold arguments
  rw [readArguments, eq_error_of_bare h]
  rfl

/-- An integer with too many digits is refused also in a first argument. -/
theorem arguments_tooLong (h : level loosest ts = .error .integerTooLong) :
    arguments ts = .error .integerTooLong := by
  apply bare_error
  rw [readArguments, eq_error_of_bare h]

/-- Arguments are a formula and those that follow it. -/
theorem arguments_step (h : level loosest ts = .ok (x, r)) :
    arguments ts = (further r).map fun y => (x :: y.1, y.2) := by
  obtain ⟨hr, h⟩ := exists_of_bare h
  unfold arguments further
  rw [readArguments, h]
  dsimp only
  cases readFurther r with
  | error e => rfl
  | ok y => rfl

/-- Where no comma follows there is no further argument. -/
theorem further_of_ne (h : ∀ r, ts ≠ .comma :: r) : further ts = .ok ([], ts) := by
  unfold further
  cases ts with
  | nil => rw [readFurther] <;> simp [bare, Except.map]
  | cons s ts =>
    cases s with
    | comma => exact absurd rfl (h ts)
    | _ => rw [readFurther] <;> simp [bare, Except.map]

/-- A comma that no formula follows is not taken. -/
theorem further_malformed (h : level loosest ts = .error .malformed) :
    further (.comma :: ts) = .ok ([], .comma :: ts) := by
  unfold further
  rw [readFurther, eq_error_of_bare h]
  rfl

/-- An integer with too many digits is refused also in a further argument. -/
theorem further_tooLong (h : level loosest ts = .error .integerTooLong) :
    further (.comma :: ts) = .error .integerTooLong := by
  apply bare_error
  rw [readFurther, eq_error_of_bare h]

/-- Further arguments are a comma, a formula, and those that follow it. -/
theorem further_step (h : level loosest ts = .ok (x, r)) :
    further (.comma :: ts) = (further r).map fun y => (x :: y.1, y.2) := by
  obtain ⟨hr, h⟩ := exists_of_bare h
  unfold further
  rw [readFurther, h]
  dsimp only
  cases readFurther r with
  | error e => rfl
  | ok y => rfl

/-! ## The names of a quantifier -/

/-- A name that no comma follows is the last one of a quantifier. -/
theorem names_last {n : String} (h : ∀ r, ts ≠ .comma :: r) :
    names (.word n :: ts) = some ([n], ts) := by
  unfold names
  rw [readNames]
  · rfl
  · exact h

/-- The names of a quantifier are separated by commas. -/
theorem names_comma {n : String} {ns : List String} (h : names ts = some (ns, r)) :
    names (.word n :: .comma :: ts) = some (n :: ns, r) := by
  obtain ⟨y, hn, he⟩ := Option.map_eq_some_iff.1 h
  obtain ⟨rfl, rfl⟩ := Prod.mk.inj he
  unfold names
  rw [readNames, hn]
  rfl

/-- A comma that no name follows is not taken. -/
theorem names_comma_left {n : String} (h : names ts = none) :
    names (.word n :: .comma :: ts) = some ([n], .comma :: ts) := by
  unfold names
  rw [readNames, Option.map_eq_none_iff.1 h]
  rfl

/-- The names of a quantifier begin with a name. -/
theorem names_eq_none {ts : List Token} (h : ∀ n r, ts ≠ .word n :: r) : names ts = none := by
  unfold names
  cases ts with
  | nil => rw [readNames] <;> simp
  | cons s ts =>
    cases s with
    | word n => exact absurd rfl (h n ts)
    | _ => rw [readNames] <;> simp

/-! ## Malformed texts -/

/-- Reading operators fails only on a number that is too long. -/
theorem operators_ne_malformed : operators k x ts ≠ .error .malformed := by
  induction hn : ts.length using Nat.strongRecOn generalizing x ts with
  | _ n ih =>
    intro h
    cases ts with
    | nil => simp [operators_nil] at h
    | cons s ts =>
      by_cases hs : ∃ op : BinOp, s = .op op ∧ op.level? = some k
      · obtain ⟨op, rfl, hop⟩ := hs
        cases hl : level (operandLevel k) ts with
        | error e =>
          cases e with
          | malformed => simp [operators_malformed hop hl] at h
          | integerTooLong => simp [operators_tooLong hop hl] at h
        | ok y =>
          obtain ⟨y, r⟩ := y
          have hlt := length_level hl
          rw [operators_step hop hl] at h
          rw [List.length_cons] at hn
          exact ih r.length (by omega) rfl h
      · have hs' : ∀ op, s = .op op → op.level? ≠ some k := fun op h₁ h₂ => hs ⟨op, h₁, h₂⟩
        simp [operators_cons hs'] at h

/-- A text is malformed at some level when it begins with no operand. -/
theorem level_eq_malformed_iff :
    level k ts = .error .malformed ↔ operand ts = .error .malformed := by
  induction k with
  | zero => rw [level_zero]
  | succ k ih =>
    rw [← ih]
    constructor
    · intro h
      cases hl : level k ts with
      | error e => rw [← h, level_succ_error hl]
      | ok y => exact absurd (level_succ hl ▸ h) operators_ne_malformed
    · exact level_succ_error

end Tree

end Discharge
