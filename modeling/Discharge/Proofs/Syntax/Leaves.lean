import Discharge.Proofs.Syntax.Printing

/-!
# Names and literals

The leaves of a tree are its names and literals in the order of the text, the names that quantifiers
bind among them. They can be read off the tokens (`Derives.leaves`), which ties a tree to what it is
printed as without regard to brackets.

A leaf is *legible* if a text can hold it, and *plain* if its text is scanned as that leaf again.
Leaves that are not plain weigh more once printed: a keyword for a name becomes a truth value, and a
float with a power of ten holds the word `e`. So a tree whose print derives a tree of the same
weight has only plain leaves (`Derives.plain_of_total`).
-/

namespace Discharge

open Token (commas Fits IsKeyword IsName Scans Short ofName)

/-- Names and literals. -/
inductive Leaf where
  | name (n : String)
  | int (n : Nat)
  | float (x : Binary64)
  | truth (b : Bool)

/-- The name or literal that a token is. -/
def Token.leaf? : Token → Option Leaf
  | .int digits => some (.int (Decimal.ofDigitValues (digits.map fun c => c.toNat - '0'.toNat)))
  | .float whole fraction =>
    some (.float (Binary64.ofDecimal false (Decimal.ofParts whole fraction)))
  | .truth b => some (.truth b)
  | .word n => some (.name n)
  | _ => none

mutual

/-- The leaves of a tree, from left to right. -/
def Tree.leaves : Tree → List Leaf
  | .int n => [.int n]
  | .float x => [.float x]
  | .truth b => [.truth b]
  | .name n => [.name n]
  | .call n args => .name n :: Tree.leavesArgs args
  | .sub array index => array.leaves ++ index.leaves
  | .upd array index value => array.leaves ++ (index.leaves ++ value.leaves)
  | .len arg => arg.leaves
  | .not arg => arg.leaves
  | .neg arg => arg.leaves
  | .bin _ left right => left.leaves ++ right.leaves
  | .quantified _ names body => names.map .name ++ body.leaves

/-- `Tree.leaves` over the arguments of a call. -/
def Tree.leavesArgs : List Tree → List Leaf
  | [] => []
  | t :: ts => t.leaves ++ Tree.leavesArgs ts

end

/-- The leaves of arguments are those of each of them. -/
theorem Tree.leavesArgs_eq (us : List Tree) : Tree.leavesArgs us = us.flatMap Tree.leaves := by
  induction us with
  | nil => rfl
  | cons t us ih => rw [leavesArgs, ih, List.flatMap_cons]

namespace Token

/-- The leaves among the tokens. -/
def leaves (ts : List Token) : List Leaf := ts.filterMap leaf?

variable {s : Token} {l m : List Token}

@[simp] theorem leaves_nil : leaves [] = [] := rfl

@[simp] theorem leaves_cons : leaves (s :: l) = s.leaf?.toList ++ leaves l := by
  unfold leaves
  cases h : s.leaf? with
  | none => rw [List.filterMap_cons_none h, Option.toList_none, List.nil_append]
  | some x => rw [List.filterMap_cons_some h]; rfl

@[simp] theorem leaves_append : leaves (l ++ m) = leaves l ++ leaves m := List.filterMap_append

@[simp] theorem leaves_commas (xs : List (List Token)) :
    leaves (commas xs) = xs.flatMap leaves := by
  cases xs with
  | nil => rfl
  | cons x xs =>
    rw [commas, leaves_append, List.flatMap_cons, leaves, leaves, List.filterMap_flatMap]
    rfl

/-- The leaves of tokens are those of each of them. -/
theorem mem_leaves {x : Leaf} : x ∈ leaves l ↔ ∃ s ∈ l, s.leaf? = some x := List.mem_filterMap

end Token

variable {st : Stratum} {o : Bool} {l ts : List Token} {t u : Tree}

/-- The leaves of a tree can be read off its tokens. -/
theorem Derives.leaves (h : Derives st o l t) : Token.leaves l = t.leaves := by
  induction h with
  | float w f => rfl
  | int ds => rfl
  | truth b => rfl
  | name n => rfl
  | len _ ih => simp [Token.leaf?, Tree.leaves, ih]
  | call n parts _ ih =>
    have hparts : (parts.map (·.2.1)).flatMap Token.leaves =
        (parts.map (·.2.2)).flatMap Tree.leaves := by
      rw [List.flatMap_map, List.flatMap_map]
      exact List.flatMap_congr ih
    simp [Token.leaf?, Tree.leaves, Tree.leavesArgs_eq, hparts]
  | paren _ ih => simp [Token.leaf?, ih]
  | sub _ _ iha ihi => simp [Token.leaf?, Tree.leaves, iha, ihi]
  | upd _ _ _ iha ihi ihv => simp [Token.leaf?, Tree.leaves, iha, ihi, ihv]
  | operand _ ih => exact ih
  | not _ ih => simp [Token.leaf?, Tree.leaves, ih]
  | neg _ ih => simp [Token.leaf?, Tree.leaves, ih]
  | quantified kind ns _ _ ih =>
    have hnames : (ns.map fun n => [Token.word n]).flatMap Token.leaves = ns.map Leaf.name := by
      rw [List.flatMap_map, List.map_eq_flatMap]
      rfl
    simp [Token.leaf?, Tree.leaves, hnames, ih]
  | tighter _ ih => exact ih
  | left _ _ _ _ ihx ihy => simp [Token.leaf?, Tree.leaves, ihx, ihy]
  | right _ _ ihx ihy => simp [Token.leaf?, Tree.leaves, ihx, ihy]

/-- The float constants of a tree. -/
def Tree.floats (t : Tree) : List Binary64 :=
  t.leaves.filterMap fun | .float x => some x | _ => none

/-- The floats of a tree are its leaves that are floats. -/
theorem Tree.mem_floats {x : Binary64} : x ∈ t.floats ↔ .float x ∈ t.leaves := by
  rw [floats, List.mem_filterMap]
  constructor
  · rintro ⟨y, hy, hx⟩
    cases y <;> simp_all
  · exact fun h => ⟨_, h, rfl⟩

namespace Leaf

variable {x : Leaf}

/-- Whether a text can hold the leaf. -/
def Legible : Leaf → Prop
  | .name n => IsName n
  | .int n => Fits (.int (Nat.toDigits 10 n))
  | .float x => x.Readable
  | .truth _ => True

/-- Whether the leaf is read as itself after it was printed. -/
def Plain : Leaf → Prop
  | .name n => ¬ IsKeyword n
  | .float x => x.Positional
  | _ => True

/-- The tokens of the leaf's text. -/
def tokens : Leaf → List Token
  | .name n => [ofName false n.toList]
  | .int n => [.int (Nat.toDigits 10 n)]
  | .float x => Token.scan x.text
  | .truth b => [.truth b]

/-- A weight that printing never lowers. -/
def weight : Leaf → Nat
  | .name _ => 1
  | .truth _ => 2
  | _ => 0

/-- The weight of several leaves. -/
def total (xs : List Leaf) : Nat := (xs.map weight).sum

end Leaf

/-! ## Legible leaves -/

/-- A number is less than the power of ten of its count of digits. -/
theorem Decimal.ofDigitChars_lt {ds : List Char} (h : ∀ c ∈ ds, c.isDigit = true) :
    Nat.ofDigitChars 10 ds 0 < 10 ^ ds.length := by
  induction ds using List.reverseRecOn with
  | nil => simp
  | append_singleton ds c ih =>
    have hc := (Token.isDigit_iff.1 (h c (by simp))).2
    have hds := ih fun d hd => h d (by simp [hd])
    rw [Nat.ofDigitChars_append, Nat.ofDigitChars_cons, Nat.ofDigitChars_nil, List.length_append,
      List.length_singleton, Nat.pow_succ]
    have : c.toNat - '0'.toNat ≤ 9 := by
      have : '0'.toNat = 48 := rfl
      omega
    omega

/-- A number is not longer than the digits it was read from. -/
theorem Decimal.length_toDigits_ofDigitValues {ds : List Char} (hne : ds ≠ [])
    (h : ∀ c ∈ ds, c.isDigit = true) :
    (Nat.toDigits 10 (ofDigitValues (ds.map fun c => c.toNat - '0'.toNat))).length ≤ ds.length := by
  rw [ofDigitValues_map, Nat.length_toDigits_le_iff (by decide) (List.length_pos_of_ne_nil hne)]
  exact ofDigitChars_lt h

/-- What a text spells is legible. -/
theorem Token.Scans.legible {free g : Bool} {cs : List Char} (h : Scans free g cs ts)
    (hs : Short ts) : ∀ x ∈ leaves ts, x.Legible := by
  induction h with
  | done => simp
  | blank _ _ ih => exact ih hs
  | @token g t s r ts hspell _ _ ih =>
    obtain ⟨ht, hs⟩ := short_cons.1 hs
    intro x hx
    rw [leaves_cons, List.mem_append, Option.mem_toList] at hx
    rcases hx with hx | hx
    · cases hspell with
      | symbol h =>
        cases t with
        | truth b => cases hx; exact trivial
        | int ds => cases h
        | float w f => cases h
        | word n => cases h
        | _ => cases hx
      | numeral h =>
        cases h with
        | int ds hne hd =>
          cases hx
          exact (Decimal.length_toDigits_ofDigitValues hne hd).trans ht
        | float w f =>
          cases hx
          exact Binary64.readable_ofDecimal _
      | word c cs hc hcs =>
        cases hx
        exact ⟨c, cs, rfl, hc, hcs⟩
    · exact ih hs x hx

/-! ## Plain leaves -/

namespace Leaf

variable {x : Leaf}

/-- A leaf does not lose weight when it is printed, and keeps it only if it is plain. -/
theorem weight_le (h : x.Legible) : x.weight ≤ total (Token.leaves x.tokens) ∧
    (x.weight = total (Token.leaves x.tokens) ↔ x.Plain) := by
  cases x with
  | int n => simp [tokens, Token.leaf?, total, weight, Plain]
  | truth b => simp [tokens, Token.leaf?, total, weight, Plain]
  | name n =>
    by_cases hk : IsKeyword n
    · have : ∃ b, ofName false n.toList = .truth b := by
        rcases hk with rfl | rfl
        · exact ⟨true, rfl⟩
        · exact ⟨false, rfl⟩
      obtain ⟨b, hb⟩ := this
      simp [tokens, hb, Token.leaf?, total, weight, Plain, hk]
    · simp [tokens, Token.ofName_of_not_isKeyword hk, Token.leaf?, total, weight, Plain, hk]
  | float x =>
    rcases (Binary64.scan_text h).2 with ⟨hp, w, f, hscan, -⟩ | ⟨hp, hscan⟩
    · simp [tokens, hscan, Token.leaf?, total, weight, Plain, hp]
    · generalize hts : Token.scan x.text = ts at hscan
      cases hscan with
      | infinity => simp [tokens, hts, Token.leaf?, total, weight, Plain, hp]
      | scientific u op es hu =>
        obtain ⟨m, hu⟩ := hu
        cases hu <;> simp [tokens, hts, Token.leaf?, total, weight, Plain, hp]

@[simp] theorem total_cons (x : Leaf) (xs : List Leaf) : total (x :: xs) = x.weight + total xs := by
  simp [total]

@[simp] theorem total_append (xs ys : List Leaf) : total (xs ++ ys) = total xs + total ys := by
  simp [total]

/-- Printing leaves one by one does not lower the weight, and keeps it only if all are plain. -/
theorem total_le {xs : List Leaf} (h : ∀ x ∈ xs, x.Legible) :
    total xs ≤ total (xs.flatMap fun x => Token.leaves x.tokens) ∧
      (total xs = total (xs.flatMap fun x => Token.leaves x.tokens) ↔ ∀ x ∈ xs, x.Plain) := by
  induction xs with
  | nil => simp [total]
  | cons x xs ih =>
    obtain ⟨hle, heq⟩ := weight_le (h x List.mem_cons_self)
    obtain ⟨hsle, hseq⟩ := ih fun y hy => h y (List.mem_cons_of_mem x hy)
    rw [total_cons, List.flatMap_cons, total_append, List.forall_mem_cons, ← heq, ← hseq]
    omega

end Leaf

/-! ## The tokens of a printed tree -/

namespace Tree

mutual

/-- The tokens of a tree's print: every operator and every quantifier stands in parentheses. -/
def tokens : Tree → List Token
  | .int n => (Leaf.int n).tokens
  | .float x => (Leaf.float x).tokens
  | .truth b => (Leaf.truth b).tokens
  | .name n => (Leaf.name n).tokens
  | .call n args => (Leaf.name n).tokens ++ .lparen :: (commas (tokensArgs args) ++ [.rparen])
  | .sub array index => array.tokens ++ .lbracket :: (index.tokens ++ [.rbracket])
  | .upd array index value =>
    array.tokens ++ .lbracket :: (index.tokens ++ .assign :: (value.tokens ++ [.rbracket]))
  | .len arg => .length :: .lparen :: (arg.tokens ++ [.rparen])
  | .not arg => .lparen :: .bang :: (arg.tokens ++ [.rparen])
  | .neg arg => .lparen :: .op .sub :: (arg.tokens ++ [.rparen])
  | .bin op left right => .lparen :: (left.tokens ++ .op op :: (right.tokens ++ [.rparen]))
  | .quantified kind names body =>
    .lparen :: .sign kind :: (commas (names.map fun n => (Leaf.name n).tokens) ++
      .dot :: (body.tokens ++ [.rparen]))

/-- `Tree.tokens` of each argument of a call. -/
def tokensArgs : List Tree → List (List Token)
  | [] => []
  | t :: ts => t.tokens :: tokensArgs ts

end

/-- The tokens of arguments are those of each of them. -/
theorem tokensArgs_eq (us : List Tree) : tokensArgs us = us.map tokens := by
  induction us with
  | nil => rfl
  | cons t us ih => rw [tokensArgs, ih, List.map_cons]

end Tree

/-- The leaves of a printed tree are those of its leaves, printed. -/
theorem Derives.leaves_tokens (h : Derives st o l t) :
    Token.leaves t.tokens = t.leaves.flatMap fun x => Token.leaves x.tokens := by
  induction h with
  | float w f => simp [Tree.tokens, Tree.leaves]
  | int ds => simp [Tree.tokens, Tree.leaves]
  | truth b => simp [Tree.tokens, Tree.leaves]
  | name n => simp [Tree.tokens, Tree.leaves]
  | len _ ih => simp [Tree.tokens, Tree.leaves, Token.leaf?, ih]
  | call n parts _ ih =>
    have hparts : (parts.map (Tree.tokens ∘ (·.2.2))).flatMap Token.leaves =
        (parts.map (·.2.2)).flatMap fun t => t.leaves.flatMap fun x => Token.leaves x.tokens := by
      rw [List.flatMap_map, List.flatMap_map]
      exact List.flatMap_congr ih
    simp [Tree.tokens, Tree.leaves, Token.leaf?, Tree.tokensArgs_eq, Tree.leavesArgs_eq,
      List.flatMap_assoc, hparts]
  | paren _ ih => exact ih
  | sub _ _ iha ihi => simp [Tree.tokens, Tree.leaves, Token.leaf?, iha, ihi]
  | upd _ _ _ iha ihi ihv => simp [Tree.tokens, Tree.leaves, Token.leaf?, iha, ihi, ihv]
  | operand _ ih => exact ih
  | not _ ih => simp [Tree.tokens, Tree.leaves, Token.leaf?, ih]
  | neg _ ih => simp [Tree.tokens, Tree.leaves, Token.leaf?, ih]
  | quantified kind ns _ _ ih =>
    simp [Tree.tokens, Tree.leaves, Token.leaf?, ih, List.flatMap_map]
  | tighter _ ih => exact ih
  | left _ _ _ _ ihx ihy => simp [Tree.tokens, Tree.leaves, Token.leaf?, ihx, ihy]
  | right _ _ ihx ihy => simp [Tree.tokens, Tree.leaves, Token.leaf?, ihx, ihy]

/-- A tree whose print derives a tree of the same weight has only plain leaves. -/
theorem Derives.plain_of_total {st' : Stratum} {o' : Bool} (h : Derives st o l t)
    (hleg : ∀ x ∈ t.leaves, x.Legible) (hu : Derives st' o' t.tokens u)
    (heq : Leaf.total u.leaves = Leaf.total t.leaves) : ∀ x ∈ t.leaves, x.Plain := by
  refine (Leaf.total_le hleg).2.1 ?_
  rw [← h.leaves_tokens, hu.leaves, heq]

/-- A name that is no keyword is one word. -/
theorem Leaf.tokens_name {n : String} (h : (Leaf.name n).Plain) :
    (Leaf.name n).tokens = [.word n] := by
  rw [tokens, Token.ofName_of_not_isKeyword h]

/-- A tree with plain leaves is what its print derives. -/
theorem Derives.print (h : Derives st o l t) (hleg : ∀ x ∈ t.leaves, x.Legible)
    (hplain : ∀ x ∈ t.leaves, x.Plain) : Derives .atom false t.tokens t := by
  induction h with
  | float w f =>
    rcases (Binary64.scan_text (hleg _ List.mem_cons_self)).2 with ⟨-, v, g, hscan, heq⟩ | ⟨hp, -⟩
    · rw [Tree.tokens, Leaf.tokens, hscan]
      have hfloat := Derives.float v g
      rwa [heq] at hfloat
    · exact absurd (hplain _ List.mem_cons_self) hp
  | int ds =>
    have hint := Derives.int (Nat.toDigits 10
      (Decimal.ofDigitValues (ds.map fun c => c.toNat - '0'.toNat)))
    rwa [Decimal.ofDigitValues_map (Nat.toDigits _ _), Nat.ofDigitChars_ten_toDigits] at hint
  | truth b => exact .truth b
  | name n =>
    rw [Tree.tokens, Leaf.tokens_name (hplain _ List.mem_cons_self)]
    exact .name n
  | len _ ih => exact .len (.of_atom (ih hleg hplain))
  | call n parts _ ih =>
    rw [Tree.leaves, List.forall_mem_cons, Tree.leavesArgs_eq] at hleg hplain
    have hparts : ∀ p ∈ parts, Derives .atom false p.2.2.tokens p.2.2 := by
      intro p hp
      have hmem {x : Leaf} (hx : x ∈ p.2.2.leaves) : x ∈ (parts.map (·.2.2)).flatMap Tree.leaves :=
        List.mem_flatMap.2 ⟨p.2.2, List.mem_map_of_mem hp, hx⟩
      exact ih p hp (fun x hx => hleg.2 x (hmem hx)) fun x hx => hplain.2 x (hmem hx)
    have hcall := Derives.call n (parts.map fun p => (false, p.2.2.tokens, p.2.2)) (by
      intro q hq
      obtain ⟨p, hp, rfl⟩ := List.mem_map.1 hq
      exact .of_atom (hparts p hp))
    rw [List.map_map, List.map_map] at hcall
    rw [Tree.tokens, Leaf.tokens_name hplain.1, Tree.tokensArgs_eq, List.map_map]
    exact hcall
  | paren _ ih => exact ih hleg hplain
  | sub _ _ iha ihi =>
    rw [Tree.leaves, List.forall_mem_append] at hleg hplain
    exact .sub (iha hleg.1 hplain.1) (.of_atom (ihi hleg.2 hplain.2))
  | upd _ _ _ iha ihi ihv =>
    rw [Tree.leaves, List.forall_mem_append, List.forall_mem_append] at hleg hplain
    exact .upd (iha hleg.1 hplain.1) (.of_atom (ihi hleg.2.1 hplain.2.1))
      (.of_atom (ihv hleg.2.2 hplain.2.2))
  | operand _ ih => exact ih hleg hplain
  | not _ ih =>
    exact .paren ((Derives.not (.of_atom (ih hleg hplain))).loosen (Nat.zero_le loosest))
  | neg _ ih =>
    exact .paren ((Derives.neg (.of_atom (ih hleg hplain))).loosen (Nat.zero_le loosest))
  | quantified kind ns hne _ ih =>
    rw [Tree.leaves, List.forall_mem_append, List.forall_mem_map] at hleg hplain
    have hnames : ns.map (fun n => (Leaf.name n).tokens) = ns.map fun n => [.word n] :=
      List.map_congr_left fun n hn => Leaf.tokens_name (hplain.1 n hn)
    have hbody := Derives.quantified kind ns hne (.of_atom (ih hleg.2 hplain.2))
    rw [Tree.tokens, hnames]
    simpa using Derives.paren (hbody.loosen (Nat.zero_le loosest))
  | tighter _ ih => exact ih hleg hplain
  | @left k _ _ _ _ _ op hop hk _ _ ihx ihy =>
    rw [Tree.leaves, List.forall_mem_append] at hleg hplain
    have hbin := Derives.left hop hk (.of_atom (ihx hleg.1 hplain.1))
      (.of_atom (ihy hleg.2 hplain.2))
    simpa [Tree.tokens] using
      Derives.paren (hbin.loosen (BinOp.level?_le (mem_operatorsAt.1 hop)))
  | right _ _ ihx ihy =>
    rw [Tree.leaves, List.forall_mem_append] at hleg hplain
    have hbin := Derives.right (.of_atom (ihx hleg.1 hplain.1)) (.of_atom (ihy hleg.2 hplain.2))
    simpa [Tree.tokens] using Derives.paren (hbin.loosen (by decide : implicationLevel ≤ loosest))

/-- The tokens of a legible leaf have no integer with too many digits. -/
theorem Leaf.short_tokens {x : Leaf} (hleg : x.Legible) (hplain : x.Plain) : Short x.tokens := by
  cases x with
  | name n => rw [tokens_name hplain]; simp [Fits]
  | int n => exact Token.short_cons.2 ⟨hleg, Token.short_nil⟩
  | truth b => simp [tokens, Fits]
  | float x =>
    rcases (Binary64.scan_text hleg).2 with ⟨-, w, f, hscan, -⟩ | ⟨hp, -⟩
    · rw [tokens, hscan]
      simp [Fits]
    · exact absurd hplain hp

/-- The print of a tree with plain leaves has no integer beyond the limit on digits. -/
theorem Derives.short_tokens (h : Derives st o l t) (hleg : ∀ x ∈ t.leaves, x.Legible)
    (hplain : ∀ x ∈ t.leaves, x.Plain) : Short t.tokens := by
  have hs : ∀ x ∈ t.leaves, Short x.tokens :=
    fun x hx => Leaf.short_tokens (hleg x hx) (hplain x hx)
  clear hleg hplain
  induction h with
  | float w f => exact hs _ List.mem_cons_self
  | int ds => exact hs _ List.mem_cons_self
  | truth b => exact hs _ List.mem_cons_self
  | name n => exact hs _ List.mem_cons_self
  | len _ ih => simp [Tree.tokens, Fits, ih hs]
  | call n parts _ ih =>
    rw [Tree.leaves, List.forall_mem_cons, Tree.leavesArgs_eq] at hs
    have hparts : Short (commas (parts.map (Tree.tokens ∘ (·.2.2)))) := by
      refine Token.short_commas fun ts hts => ?_
      obtain ⟨p, hp, rfl⟩ := List.mem_map.1 hts
      exact ih p hp fun x hx => hs.2 x (List.mem_flatMap.2 ⟨_, List.mem_map_of_mem hp, hx⟩)
    simp [Tree.tokens, Fits, Tree.tokensArgs_eq, hs.1, hparts]
  | paren _ ih => exact ih hs
  | sub _ _ iha ihi =>
    rw [Tree.leaves, List.forall_mem_append] at hs
    simp [Tree.tokens, Fits, iha hs.1, ihi hs.2]
  | upd _ _ _ iha ihi ihv =>
    rw [Tree.leaves, List.forall_mem_append, List.forall_mem_append] at hs
    simp [Tree.tokens, Fits, iha hs.1, ihi hs.2.1, ihv hs.2.2]
  | operand _ ih => exact ih hs
  | not _ ih => simp [Tree.tokens, Fits, ih hs]
  | neg _ ih => simp [Tree.tokens, Fits, ih hs]
  | quantified kind ns _ _ ih =>
    rw [Tree.leaves, List.forall_mem_append, List.forall_mem_map] at hs
    have hnames : Short (commas (ns.map fun n => (Leaf.name n).tokens)) := by
      refine Token.short_commas fun ts hts => ?_
      obtain ⟨n, hn, rfl⟩ := List.mem_map.1 hts
      exact hs.1 n hn
    simp [Tree.tokens, Fits, hnames, ih hs.2]
  | tighter _ ih => exact ih hs
  | left _ _ _ _ ihx ihy =>
    rw [Tree.leaves, List.forall_mem_append] at hs
    simp [Tree.tokens, Fits, ihx hs.1, ihy hs.2]
  | right _ _ ihx ihy =>
    rw [Tree.leaves, List.forall_mem_append] at hs
    simp [Tree.tokens, Fits, ihx hs.1, ihy hs.2]

end Discharge
