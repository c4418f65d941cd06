import Discharge.Syntax.Reader

/-!
# The grammar of formulas

`Derives` says which tokens spell which syntax tree, with no order of choices and no lookahead. It
is stratified: atoms, operands, and one level for each of the eight ranks of binary operators.

A quantifier may stand as any operand, but it has no end of its own: nothing that could belong to
its body may follow it. The flag of `Derives` marks the expressions that end in such a body, the
*open* ones, and an open expression is nobody's left operand and nobody's array. Thus it reaches to
the bracket or comma that closes it, or to the end of the text.
-/

namespace Discharge

/-- The operators of a level; level 0 has none. -/
def operatorsAt : Nat → List BinOp
  | 1 => [.mul, .div, .mod]
  | 2 => [.add, .sub]
  | 3 => [.le, .ge, .lt, .gt]
  | 4 => [.eq, .ne]
  | 5 => [.and]
  | 6 => [.or]
  | 7 => [.implies]
  | 8 => [.iff]
  | _ => []

/-- The level of `=>`, the only one that groups to the right. -/
def implicationLevel : Nat := 7

/-- Lists of tokens with a comma between any two. -/
def Token.commas : List (List Token) → List Token
  | [] => []
  | x :: xs => x ++ xs.flatMap (Token.comma :: ·)

/-- The strata of the grammar. Level 0 is an operand. -/
inductive Stratum where
  | atom
  | level (k : Nat)

open Token (commas)

/-- `Derives s o ts t`: the tokens `ts` spell the tree `t` in the stratum `s`, and `o` says whether
the expression is open. -/
inductive Derives : Stratum → Bool → List Token → Tree → Prop
  | float (whole fraction : List Nat) :
      Derives .atom false [.float whole fraction]
        (.float (Binary64.ofDecimal false (Decimal.ofParts whole fraction)))
  | int (digits : List Char) :
      Derives .atom false [.int digits]
        (.int (Decimal.ofDigitValues (digits.map fun c => c.toNat - '0'.toNat)))
  | truth (b : Bool) : Derives .atom false [.truth b] (.truth b)
  | len {o l t} (h : Derives (.level loosest) o l t) :
      Derives .atom false (.length :: .lparen :: (l ++ [.rparen])) (.len t)
  | call (n : String) (parts : List (Bool × List Token × Tree))
      (h : ∀ p ∈ parts, Derives (.level loosest) p.1 p.2.1 p.2.2) :
      Derives .atom false (.word n :: .lparen :: (commas (parts.map (·.2.1)) ++ [.rparen]))
        (.call n (parts.map (·.2.2)))
  | name (n : String) : Derives .atom false [.word n] (.name n)
  | paren {o l t} (h : Derives (.level loosest) o l t) :
      Derives .atom false (.lparen :: (l ++ [.rparen])) t
  | sub {o a x l i} (ha : Derives .atom false a x) (hi : Derives (.level loosest) o l i) :
      Derives .atom false (a ++ .lbracket :: (l ++ [.rbracket])) (.sub x i)
  | upd {o o' a x l i m v} (ha : Derives .atom false a x) (hi : Derives (.level loosest) o l i)
      (hv : Derives (.level loosest) o' m v) :
      Derives .atom false (a ++ .lbracket :: (l ++ .assign :: (m ++ [.rbracket]))) (.upd x i v)
  | operand {l t} (h : Derives .atom false l t) : Derives (.level 0) false l t
  | not {o l t} (h : Derives (.level 0) o l t) : Derives (.level 0) o (.bang :: l) (.not t)
  | neg {o l t} (h : Derives (.level 0) o l t) : Derives (.level 0) o (.op .sub :: l) (.neg t)
  | quantified {o l t} (kind : Quantifier) (names : List String) (hne : names ≠ [])
      (h : Derives (.level loosest) o l t) :
      Derives (.level 0) true (.sign kind :: (commas (names.map fun n => [.word n]) ++ .dot :: l))
        (.quantified kind names t)
  | tighter {k o l t} (h : Derives (.level k) o l t) : Derives (.level (k + 1)) o l t
  | left {k o l m x y op} (hop : op ∈ operatorsAt k) (hk : k ≠ implicationLevel)
      (hx : Derives (.level k) false l x) (hy : Derives (.level (k - 1)) o m y) :
      Derives (.level k) o (l ++ .op op :: m) (.bin op x y)
  | right {o l m x y} (hx : Derives (.level (implicationLevel - 1)) false l x)
      (hy : Derives (.level implicationLevel) o m y) :
      Derives (.level implicationLevel) o (l ++ .op .implies :: m) (.bin .implies x y)

/-- The tokens of each list are among those of all with commas between them. -/
theorem Token.mem_commas {x : List Token} {xs : List (List Token)} {s : Token} (hx : x ∈ xs)
    (hs : s ∈ x) : s ∈ commas xs := by
  cases xs with
  | nil => cases hx
  | cons y ys =>
    rcases List.mem_cons.1 hx with rfl | hx
    · exact List.mem_append_left _ hs
    · exact List.mem_append_right _ (List.mem_flatMap.2 ⟨x, hx, List.mem_cons_of_mem _ hs⟩)

/-- The tokens of lists with commas between them are commas and those of the lists. -/
theorem Token.eq_comma_or_mem {xs : List (List Token)} {s : Token} (hs : s ∈ commas xs) :
    s = .comma ∨ ∃ x ∈ xs, s ∈ x := by
  cases xs with
  | nil => cases hs
  | cons y ys =>
    rcases List.mem_append.1 hs with hs | hs
    · exact .inr ⟨y, List.mem_cons_self, hs⟩
    · obtain ⟨x, hx, hs⟩ := List.mem_flatMap.1 hs
      exact (List.mem_cons.1 hs).imp id fun hs => ⟨x, List.mem_cons_of_mem y hx, hs⟩

namespace Token

/-- Whether an integer is within the limit on digits. -/
def Fits : Token → Prop
  | .int digits => digits.length ≤ integerDigitLimit
  | _ => True

/-- Whether all integers among the tokens are within the limit on digits. -/
def Short (ts : List Token) : Prop := ∀ s ∈ ts, s.Fits

@[simp] theorem short_nil : Short [] := fun _ h => nomatch h

@[simp] theorem short_cons {s : Token} {l : List Token} : Short (s :: l) ↔ s.Fits ∧ Short l :=
  List.forall_mem_cons

@[simp] theorem short_append {l m : List Token} : Short (l ++ m) ↔ Short l ∧ Short m :=
  List.forall_mem_append

/-- Lists without integers that are too long have none with commas between them. -/
theorem short_commas {xs : List (List Token)} (h : ∀ x ∈ xs, Short x) : Short (commas xs) := by
  intro s hs
  rcases eq_comma_or_mem hs with rfl | ⟨x, hx, hs⟩
  · exact trivial
  · exact h x hx s hs

end Token

/-- The operators at a level are those that have it. -/
theorem mem_operatorsAt {op : BinOp} {k : Nat} : op ∈ operatorsAt k ↔ op.level? = some k := by
  unfold operatorsAt
  cases op <;> simp only [BinOp.level?] <;> split <;> simp_all <;> omega

/-- The levels of operators begin at one. -/
theorem BinOp.level?_pos {op : BinOp} {k : Nat} (h : op.level? = some k) : 0 < k := by
  cases op <;> simp [BinOp.level?] at h <;> omega

/-- No operator is looser than the loosest level. -/
theorem BinOp.level?_le {op : BinOp} {k : Nat} (h : op.level? = some k) : k ≤ loosest := by
  cases op <;> simp [BinOp.level?] at h <;> simp [loosest] <;> omega

/-- `=>` is the only operator of its level. -/
theorem BinOp.eq_implies {op : BinOp} (h : op.level? = some implicationLevel) : op = .implies := by
  cases op <;> simp [BinOp.level?, implicationLevel] at h ⊢

/-- An expression of a level is one of every looser level. -/
theorem Derives.loosen {k j : Nat} {o : Bool} {l : List Token} {t : Tree}
    (h : Derives (.level k) o l t) (hkj : k ≤ j) : Derives (.level j) o l t := by
  induction hkj with
  | refl => exact h
  | step _ ih => exact .tighter ih

/-- An atom is an expression of every level. -/
theorem Derives.of_atom {k : Nat} {l : List Token} {t : Tree} (h : Derives .atom false l t) :
    Derives (.level k) false l t :=
  (Derives.operand h).loosen (Nat.zero_le k)

end Discharge
