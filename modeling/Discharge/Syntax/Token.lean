import Discharge.Expr.Basic

/-!
# Tokens of the assertion syntax

`scan` cuts a text into tokens, each as long as possible; blanks may stand before any token and
within none. A character that begins no token is a token of its own, `invalid`, which no formula
holds.

A quantifier sign may be followed directly by a name. That name is then taken as one even if it
spells `true` or `false`; anywhere else these two are keywords.
-/

namespace Discharge

/-! ## Decimal digits of all scripts

The characters that stand for the digits zero to nine in some script (general category Nd) come in
runs of ten, in order. `decimalZeros` lists where the runs begin, and `decimalDigit?` gives a
character's digit.
-/

/-- The code points of the digits zero, in ascending order. -/
def decimalZeros : List Nat :=
  [0x30, 0x660, 0x6f0, 0x7c0, 0x966, 0x9e6, 0xa66, 0xae6, 0xb66, 0xbe6, 0xc66, 0xce6, 0xd66, 0xde6,
   0xe50, 0xed0, 0xf20, 0x1040, 0x1090, 0x17e0, 0x1810, 0x1946, 0x19d0, 0x1a80, 0x1a90, 0x1b50,
   0x1bb0, 0x1c40, 0x1c50, 0xa620, 0xa8d0, 0xa900, 0xa9d0, 0xa9f0, 0xaa50, 0xabf0, 0xff10, 0x104a0,
   0x10d30, 0x11066, 0x110f0, 0x11136, 0x111d0, 0x112f0, 0x11450, 0x114d0, 0x11650, 0x116c0,
   0x11730, 0x118e0, 0x11950, 0x11c50, 0x11d50, 0x11da0, 0x11f50, 0x16a60, 0x16ac0, 0x16b50,
   0x1d7ce, 0x1d7d8, 0x1d7e2, 0x1d7ec, 0x1d7f6, 0x1e140, 0x1e2f0, 0x1e4f0, 0x1e950, 0x1fbf0]

/-- The value of a decimal digit of any script. -/
def decimalDigit? (c : Char) : Option Nat :=
  (decimalZeros.find? fun z => z ≤ c.toNat && c.toNat < z + 10).map fun z => c.toNat - z

/-- Whether the character is a decimal digit of some script. -/
def isDecimalDigit (c : Char) : Bool := (decimalDigit? c).isSome

/-! ## Scanning -/

/-- Tokens. Numbers keep their digits. -/
inductive Token where
  | int (digits : List Char)
  | float (whole fraction : List Nat)
  | truth (b : Bool)
  | word (name : String)
  | sign (kind : Quantifier)
  | length
  | op (o : BinOp)
  | bang
  | lparen | rparen | lbracket | rbracket
  | comma | dot | assign
  | invalid (c : Char)
deriving DecidableEq

namespace Token

/-- Space, tab, line feed and carriage return. -/
def isBlank (c : Char) : Bool := c == ' ' || c == '\t' || c == '\n' || c == '\r'

/-- ASCII letters, which begin names. -/
def isNameStart (c : Char) : Bool := c.isAlpha

/-- ASCII letters, digits and the underscore, which continue names. -/
def isNamePart (c : Char) : Bool := c.isAlphanum || c == '_'

/-- What follows a given beginning of a text. -/
def rest? : List Char → List Char → Option (List Char)
  | [], cs => some cs
  | _ :: _, [] => none
  | p :: ps, c :: cs => if p = c then rest? ps cs else none

/-- The tokens of fixed spelling; of two that fit, the longer comes first. -/
def fixed : List (List Char × Token) :=
  [(['<', '=', '>'], .op .iff),
   (['<', '='], .op .le), (['>', '='], .op .ge), (['=', '='], .op .eq), (['!', '='], .op .ne),
   (['&', '&'], .op .and), (['|', '|'], .op .or), (['=', '>'], .op .implies), ([':', '='], .assign),
   (['*'], .op .mul), (['/'], .op .div), (['%'], .op .mod), (['+'], .op .add), (['-'], .op .sub),
   (['<'], .op .lt), (['>'], .op .gt), (['!'], .bang),
   (['('], .lparen), ([')'], .rparen), (['['], .lbracket), ([']'], .rbracket),
   ([','], .comma), (['.'], .dot),
   (['\\', 'f', 'o', 'r', 'a', 'l', 'l'], .sign .all),
   (['\\', 'e', 'x', 'i', 's', 't', 's'], .sign .ex),
   (['\\', 'l', 'e', 'n', 'g', 't', 'h'], .length)]

/-- The token of fixed spelling at the front of a text, and what follows it. -/
def fixed? (cs : List Char) : Option (Token × List Char) :=
  fixed.findSome? fun (spelling, token) => (rest? spelling cs).map fun r => (token, r)

/-- The token of a name. `glued` says that the name directly follows a quantifier sign. -/
def ofName (glued : Bool) (name : List Char) : Token :=
  if glued then .word (String.ofList name)
  else if name = ['t', 'r', 'u', 'e'] then .truth true
  else if name = ['f', 'a', 'l', 's', 'e'] then .truth false
  else .word (String.ofList name)

/-- The number at the front of a text that begins with a decimal digit: digits of any script around
a point, else ASCII digits alone. -/
def number (cs : List Char) : Token × List Char :=
  let whole := cs.takeWhile isDecimalDigit
  match cs.dropWhile isDecimalDigit with
  | '.' :: r =>
    let fraction := r.takeWhile isDecimalDigit
    if fraction.isEmpty then integer cs
    else (.float (whole.filterMap decimalDigit?) (fraction.filterMap decimalDigit?),
      r.dropWhile isDecimalDigit)
  | _ => integer cs
where
  /-- The ASCII digits at the front of a text. -/
  integer : List Char → Token × List Char
    | [] => (.int [], [])
    | c :: cs =>
      if c.isDigit then (.int (c :: cs.takeWhile Char.isDigit), cs.dropWhile Char.isDigit)
      else (.invalid c, cs)

/-- The first token of a text that begins with `c` and goes on with `cs`, and what follows it. -/
def front (glued : Bool) (c : Char) (cs : List Char) : Token × List Char :=
  if isNameStart c then (ofName glued (c :: cs.takeWhile isNamePart), cs.dropWhile isNamePart)
  else if isDecimalDigit c then number (c :: cs)
  else (fixed? (c :: cs)).getD (.invalid c, cs)

/-- Whether the token is a quantifier sign. -/
def isSign : Token → Bool
  | .sign _ => true
  | _ => false

/-- What is left behind a prefix is shorter by it. -/
theorem length_rest? {p cs r : List Char} (h : rest? p cs = some r) :
    r.length + p.length = cs.length := by
  induction p generalizing cs with
  | nil => simp [rest?] at h; simp [h]
  | cons a p ih =>
    cases cs with
    | nil => simp [rest?] at h
    | cons c cs =>
      by_cases hac : a = c
      · simp [rest?, hac] at h; have := ih h; simp; omega
      · simp [rest?, hac] at h

/-- What is left behind a run is not longer than the whole. -/
theorem length_dropWhile_le (p : Char → Bool) (l : List Char) :
    (l.dropWhile p).length ≤ l.length :=
  (List.dropWhile_sublist p).length_le

/-- A fixed token takes at least one character. -/
theorem length_fixed? {cs r : List Char} {t : Token} (h : fixed? cs = some (t, r)) :
    r.length < cs.length := by
  obtain ⟨⟨spelling, token⟩, hm, hr⟩ := List.exists_of_findSome?_eq_some h
  obtain ⟨r', hr', he⟩ := Option.map_eq_some_iff.1 hr
  have hl := length_rest? hr'
  have hne : ∀ p ∈ fixed, 0 < p.1.length := by decide
  have := hne _ hm
  simp only [Prod.mk.injEq] at he
  rw [← he.2]
  simp only at this
  omega

/-- An integer takes at least one character. -/
theorem length_integer (c : Char) (cs : List Char) :
    (number.integer (c :: cs)).2.length ≤ cs.length := by
  simp only [number.integer]
  split
  · exact length_dropWhile_le _ _
  · exact Nat.le_refl _

/-- A number takes at least one character. -/
theorem length_number {c : Char} {cs : List Char} (hc : isDecimalDigit c = true) :
    (number (c :: cs)).2.length ≤ cs.length := by
  have hd : ((c :: cs).dropWhile isDecimalDigit).length ≤ cs.length := by
    rw [List.dropWhile_cons, hc]; exact length_dropWhile_le _ _
  unfold number
  simp only
  split
  · next r hr =>
    split
    · exact length_integer c cs
    · rw [hr] at hd
      have := length_dropWhile_le isDecimalDigit r
      simp only [List.length_cons] at hd
      simp only
      omega
  · exact length_integer c cs

/-- A token takes at least one character. -/
theorem length_front (glued : Bool) (c : Char) (cs : List Char) :
    (front glued c cs).2.length ≤ cs.length := by
  unfold front
  split
  · exact length_dropWhile_le _ _
  · split
    · next h => exact length_number h
    · cases h : fixed? (c :: cs) with
      | none => simp
      | some p =>
        obtain ⟨t, r⟩ := p
        have := length_fixed? h
        simp only [List.length_cons] at this
        simp only [Option.getD_some]
        omega

/-- The tokens of a text. `glued` says that the text directly follows a quantifier sign. -/
def scanFrom (glued : Bool) : List Char → List Token
  | [] => []
  | c :: cs =>
    if isBlank c then scanFrom false cs
    else (front glued c cs).1 :: scanFrom (front glued c cs).1.isSign (front glued c cs).2
termination_by cs => cs.length
decreasing_by
  · simp
  · have := length_front glued c cs
    simp only [List.length_cons]
    omega

/-- The tokens of a text. -/
def scan (text : String) : List Token := scanFrom false text.toList

end Token

end Discharge
