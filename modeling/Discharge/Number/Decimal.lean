import Discharge.Number.Binary64

/-!
# Decimal numerals

A `Decimal` is a run of digits with a power of ten. It has an exact rational value, and
`Binary64.ofDecimal` rounds it to the nearest double. `Binary64.ofText?` reads the usual written
forms: a sign, digits with an optional point and an optional power of ten, or a word for infinity or
for "not a number".
-/

namespace Discharge

/-! ## Numerals and their nearest doubles -/

/-- The number `digits * 10 ^ exponent`. -/
structure Decimal where
  digits : Nat
  exponent : Int
deriving DecidableEq

namespace Decimal

/-- The exact value. -/
def toRat (d : Decimal) : Rat :=
  if 0 ≤ d.exponent then ((d.digits * Nat.pow 10 d.exponent.toNat : Nat) : Rat)
  else mkRat d.digits (Nat.pow 10 (-d.exponent).toNat)

/-- The number that a run of digit values spells. -/
def ofDigitValues (values : List Nat) : Nat := values.foldl (fun n v => 10 * n + v) 0

/-- The numeral with the given digits before and after its point. -/
def ofParts (whole fraction : List Nat) : Decimal :=
  ⟨ofDigitValues (whole ++ fraction), -fraction.length⟩

/-- The same value without trailing zeros; zero has the exponent zero. The bound on the steps is the
number of binary digits, which no count of decimal zeros exceeds. -/
def trimmed (d : Decimal) : Decimal :=
  if d.digits = 0 then ⟨0, 0⟩ else strip d.digits.log2 d
where
  /-- Drops at most `n` trailing zeros. -/
  strip : Nat → Decimal → Decimal
    | 0, d => d
    | n + 1, d => if d.digits % 10 = 0 then strip n ⟨d.digits / 10, d.exponent + 1⟩ else d

end Decimal

namespace Binary64

/-- The double nearest to a decimal numeral. Exponents far outside the range of doubles are answered
without computing the power. -/
def ofDecimal (negative : Bool) (d : Decimal) : Binary64 :=
  if d.digits = 0 || d.exponent + d.digits.log2 + 400 < 0 then ofRank negative 0
  else if 400 < d.exponent then .infinity negative
  else if 0 ≤ d.exponent then nearest negative (d.digits * Nat.pow 10 d.exponent.toNat) 1
  else nearest negative d.digits (Nat.pow 10 (-d.exponent).toNat)

/-- The value of an ASCII digit. -/
def asciiDigit? (c : Char) : Option Nat :=
  if c.isDigit then some (c.toNat - '0'.toNat) else none

/-- The digit values at the front of a text, and what follows them. -/
def leadingDigits : List Char → List Nat × List Char
  | [] => ([], [])
  | c :: cs =>
    match asciiDigit? c with
    | some v => let (vs, rest) := leadingDigits cs; (v :: vs, rest)
    | none => ([], c :: cs)

/-- Reads an exponent mark with its power of ten, or nothing at the end of the text. -/
def exponent? : List Char → Option Int
  | [] => some 0
  | c :: cs =>
    if c = 'e' || c = 'E' then
      let (negative, ds) := match cs with
        | '-' :: r => (true, r)
        | '+' :: r => (false, r)
        | r => (false, r)
      match leadingDigits ds with
      | (v :: vs, []) =>
        let n : Int := Decimal.ofDigitValues (v :: vs)
        some (if negative then -n else n)
      | _ => none
    else none

/-- Reads an unsigned numeral or word. -/
def unsigned? (negative : Bool) (cs : List Char) : Option Binary64 :=
  let word := String.ofList (cs.map Char.toLower)
  if word = "inf" || word = "infinity" then some (.infinity negative)
  else if word = "nan" then some .nan
  else
    let (whole, rest) := leadingDigits cs
    let (fraction, tail) := match rest with
      | '.' :: r => leadingDigits r
      | r => ([], r)
    if whole.isEmpty && fraction.isEmpty then none
    else (exponent? tail).map fun e =>
      let d := Decimal.ofParts whole fraction
      ofDecimal negative ⟨d.digits, d.exponent + e⟩

/-- Reads a written number, rounding to the nearest double. -/
def ofText? (text : String) : Option Binary64 :=
  match text.toList with
  | '-' :: cs => unsigned? true cs
  | '+' :: cs => unsigned? false cs
  | cs => unsigned? false cs

end Binary64

/-! ## The shortest decimal of a double

`Binary64.shortest` gives the numeral with the fewest digits among those that `nearest` takes back
to the number, and of these the closest one. The reals that round to a number of rank `r` lie
between the two midpoints to its neighbours, the midpoints included exactly when `r` is even. For
each count of digits only the two decimals next to the number have to be tried: if any decimal of
that many digits lies in the interval, then one of these two does.
-/

namespace Binary64

/-- The decimal exponent of a positive fraction: `10 ^ (p - 1) ≤ num / den < 10 ^ p`. `den` is the
number of units per one, so that 400 more places always leave a whole part. -/
def decimalPosition (magnitude : Nat) : Int :=
  let whole := magnitude * Nat.pow 10 400 / unitsPerOne
  ((Nat.toDigits 10 whole).length : Int) - 400

/-- The fraction `magnitude * 10 ^ (-exponent)` of units. -/
def onGrid (magnitude : Nat) (exponent : Int) : Nat × Nat :=
  if 0 ≤ exponent then (magnitude, unitsPerOne * Nat.pow 10 exponent.toNat)
  else (magnitude * Nat.pow 10 (-exponent).toNat, unitsPerOne)

/-- Whether `point * 10 ^ exponent` rounds to the number of rank `rank`, which is positive. -/
def roundsTo (rank point : Nat) (exponent : Int) : Bool :=
  let (low, den) := onGrid (units (rank - 1) + units rank) exponent
  let (high, _) := onGrid (units rank + units (rank + 1)) exponent
  let twice := 2 * point * den
  if rank % 2 = 0 then low ≤ twice && twice ≤ high else low < twice && twice < high

/-- The decimal of a given grid that rounds to the number, the closer one if there are two, and of two
equally close ones the even. -/
def onGrid? (rank : Nat) (exponent : Int) : Option Decimal :=
  let (num, den) := onGrid (units rank) exponent
  let below := num / den
  let above := below + 1
  match roundsTo rank below exponent, roundsTo rank above exponent with
  | false, false => none
  | true, false => some ⟨below, exponent⟩
  | false, true => some ⟨above, exponent⟩
  | true, true =>
    let cut := num % den
    if 2 * cut < den || (2 * cut == den && below % 2 == 0) then some ⟨below, exponent⟩
    else some ⟨above, exponent⟩

/-- The shortest decimal that rounds to the number of a positive rank. Seventeen digits always do. -/
def shortest (rank : Nat) : Decimal :=
  if rank = 0 then ⟨0, 0⟩
  else
    let position := decimalPosition (units rank)
    let hits := (List.range 17).findSome? fun n => onGrid? rank (position - (n + 1 : Nat))
    (hits.getD ⟨0, 0⟩).trimmed

/-- The rational that the shortest decimal of a finite number spells. -/
def decimalValue? : Binary64 → Option Rat
  | .finite negative rank =>
    let value := (shortest rank).toRat
    some (if negative then -value else value)
  | _ => none

end Binary64

/-! ## Written numbers

How numbers are written: an integer in decimal digits, a double by its shortest decimal. A
`Layout` says where positional notation ends and how the power of ten is written otherwise.
-/

/-- How a decimal is laid out as text. -/
structure Layout where
  /-- The least exponent of the first digit that is still written positionally. -/
  lowest : Int
  /-- The least exponent of the first digit that is no longer written positionally. -/
  limit : Int
  /-- The least number of digits in a written power of ten. -/
  exponentDigits : Nat

/-- Numbers from `10 ^ (-4)` to below `10 ^ 16` are written positionally, others with a signed power
of ten of at least two digits. -/
def Layout.standard : Layout := ⟨-4, 16, 2⟩

namespace Layout

/-- `n` zeros. -/
def zeros (n : Nat) : List Char := List.replicate n '0'

/-- Digits with a point after the first `whole` of them, which may lie outside the digits; each side
of the point has a digit. -/
def positional (digits : List Char) (whole : Int) : List Char :=
  if whole ≤ 0 then '0' :: '.' :: zeros (-whole).toNat ++ digits
  else
    let n := whole.toNat
    if digits.length ≤ n then digits ++ zeros (n - digits.length) ++ ['.', '0']
    else digits.take n ++ '.' :: digits.drop n

/-- A signed power of ten. -/
def power (layout : Layout) (exponent : Int) : List Char :=
  let digits := Nat.toDigits 10 exponent.natAbs
  'e' :: (if exponent < 0 then '-' else '+') ::
    zeros (layout.exponentDigits - digits.length) ++ digits

/-- Digits with a point after the first, and the power of ten of the first. -/
def scientific (layout : Layout) (digits : List Char) (exponent : Int) : List Char :=
  match digits with
  | [] => []
  | [d] => d :: layout.power exponent
  | d :: ds => d :: '.' :: ds ++ layout.power exponent

/-- The text of a decimal. -/
def write (layout : Layout) (d : Decimal) : List Char :=
  let digits := Nat.toDigits 10 d.digits
  let first := d.exponent + digits.length - 1
  if d.digits = 0 || (layout.lowest ≤ first && first < layout.limit) then
    positional digits (first + 1)
  else layout.scientific digits first

end Layout

/-- The text of a double: its shortest decimal in the standard layout, or a word. -/
def Binary64.text : Binary64 → String
  | .nan => "nan"
  | .infinity negative => if negative then "-inf" else "inf"
  | .finite negative rank =>
    let body := Layout.standard.write (shortest rank)
    String.ofList (if negative then '-' :: body else body)

/-- The most digits that an integer may have to be read or written. -/
def integerDigitLimit : Nat := 4300

/-- The text of an integer, unless it has too many digits. -/
def integerText? (n : Int) : Option String :=
  if n.natAbs < Nat.pow 10 integerDigitLimit then some (toString n) else none

end Discharge
