import Mathlib.NumberTheory.Real.Irrational
import Discharge.Decision.Model
import Discharge.Proofs.Semantics.Meaning

/-!
# How values are written

An integer is written in decimal, a rational as a fraction in lowest terms, an irrational algebraic
number with ten decimals, the rest being cut off, and a question mark, and a truth value as a word
(`Meaning.WrittenAs`). There is no more than one way to write a value (`Meaning.WrittenAs.unique`).
-/

namespace Discharge

noncomputable section

/-- The decimal of a real at a place after the point, the first place being zero. -/
def decimalAt (x : ℝ) (i : Nat) : Char := Nat.digitChar (⌊|x| * 10 ^ (i + 1)⌋₊ % 10)

/-- A real with ten decimals, the rest being cut off, and a question mark. -/
def decimalText (x : ℝ) : String :=
  (if x < 0 then "-" else "") ++ toString ⌊|x|⌋₊ ++ "." ++
    String.ofList ((List.range 10).map (decimalAt x)) ++ "?"

namespace Meaning

/-- The text that a value is written as. -/
inductive WrittenAs : Meaning → String → Prop
  | int (n : Int) : WrittenAs (.int n) (toString n)
  | integer (n : Int) : WrittenAs (.real n) (toString n)
  | fraction (n : Int) (d : Nat) (hd : 1 < d) (h : n.natAbs.Coprime d) :
    WrittenAs (.real (n / d)) (toString n ++ "/" ++ toString d)
  | decimals (x : ℝ) (hx : Irrational x) (ha : IsAlgebraic ℚ x) :
    WrittenAs (.real x) (decimalText x)
  | yes {p : Prop} (h : p) : WrittenAs (.bool p) "True"
  | no {p : Prop} (h : ¬ p) : WrittenAs (.bool p) "False"

/-- The text of a rational. -/
theorem WrittenAs.rational (q : Rat) : WrittenAs (.real q) (Scalar.ratText q) := by
  unfold Scalar.ratText
  split
  · next h =>
    have hq : (q : ℝ) = q.num := by rw [Rat.cast_def, h, Nat.cast_one, div_one]
    rw [hq]
    exact .integer q.num
  · next h =>
    rw [Rat.cast_def]
    exact .fraction q.num q.den (by have := q.den_pos; omega) q.reduced

/-- A real is written as a rational or with decimals. -/
theorem WrittenAs.of_real {x : ℝ} {text : String} (h : WrittenAs (.real x) text) :
    (∃ q : Rat, (q : ℝ) = x ∧ text = Scalar.ratText q) ∨ Irrational x ∧ text = decimalText x := by
  cases h with
  | integer n => exact .inl ⟨n, Rat.cast_intCast n, rfl⟩
  | fraction n d hd h =>
    refine .inl ⟨⟨n, d, by omega, h⟩, Rat.cast_def _, ?_⟩
    rw [Scalar.ratText, if_neg (by simpa using hd.ne')]
  | decimals _ hx _ => exact .inr ⟨hx, rfl⟩

/-- There is no more than one way to write a value. -/
theorem WrittenAs.unique {v : Meaning} {text text' : String} (h : v.WrittenAs text)
    (h' : v.WrittenAs text') : text' = text := by
  cases v with
  | int n => cases h; cases h'; rfl
  | real x =>
    obtain ⟨q, rfl, rfl⟩ | ⟨hx, rfl⟩ := h.of_real
    · obtain ⟨q', hq, rfl⟩ | ⟨hx, -⟩ := h'.of_real
      · rw [Rat.cast_inj.1 hq]
      · exact absurd hx q.not_irrational
    · obtain ⟨q', rfl, -⟩ | ⟨-, rfl⟩ := h'.of_real
      · exact absurd hx q'.not_irrational
      · rfl
  | bool p =>
    cases h <;> cases h'
    · rfl
    · contradiction
    · contradiction
    · rfl
  | array => cases h

end Meaning

end

end Discharge
