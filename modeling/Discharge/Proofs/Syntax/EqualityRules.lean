import Discharge.Expr.Basic
import Mathlib.Data.List.Forall2

/-!
# Rules of equality

`Exp.equal` compares two expressions part by part, and doubles by value. An expression is equal to
those of the same form whose parts are equal to its own, as there is one lemma for each constructor
to say.

`EqualityRules P` says that a relation `P` of expressions is closed under these ways to be equal, and
`EqualityRules.holds` that it then holds of all equal expressions.
-/

namespace Discharge

/-! ## Equal expressions -/

namespace Exp

variable {e a b c : Exp} {as : List Exp}

/-- A reference is equal to the same reference only. -/
theorem equal_var {v : Variable} : (var v).equal e = true ↔ var v = e := by
  cases e with
  | var w =>
    show (v == w) = true ↔ _
    simp
  | _ => exact iff_of_false Bool.false_ne_true nofun

/-- An integer is equal to the same integer only. -/
theorem equal_int {n : Int} : (int n).equal e = true ↔ int n = e := by
  cases e with
  | int m =>
    show (n == m) = true ↔ _
    simp
  | _ => exact iff_of_false Bool.false_ne_true nofun

/-- A float is equal to the floats that compare as equal to it. -/
theorem equal_float {x : Binary64} :
    (float x).equal e = true ↔ ∃ y, float y = e ∧ x.equal y = true := by
  cases e with
  | float y => exact ⟨fun h => ⟨y, rfl, h⟩, fun ⟨_, rfl, h⟩ => h⟩
  | _ => exact iff_of_false Bool.false_ne_true nofun

/-- A truth value is equal to the same truth value only. -/
theorem equal_bool {t : Bool} : (bool t).equal e = true ↔ bool t = e := by
  cases e with
  | bool u =>
    show (t == u) = true ↔ _
    simp
  | _ => exact iff_of_false Bool.false_ne_true nofun

/-- A call is equal to the calls of one predicate with equal bodies and equal arguments. -/
theorem equal_call {n : String} {ps : List Variable} : (call n ps b as).equal e = true ↔
    ∃ c cs, call n ps c cs = e ∧ b.equal c = true ∧ equalArgs as cs = true := by
  cases e with
  | call m qs c cs =>
    show (n == m && ps == qs && b.equal c && equalArgs as cs) = true ↔ _
    simp [and_assoc]
  | _ => exact iff_of_false Bool.false_ne_true nofun

/-- A subscript is equal to the subscripts with equal parts. -/
theorem equal_sub : (sub a b).equal e = true ↔
    ∃ a' b', sub a' b' = e ∧ a.equal a' = true ∧ b.equal b' = true := by
  cases e with
  | sub a' b' =>
    show (a.equal a' && b.equal b') = true ↔ _
    simp [and_assoc]
  | _ => exact iff_of_false Bool.false_ne_true nofun

/-- An update is equal to the updates with equal parts and the same length variable. -/
theorem equal_upd {l : Variable} : (upd a b c l).equal e = true ↔ ∃ a' b' c', upd a' b' c' l = e ∧
    a.equal a' = true ∧ b.equal b' = true ∧ c.equal c' = true := by
  cases e with
  | upd a' b' c' m =>
    show (a.equal a' && b.equal b' && c.equal c' && l == m) = true ↔ _
    simp only [Bool.and_eq_true, beq_iff_eq, and_assoc, upd.injEq]
    constructor
    · rintro ⟨ha, hb, hc, hl⟩
      exact ⟨a', b', c', rfl, rfl, rfl, hl, ha, hb, hc⟩
    · rintro ⟨_, _, _, rfl, rfl, rfl, hl, ha, hb, hc⟩
      exact ⟨ha, hb, hc, hl⟩
  | _ => exact iff_of_false Bool.false_ne_true nofun

/-- A negation is equal to the negations of equal operands. -/
theorem equal_not : (not a).equal e = true ↔ ∃ a', not a' = e ∧ a.equal a' = true := by
  cases e with
  | not a' => exact ⟨fun h => ⟨a', rfl, h⟩, fun ⟨_, rfl, h⟩ => h⟩
  | _ => exact iff_of_false Bool.false_ne_true nofun

/-- A negative is equal to the negatives of equal operands. -/
theorem equal_neg : (neg a).equal e = true ↔ ∃ a', neg a' = e ∧ a.equal a' = true := by
  cases e with
  | neg a' => exact ⟨fun h => ⟨a', rfl, h⟩, fun ⟨_, rfl, h⟩ => h⟩
  | _ => exact iff_of_false Bool.false_ne_true nofun

/-- A binary expression is equal to those with the same operator and equal operands. -/
theorem equal_bin {op : BinOp} : (bin op a b).equal e = true ↔
    ∃ a' b', bin op a' b' = e ∧ a.equal a' = true ∧ b.equal b' = true := by
  cases e with
  | bin o a' b' =>
    show (op == o && a.equal a' && b.equal b') = true ↔ _
    simp [and_assoc]
  | _ => exact iff_of_false Bool.false_ne_true nofun

/-- A quantifier is equal to those of its kind with the same names and equal bodies. -/
theorem equal_quantified {kind : Quantifier} {ns : List String} :
    (quantified kind ns a).equal e = true ↔ ∃ a', quantified kind ns a' = e ∧ a.equal a' = true := by
  cases e with
  | quantified k ms a' =>
    show (kind == k && ns == ms && a.equal a') = true ↔ _
    simp [and_assoc]
  | _ => exact iff_of_false Bool.false_ne_true nofun

/-- A length is equal to the lengths of equal arrays. -/
theorem equal_len : (len a).equal e = true ↔ ∃ a', len a' = e ∧ a.equal a' = true := by
  cases e with
  | len a' => exact ⟨fun h => ⟨a', rfl, h⟩, fun ⟨_, rfl, h⟩ => h⟩
  | _ => exact iff_of_false Bool.false_ne_true nofun

/-- Argument lists are equal if they are so place by place. -/
theorem equalArgs_iff : ∀ {as bs : List Exp},
    equalArgs as bs = true ↔ List.Forall₂ (fun a b => a.equal b = true) as bs
  | [], [] => by simp [equalArgs]
  | [], _ :: _ => by simp [equalArgs]
  | _ :: _, [] => by simp [equalArgs]
  | _ :: _, _ :: _ => by simp [equalArgs, equalArgs_iff]

end Exp

/-! ## Induction on equality -/

/-- The relation is closed under the ways in which expressions are equal. -/
structure EqualityRules (P : Exp → Exp → Prop) : Prop where
  var : ∀ v, P (.var v) (.var v)
  int : ∀ n, P (.int n) (.int n)
  float : ∀ {x y}, x.equal y = true → P (.float x) (.float y)
  bool : ∀ b, P (.bool b) (.bool b)
  call : ∀ {name ps body body' args args'}, body.equal body' = true → P body body' →
    List.Forall₂ (fun a b => a.equal b = true ∧ P a b) args args' →
    P (.call name ps body args) (.call name ps body' args')
  sub : ∀ {array array' index index'}, array.equal array' = true → P array array' →
    index.equal index' = true → P index index' → P (.sub array index) (.sub array' index')
  upd : ∀ {array array' index index' value value' length}, array.equal array' = true →
    P array array' → index.equal index' = true → P index index' → value.equal value' = true →
    P value value' → P (.upd array index value length) (.upd array' index' value' length)
  not : ∀ {arg arg'}, arg.equal arg' = true → P arg arg' → P (.not arg) (.not arg')
  neg : ∀ {arg arg'}, arg.equal arg' = true → P arg arg' → P (.neg arg) (.neg arg')
  bin : ∀ {op left left' right right'}, left.equal left' = true → P left left' →
    right.equal right' = true → P right right' → P (.bin op left right) (.bin op left' right')
  quantified : ∀ {kind names body body'}, body.equal body' = true → P body body' →
    P (.quantified kind names body) (.quantified kind names body')
  len : ∀ {arg arg'}, arg.equal arg' = true → P arg arg' → P (.len arg) (.len arg')
  bare : P .bare .bare

namespace EqualityRules

open Exp

variable {P : Exp → Exp → Prop}

mutual

/-- Equal expressions are related. -/
theorem holds (H : EqualityRules P) : ∀ {a b : Exp}, a.equal b = true → P a b
  | .var v, _, h => by
    obtain rfl := equal_var.1 h
    exact H.var v
  | .int n, _, h => by
    obtain rfl := equal_int.1 h
    exact H.int n
  | .float _, _, h => by
    obtain ⟨y, rfl, hxy⟩ := equal_float.1 h
    exact H.float hxy
  | .bool t, _, h => by
    obtain rfl := equal_bool.1 h
    exact H.bool t
  | .call .., _, h => by
    obtain ⟨c, cs, rfl, hb, has⟩ := equal_call.1 h
    exact H.call hb (H.holds hb) (H.holdsArgs has)
  | .sub .., _, h => by
    obtain ⟨a', i', rfl, ha, hi⟩ := equal_sub.1 h
    exact H.sub ha (H.holds ha) hi (H.holds hi)
  | .upd .., _, h => by
    obtain ⟨a', i', v', rfl, ha, hi, hv⟩ := equal_upd.1 h
    exact H.upd ha (H.holds ha) hi (H.holds hi) hv (H.holds hv)
  | .not _, _, h => by
    obtain ⟨a', rfl, ha⟩ := equal_not.1 h
    exact H.not ha (H.holds ha)
  | .neg _, _, h => by
    obtain ⟨a', rfl, ha⟩ := equal_neg.1 h
    exact H.neg ha (H.holds ha)
  | .bin .., _, h => by
    obtain ⟨l', r', rfl, hl, hr⟩ := equal_bin.1 h
    exact H.bin hl (H.holds hl) hr (H.holds hr)
  | .quantified .., _, h => by
    obtain ⟨b', rfl, hb⟩ := equal_quantified.1 h
    exact H.quantified hb (H.holds hb)
  | .len _, _, h => by
    obtain ⟨a', rfl, ha⟩ := equal_len.1 h
    exact H.len ha (H.holds ha)
  | .bare, b, h => by
    cases b with
    | bare => exact H.bare
    | _ => cases h

/-- `holds` for the arguments of a call. -/
theorem holdsArgs (H : EqualityRules P) : ∀ {as bs : List Exp}, equalArgs as bs = true →
    List.Forall₂ (fun a b => a.equal b = true ∧ P a b) as bs
  | [], [], _ => .nil
  | _ :: _, _ :: _, h => by
    rw [equalArgs, Bool.and_eq_true] at h
    exact .cons ⟨h.1, H.holds h.1⟩ (H.holdsArgs h.2)

end

end EqualityRules

end Discharge
