import Discharge.Proofs.Encoding.StaticTypes
import Discharge.Proofs.Number.Nearest
import Discharge.Proofs.Syntax.EqualityRules

/-!
# Equality of expressions

What equal expressions have in common is their form, their length variable, and their static type, so
divisions of equal operands are chosen alike (`Exp.divisionOf_of_equal`). Their float constants are
equal in the same places, and they are printed alike, with the same text unless zeros with different
signs stand in one place (`Exp.print_of_equal`).

Equality is symmetric and transitive. Expressions that hold no `nan` are equal to themselves
(`Exp.equal_self`). A double is at least zero exactly if it is equal to one that can be read
(`Binary64.nonneg_iff`).
-/

namespace Discharge

/-! ## Doubles -/

namespace Binary64

/-- Whether a double is at least zero. -/
def Nonneg (x : Binary64) : Prop := x ≠ .nan ∧ x.less (ofRank false 0) = false

/-- The double of rank zero is a finite number. -/
theorem ofRank_zero : ofRank false 0 = finite false ⟨0, by decide⟩ := dif_pos (by decide)

/-- The doubles that are at least zero are those that are equal to one without a sign. -/
theorem nonneg_iff {x : Binary64} : x.Nonneg ↔ ∃ y : Binary64, y.Readable ∧ y.equal x = true := by
  unfold Nonneg
  rw [ofRank_zero]
  cases x with
  | nan =>
    refine iff_of_false (fun h => h.1 rfl) ?_
    rintro ⟨y, -, h⟩
    cases y <;> cases h
  | infinity s =>
    constructor
    · rintro ⟨-, h⟩
      exact ⟨.infinity s, h, by simp [equal]⟩
    · rintro ⟨y, hy, h⟩
      cases y with
      | infinity t =>
        obtain rfl : t = false := hy
        obtain rfl : s = false := by simpa [equal] using h
        exact ⟨by simp, rfl⟩
      | _ => cases h
  | finite s r =>
    constructor
    · rintro ⟨-, h⟩
      refine ⟨.finite false r, rfl, ?_⟩
      cases s with
      | false => simp [equal]
      | true => simpa [less, equal] using h
    · rintro ⟨y, hy, h⟩
      cases y with
      | finite t r' =>
        obtain rfl : t = false := hy
        refine ⟨by simp, ?_⟩
        cases s with
        | false => exact decide_eq_false (Nat.not_lt_zero r.val)
        | true =>
          obtain ⟨rfl, hzero⟩ : r' = r ∧ r'.val = 0 := by simpa [equal] using h
          simp [less, hzero]
      | _ => cases h

end Binary64

namespace Exp

variable {e a b c : Exp}

/-! ## Lengths and types of equal expressions -/

/-- Equal expressions have the same length variable, or none. -/
theorem lengthRules : EqualityRules fun a b => a.length? = b.length? where
  var _ := rfl
  int _ := rfl
  float _ := rfl
  bool _ := rfl
  call _ _ _ := rfl
  sub _ _ _ _ := rfl
  upd _ _ _ _ _ _ := rfl
  not _ _ := rfl
  neg _ _ := rfl
  bin _ _ _ _ := rfl
  quantified _ _ := rfl
  len _ _ := rfl
  bare := rfl

/-- Equal expressions have the same length variable. -/
theorem length?_of_equal (h : a.equal b = true) : a.length? = b.length? := lengthRules.holds h

/-- A subscript has the type of the elements, and has one only if the array is an array. -/
theorem typeOf_sub_eq_ok {s : Ty} : (sub a b).typeOf = .ok s ↔ a.typeOf = .ok (.array s) := by
  refine ⟨fun h => ?_, fun h => typeOf_sub h b⟩
  rw [typeOf] at h
  obtain ⟨u, hu, h⟩ := bind_eq_ok.1 h
  cases u with
  | array base =>
    cases h
    exact hu
  | _ => simp only at h; split at h <;> cases h

/-- Equal expressions have the same types. -/
theorem typeRules : EqualityRules fun a b => ∀ s, a.typeOf = .ok s ↔ b.typeOf = .ok s where
  var _ _ := .rfl
  int _ _ := .rfl
  float _ _ := .rfl
  bool _ _ := .rfl
  call _ _ _ _ := .rfl
  sub _ iha _ _ s := by rw [typeOf_sub_eq_ok, typeOf_sub_eq_ok, iha]
  upd _ iha _ _ _ _ s := by rw [typeOf_upd, typeOf_upd, iha]
  not _ _ _ := .rfl
  neg _ iha s := by rw [typeOf_neg, typeOf_neg, iha]
  bin _ ihl _ ihr s := by
    rw [typeOf, typeOf]
    simp only [apply_ite (· = Except.ok s), bind_eq_ok, ihl, ihr]
  quantified _ _ _ := .rfl
  len _ _ _ := .rfl
  bare _ := .rfl

/-- Equal expressions have the same static type. -/
theorem typeOf_of_equal (h : a.equal b = true) (s : Ty) : a.typeOf = .ok s ↔ b.typeOf = .ok s :=
  typeRules.holds h s

/-- A division has the operator that the types of its operands choose exactly if it is a real division
where one of them is `float`. -/
theorem divisionOf_eq_ok_iff {op : BinOp} : divisionOf a b = .ok op ↔
    ∃ s t, a.typeOf = .ok s ∧ b.typeOf = .ok t ∧
      op = if s = .float ∨ t = .float then .floatDiv else .div := by
  constructor
  · intro h
    obtain ⟨s, t, hs, ht, rfl⟩ := divisionOf_eq_ok h
    exact ⟨s, t, hs, ht, by simp⟩
  · rintro ⟨s, t, hs, ht, rfl⟩
    simp [divisionOf, hs, ht]

/-- Operands that are equal divide in the same way. -/
theorem divisionOf_of_equal {l r l' r' : Exp} (hl : l.equal l' = true) (hr : r.equal r' = true)
    {op : BinOp} : divisionOf l r = .ok op ↔ divisionOf l' r' = .ok op := by
  simp only [divisionOf_eq_ok_iff, typeOf_of_equal hl, typeOf_of_equal hr]

/-! ## Equality is a partial equivalence -/

/-- Equality is symmetric, by its rules. -/
theorem symmRules : EqualityRules fun a b => b.equal a = true where
  var _ := equal_var.2 rfl
  int _ := equal_int.2 rfl
  float h := equal_float.2 ⟨_, rfl, Binary64.equal_symm h⟩
  bool _ := equal_bool.2 rfl
  call _ hb has :=
    equal_call.2 ⟨_, _, rfl, hb, equalArgs_iff.2 (has.imp fun _ _ h => h.2).flip⟩
  sub _ ha _ hi := equal_sub.2 ⟨_, _, rfl, ha, hi⟩
  upd _ ha _ hi _ hv := equal_upd.2 ⟨_, _, _, rfl, ha, hi, hv⟩
  not _ ha := equal_not.2 ⟨_, rfl, ha⟩
  neg _ ha := equal_neg.2 ⟨_, rfl, ha⟩
  bin _ hl _ hr := equal_bin.2 ⟨_, _, rfl, hl, hr⟩
  quantified _ hb := equal_quantified.2 ⟨_, rfl, hb⟩
  len _ ha := equal_len.2 ⟨_, rfl, ha⟩
  bare := rfl

/-- Equality of expressions is symmetric. -/
theorem equal_symm (h : a.equal b = true) : b.equal a = true := symmRules.holds h

/-- Comparing two expressions does not depend on their order. -/
theorem equal_comm (a b : Exp) : a.equal b = b.equal a :=
  Bool.eq_iff_iff.2 ⟨equal_symm, equal_symm⟩

/-- What is equal to each of some arguments is equal to whatever these are equal to. -/
theorem forall₂_equal_trans {as bs cs : List Exp}
    (h : List.Forall₂ (fun a b => a.equal b = true ∧ ∀ c, b.equal c = true → a.equal c = true) as bs)
    (hbc : List.Forall₂ (fun b c => b.equal c = true) bs cs) :
    List.Forall₂ (fun a c => a.equal c = true) as cs := by
  induction h generalizing cs with
  | nil =>
    cases hbc
    exact .nil
  | cons hab _ ih =>
    cases hbc with
    | cons hbc hrest => exact .cons (hab.2 _ hbc) (ih hrest)

/-- Equality is transitive, by its rules: what is equal to the second expression is equal to the
first. -/
theorem transRules : EqualityRules fun a b => ∀ c, b.equal c = true → a.equal c = true where
  var _ _ h := h
  int _ _ h := h
  float hxy c h := by
    obtain ⟨z, rfl, hyz⟩ := equal_float.1 h
    exact equal_float.2 ⟨z, rfl, Binary64.equal_trans hxy hyz⟩
  bool _ _ h := h
  call _ ihb has c h := by
    obtain ⟨d, ds, rfl, hb, hds⟩ := equal_call.1 h
    exact equal_call.2 ⟨d, ds, rfl, ihb d hb,
      equalArgs_iff.2 (forall₂_equal_trans has (equalArgs_iff.1 hds))⟩
  sub _ iha _ ihi c h := by
    obtain ⟨_, _, rfl, ha, hi⟩ := equal_sub.1 h
    exact equal_sub.2 ⟨_, _, rfl, iha _ ha, ihi _ hi⟩
  upd _ iha _ ihi _ ihv c h := by
    obtain ⟨_, _, _, rfl, ha, hi, hv⟩ := equal_upd.1 h
    exact equal_upd.2 ⟨_, _, _, rfl, iha _ ha, ihi _ hi, ihv _ hv⟩
  not _ iha c h := by
    obtain ⟨_, rfl, ha⟩ := equal_not.1 h
    exact equal_not.2 ⟨_, rfl, iha _ ha⟩
  neg _ iha c h := by
    obtain ⟨_, rfl, ha⟩ := equal_neg.1 h
    exact equal_neg.2 ⟨_, rfl, iha _ ha⟩
  bin _ ihl _ ihr c h := by
    obtain ⟨_, _, rfl, hl, hr⟩ := equal_bin.1 h
    exact equal_bin.2 ⟨_, _, rfl, ihl _ hl, ihr _ hr⟩
  quantified _ ihb c h := by
    obtain ⟨_, rfl, hb⟩ := equal_quantified.1 h
    exact equal_quantified.2 ⟨_, rfl, ihb _ hb⟩
  len _ iha c h := by
    obtain ⟨_, rfl, ha⟩ := equal_len.1 h
    exact equal_len.2 ⟨_, rfl, iha _ ha⟩
  bare _ h := h

/-- Equality of expressions is transitive. -/
theorem equal_trans (hab : a.equal b = true) (hbc : b.equal c = true) : a.equal c = true :=
  transRules.holds hab c hbc

/-! ## Float constants -/

mutual

/-- The float constants of an expression, with those in the bodies of called predicates. -/
def allFloats : Exp → List Binary64
  | .float x => [x]
  | .call _ _ body args => body.allFloats ++ allFloatsArgs args
  | .sub array index => array.allFloats ++ index.allFloats
  | .upd array index value _ => array.allFloats ++ index.allFloats ++ value.allFloats
  | .not arg => arg.allFloats
  | .neg arg => arg.allFloats
  | .bin _ left right => left.allFloats ++ right.allFloats
  | .quantified _ _ body => body.allFloats
  | .len arg => arg.allFloats
  | .var _ => []
  | .int _ => []
  | .bool _ => []
  | .bare => []

/-- `allFloats` of the arguments of a call. -/
def allFloatsArgs : List Exp → List Binary64
  | [] => []
  | a :: as => a.allFloats ++ allFloatsArgs as

end

mutual

/-- An expression without `nan` is equal to itself. -/
theorem equal_self : ∀ {e : Exp}, .nan ∉ e.allFloats → e.equal e = true
  | .var _, _ => equal_var.2 rfl
  | .int _, _ => equal_int.2 rfl
  | .float x, h => by
    rw [allFloats, List.mem_singleton] at h
    exact equal_float.2 ⟨x, rfl, Binary64.equal_self_iff.2 (Ne.symm h)⟩
  | .bool _, _ => equal_bool.2 rfl
  | .call _ _ body args, h => by
    rw [allFloats, List.mem_append, not_or] at h
    exact equal_call.2 ⟨body, args, rfl, equal_self h.1, equalArgs_self h.2⟩
  | .sub .., h => by
    rw [allFloats, List.mem_append, not_or] at h
    exact equal_sub.2 ⟨_, _, rfl, equal_self h.1, equal_self h.2⟩
  | .upd .., h => by
    rw [allFloats, List.mem_append, List.mem_append, not_or, not_or] at h
    exact equal_upd.2 ⟨_, _, _, rfl, equal_self h.1.1, equal_self h.1.2, equal_self h.2⟩
  | .not _, h => equal_not.2 ⟨_, rfl, equal_self h⟩
  | .neg _, h => equal_neg.2 ⟨_, rfl, equal_self h⟩
  | .bin .., h => by
    rw [allFloats, List.mem_append, not_or] at h
    exact equal_bin.2 ⟨_, _, rfl, equal_self h.1, equal_self h.2⟩
  | .quantified .., h => equal_quantified.2 ⟨_, rfl, equal_self h⟩
  | .len _, h => equal_len.2 ⟨_, rfl, equal_self h⟩
  | .bare, _ => rfl

/-- `equal_self` for the arguments of a call. -/
theorem equalArgs_self : ∀ {es : List Exp}, .nan ∉ allFloatsArgs es → equalArgs es es = true
  | [], _ => rfl
  | _ :: _, h => by
    rw [allFloatsArgs, List.mem_append, not_or] at h
    rw [equalArgs, equal_self h.1, equalArgs_self h.2]
    rfl

end

/-! ## Float constants that are printed -/

section Floats

variable {array index value arg left right body : Exp}

/-- The floats of a call are those of its arguments. -/
theorem floats_call {name : String} {ps : List Variable} {args : List Exp} :
    (call name ps body args).floats = args.flatMap floats := by
  simp [floats, Tree.floats, erase, Tree.leaves, Tree.leavesArgs_eq, eraseArgs_eq, List.flatMap_map,
    List.filterMap_flatMap]
  rfl

/-- The floats of a subscript are those of the array and of the index. -/
theorem floats_sub : (sub array index).floats = array.floats ++ index.floats := by
  simp [floats, Tree.floats, erase, Tree.leaves]

/-- The floats of an update are those of the array, of the index and of the value. -/
theorem floats_upd {length : Variable} : (upd array index value length).floats =
    array.floats ++ (index.floats ++ value.floats) := by
  simp [floats, Tree.floats, erase, Tree.leaves]

/-- The floats of a binary expression are those of its operands. -/
theorem floats_bin {op : BinOp} : (bin op left right).floats = left.floats ++ right.floats := by
  simp [floats, Tree.floats, erase, Tree.leaves]

/-- The floats of a quantifier are those of its body. -/
theorem floats_quantified {kind : Quantifier} {names : List String} :
    (quantified kind names body).floats = body.floats := by
  simp [floats, Tree.floats, erase, Tree.leaves]

end Floats

/-- Equal expressions have equal float constants. -/
theorem floatsRules : EqualityRules fun a b =>
    List.Forall₂ (fun x y : Binary64 => x.equal y = true) a.floats b.floats where
  var _ := .nil
  int _ := .nil
  float h := .cons h .nil
  bool _ := .nil
  call _ _ has := by
    rw [floats_call, floats_call]
    induction has with
    | nil => exact .nil
    | cons h _ ih =>
      rw [List.flatMap_cons, List.flatMap_cons]
      exact List.rel_append h.2 ih
  sub _ ha _ hi := by
    rw [floats_sub, floats_sub]
    exact List.rel_append ha hi
  upd _ ha _ hi _ hv := by
    rw [floats_upd, floats_upd]
    exact List.rel_append ha (List.rel_append hi hv)
  not _ ha := ha
  neg _ ha := ha
  bin _ hl _ hr := by
    rw [floats_bin, floats_bin]
    exact List.rel_append hl hr
  quantified _ hb := by
    rw [floats_quantified, floats_quantified]
    exact hb
  len _ ha := ha
  bare := .nil

/-- Equal expressions have the same number of floats. -/
theorem length_floats_of_equal (h : a.equal b = true) : a.floats.length = b.floats.length :=
  (floatsRules.holds h).length_eq

end Exp

/-! ## Results of equal expressions -/

/-- `Related R S x y`: both computations succeed with results that are related by `S`, or both fail with
errors that are related by `R`. -/
inductive Related {ε α β : Type} (R : ε → ε → Prop) (S : α → β → Prop) :
    Except ε α → Except ε β → Prop
  | ok (h : S a b) : Related R S (.ok a) (.ok b)
  | error (h : R e f) : Related R S (.error e) (.error f)

namespace Related

variable {ε α β γ δ : Type} {R : ε → ε → Prop} {S : α → β → Prop} {T : γ → δ → Prop}
  {x : Except ε α} {y : Except ε β}

/-- Two related results are both values or both errors. -/
theorem elim (h : Related R S x y) : (∃ a b, x = .ok a ∧ y = .ok b ∧ S a b) ∨
    ∃ e f, x = .error e ∧ y = .error f ∧ R e f := by
  cases h with
  | ok h => exact .inl ⟨_, _, rfl, rfl, h⟩
  | error h => exact .inr ⟨_, _, rfl, rfl, h⟩

/-- Computations of two steps are related if their steps are. -/
theorem bind {f : α → Except ε γ} {g : β → Except ε δ} (h : Related R S x y)
    (hfg : ∀ a b, S a b → Related R T (f a) (g b)) : Related R T (x >>= f) (y >>= g) := by
  cases h with
  | ok h => exact hfg _ _ h
  | error h => exact .error h

/-- Results that are related are so by weaker relations. -/
theorem mono {R' : ε → ε → Prop} {S' : α → β → Prop} (h : Related R S x y)
    (hR : ∀ e f, R e f → R' e f) (hS : ∀ a b, S a b → S' a b) : Related R' S' x y := by
  cases h with
  | ok h => exact .ok (hS _ _ h)
  | error h => exact .error (hR _ _ h)

/-- A result is related to itself by reflexive relations. -/
theorem refl {S : α → α → Prop} (hR : ∀ e, R e e) (hS : ∀ a, S a a) (x : Except ε α) :
    Related R S x x := by
  cases x with
  | ok a => exact .ok (hS a)
  | error e => exact .error (hR e)

/-- Computations that succeed with the same results are related whatever their errors are. -/
theorem of_ok_iff {x y : Except ε α} (h : ∀ a, x = .ok a ↔ y = .ok a) :
    Related (fun _ _ => True) Eq x y := by
  cases x with
  | ok a =>
    rw [(h a).1 rfl]
    exact .ok rfl
  | error e =>
    cases y with
    | ok b => cases (h b).2 rfl
    | error f => exact .error trivial

end Related

namespace Exp

variable {a b : Exp}

/-- Equal expressions are printed alike, and with the same text if they hold the same constants. -/
def PrintedAlike (a b : Exp) : Prop :=
  Related Eq (fun s t => a.floats = b.floats → s = t) a.print b.print

/-- `PrintedAlike` for the arguments of a call. -/
theorem printArgs_related {as bs : List Exp}
    (h : List.Forall₂ (fun a b => a.equal b = true ∧ PrintedAlike a b) as bs) :
    Related Eq (fun ss ts => as.flatMap floats = bs.flatMap floats → ss = ts) (printArgs as)
      (printArgs bs) := by
  induction h with
  | nil => exact .ok fun _ => rfl
  | @cons a b as bs hab _ ih =>
    refine hab.2.bind fun s t hst => ih.bind fun ss ts hsts => .ok fun hfloats => ?_
    obtain ⟨hhead, htail⟩ := List.append_inj hfloats (length_floats_of_equal hab.1)
    rw [hst hhead, hsts htail]

/-- Equal expressions are printed alike. -/
theorem printRules : EqualityRules PrintedAlike where
  var _ := .ok fun _ => rfl
  int _ := .refl (fun _ => rfl) (fun _ _ => rfl) _
  float _ := .ok fun h => by rw [List.singleton_inj.1 h]
  bool _ := .ok fun _ => rfl
  call _ _ has := (printArgs_related has).bind fun ss ts h => .ok fun hfloats => by
    rw [floats_call, floats_call] at hfloats
    rw [h hfloats]
  sub ha iha _ ihi := iha.bind fun s t hst => ihi.bind fun s' t' hst' => .ok fun hfloats => by
    rw [floats_sub, floats_sub] at hfloats
    obtain ⟨hfa, hfi⟩ := List.append_inj hfloats (length_floats_of_equal ha)
    rw [hst hfa, hst' hfi]
  upd ha iha hi ihi _ ihv := iha.bind fun s t hst => ihi.bind fun s' t' hst' =>
    ihv.bind fun s'' t'' hst'' => .ok fun hfloats => by
      rw [floats_upd, floats_upd] at hfloats
      obtain ⟨hfa, hrest⟩ := List.append_inj hfloats (length_floats_of_equal ha)
      obtain ⟨hfi, hfv⟩ := List.append_inj hrest (length_floats_of_equal hi)
      rw [hst hfa, hst' hfi, hst'' hfv]
  not _ iha := iha.bind fun s t hst => .ok fun hfloats => by rw [hst hfloats]
  neg _ iha := iha.bind fun s t hst => .ok fun hfloats => by rw [hst hfloats]
  bin {op _ _ _ _} hl ihl _ ihr := ihl.bind fun s t hst => by
    cases op.symbol? with
    | none => exact .error rfl
    | some symbol =>
      refine ihr.bind fun s' t' hst' => .ok fun hfloats => ?_
      rw [floats_bin, floats_bin] at hfloats
      obtain ⟨hfl, hfr⟩ := List.append_inj hfloats (length_floats_of_equal hl)
      rw [hst hfl, hst' hfr]
  quantified _ ihb := ihb.bind fun s t hst => .ok fun hfloats => by
    rw [floats_quantified, floats_quantified] at hfloats
    rw [hst hfloats]
  len _ iha := iha.bind fun s t hst => .ok fun hfloats => by rw [hst hfloats]
  bare := .ok fun _ => rfl

/-- One of two zeros that have different signs. -/
def OppositeZeros (x y : Binary64) : Prop := x.toRat? = some 0 ∧ y.toRat? = some 0 ∧ x ≠ y

/-- Equal doubles are the same, unless they are zeros with different signs. -/
theorem eq_of_equal {x y : Binary64} (h : x.equal y = true) (hne : ¬ OppositeZeros x y) : x = y := by
  by_contra hxy
  cases x with
  | nan => cases Binary64.equal_nan.symm.trans h
  | infinity s => exact hxy (Binary64.equal_infinity.1 h)
  | finite s m =>
    obtain ⟨t, rfl, rfl | hzero⟩ := Binary64.equal_finite.1 h
    · exact hxy rfl
    · refine hne ⟨?_, ?_, hxy⟩
      all_goals rw [Binary64.toRat?_signed, hzero, Binary64.magnitude_zero, signed_zero]

/-- Equal expressions have the same text, unless zeros with different signs stand in one place. -/
theorem print_of_equal (h : a.equal b = true)
    (hzeros : ∀ p ∈ a.floats.zip b.floats, ¬ OppositeZeros p.1 p.2) : a.print = b.print := by
  have hfloats : a.floats = b.floats := by
    have hequal := floatsRules.holds h
    generalize a.floats = xs at *
    generalize b.floats = ys at *
    induction hequal with
    | nil => rfl
    | cons hxy _ ih =>
      rw [List.zip_cons_cons, List.forall_mem_cons] at hzeros
      rw [eq_of_equal hxy hzeros.1, ih hzeros.2]
  obtain ⟨s, t, ha, hb, hst⟩ | ⟨e, f, ha, hb, hef⟩ := Related.elim (printRules.holds h)
  · rw [ha, hb, hst hfloats]
  · rw [ha, hb, hef]

end Exp

end Discharge
