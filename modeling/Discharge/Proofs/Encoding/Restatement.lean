import Discharge.Proofs.Encoding.Correct
import Discharge.Proofs.Encoding.StaticTypes

/-!
# Expressions that say the same

`Exp.Restates` relates an expression to one that may stand for it wherever it is encoded: it has the
same sorts, the same meaning and the same length variable, and its divisions are those that types
choose. There is one rule for each form, so that an expression can be restated part by part. The two
rules that change the form are those of negative constants, which become negations, and of divisions,
whose operator is chosen anew.
-/

namespace Discharge

/-- The two divisions have the same signatures. -/
theorem BinOp.HasSignature.of_division {op o : BinOp} {s t u : TermSort}
    (h : op.HasSignature s t u) (hop : op = .div ∨ op = .floatDiv) (ho : o = .div ∨ o = .floatDiv) :
    o.HasSignature s t u := by
  cases h with
  | numeric _ hs ht => exact .numeric (by rcases ho with rfl | rfl <;> rfl) hs ht
  | remainder => rcases hop with hop | hop <;> cases hop
  | connective h | equality h | comparison h => rcases hop with rfl | rfl <;> cases h

namespace Exp

variable {ds : Definitions} {P : String → Option PredicateMeaning} {e a b c a' b' c' : Exp}

/-- A length is an integer, if the array has a length variable that is one. -/
theorem hasSort_len_iff {s : TermSort} :
    (len a).HasSort ds s ↔ s = .int ∧ ∃ v, a.length? = some v ∧ v.type = .int := by
  constructor
  · intro h
    cases h with
    | lenVar h => exact ⟨rfl, _, rfl, h⟩
    | lenUpd h => exact ⟨rfl, _, rfl, h⟩
  · rintro ⟨rfl, v, hv, htype⟩
    cases a with
    | var w =>
      cases w with
      | plain => cases hv
      | array => cases hv; exact .lenVar htype
    | upd => cases hv; exact .lenUpd htype
    | _ => cases hv

/-- The expression `e'` says what `e` says: it has the sorts that `e` has, means the same, and can
stand for it in an update and in a length. -/
structure Restates (ds : Definitions) (P : String → Option PredicateMeaning) (e e' : Exp) :
    Prop where
  sort : ∀ {s}, e.HasSort ds s → e'.HasSort ds s
  disambiguated : e'.Disambiguated
  length? : e'.length? = e.length?
  meaning : ∀ I, e'.meaning P I = e.meaning P I

/-- `Restates` over the arguments of a call. -/
structure RestatesArgs (ds : Definitions) (P : String → Option PredicateMeaning)
    (args args' : List Exp) : Prop where
  sort : ∀ {formals}, Exp.HaveSorts ds formals args → Exp.HaveSorts ds formals args'
  disambiguated : ∀ arg ∈ args', arg.Disambiguated
  meaning : ∀ I, meanings P args' I = meanings P args I

/-- Arguments say what others say if each of them does. -/
theorem RestatesArgs.of_forall₂ {as as' : List Exp} (h : List.Forall₂ (Restates ds P) as as') :
    RestatesArgs ds P as as' := by
  induction h with
  | nil => exact ⟨id, List.forall_mem_nil _, fun _ => rfl⟩
  | cons ha _ ih =>
    refine ⟨fun hs => ?_, List.forall_mem_cons.2 ⟨ha.disambiguated, ih.disambiguated⟩, fun I => ?_⟩
    · cases hs with
      | cons hsa hf hs => exact .cons (ha.sort hsa) hf (ih.sort hs)
    · rw [meanings, meanings, ha.meaning, ih.meaning]

namespace Restates

/-- A leaf says what it says. -/
theorem leaf (h : e.parts = []) (hd : e.Divides) : Restates ds P e e :=
  ⟨id, .of_leaf hd h, rfl, fun _ => rfl⟩

/-- A negative integer is the negation of a positive one. -/
theorem int (n : Nat) : Restates ds P (.int (-n)) (.neg (.int n)) where
  sort h := by
    cases h with
    | int h => exact .neg (.int (by simpa using h)) rfl
  disambiguated := .intro trivial (List.forall_mem_singleton.2 (.of_leaf trivial rfl))
  length? := rfl
  meaning I := by simp only [Exp.meaning, Meaning.neg]

/-- A negative double is the negation of a positive one. -/
theorem float (r : Fin finiteRanks) :
    Restates ds P (.float (.finite true r)) (.neg (.float (.finite false r))) where
  sort h := by
    cases h with
    | float => exact .neg (.float rfl) rfl
  disambiguated := .intro trivial (List.forall_mem_singleton.2 (.of_leaf trivial rfl))
  length? := rfl
  meaning I := by simp [Exp.meaning, Binary64.decimalValue?, Meaning.neg]

/-- A subscript says the same with restated parts. -/
theorem sub (ha : Restates ds P a a') (hb : Restates ds P b b') :
    Restates ds P (.sub a b) (.sub a' b') where
  sort h := by
    cases h with
    | sub hsa hsb => exact .sub (ha.sort hsa) (hb.sort hsb)
  disambiguated := .intro trivial
    (List.forall_mem_cons.2 ⟨ha.disambiguated, List.forall_mem_singleton.2 hb.disambiguated⟩)
  length? := rfl
  meaning I := by simp only [Exp.meaning, ha.meaning, hb.meaning]

/-- An update says the same with restated parts and the same length variable. -/
theorem upd {length : Variable} (ha : Restates ds P a a') (hb : Restates ds P b b')
    (hc : Restates ds P c c') : Restates ds P (.upd a b c length) (.upd a' b' c' length) where
  sort h := by
    cases h with
    | upd hsa hsb hsc hf => exact .upd (ha.sort hsa) (hb.sort hsb) (hc.sort hsc) hf
  disambiguated := .intro trivial (List.forall_mem_cons.2 ⟨ha.disambiguated,
    List.forall_mem_cons.2 ⟨hb.disambiguated, List.forall_mem_singleton.2 hc.disambiguated⟩⟩)
  length? := rfl
  meaning I := by simp only [Exp.meaning, ha.meaning, hb.meaning, hc.meaning]

/-- A negation says the same with a restated operand. -/
theorem not (ha : Restates ds P a a') : Restates ds P (.not a) (.not a') where
  sort h := by
    cases h with
    | not h => exact .not (ha.sort h)
  disambiguated := .intro trivial (List.forall_mem_singleton.2 ha.disambiguated)
  length? := rfl
  meaning I := by simp only [Exp.meaning, ha.meaning]

/-- A negative says the same with a restated operand. -/
theorem neg (ha : Restates ds P a a') : Restates ds P (.neg a) (.neg a') where
  sort h := by
    cases h with
    | neg h hs => exact .neg (ha.sort h) hs
  disambiguated := .intro trivial (List.forall_mem_singleton.2 ha.disambiguated)
  length? := rfl
  meaning I := by simp only [Exp.meaning, ha.meaning]

/-- A quantifier says the same with a restated body. -/
theorem quantified {kind : Quantifier} {names : List String} (hb : Restates ds P b b') :
    Restates ds P (.quantified kind names b) (.quantified kind names b') where
  sort h := by
    cases h with
    | quantified h => exact .quantified (hb.sort h)
  disambiguated := .intro trivial (List.forall_mem_singleton.2 hb.disambiguated)
  length? := rfl
  meaning I := by simp only [Exp.meaning, hb.meaning]

/-- A length says the same with a restated array. -/
theorem len (ha : Restates ds P a a') : Restates ds P (.len a) (.len a') where
  sort h := by
    rw [hasSort_len_iff] at h ⊢
    rwa [ha.length?]
  disambiguated := .of_leaf trivial rfl
  length? := rfl
  meaning I := by simp only [Exp.meaning, ha.length?]

/-- What a call holds of its predicate does not matter. -/
theorem call {name : String} {ps ps' : List Variable} {as as' : List Exp}
    (h : RestatesArgs ds P as as') : Restates ds P (.call name ps b as) (.call name ps' b' as') where
  sort hs := by
    cases hs with
    | call hd hs => exact .call hd (h.sort hs)
  disambiguated := by
    refine .intro trivial ?_
    rw [Exp.parts_call]
    exact h.disambiguated
  length? := rfl
  meaning I := by simp only [Exp.meaning, h.meaning]

/-- A binary expression has its divisions as they are read if its operands have, and it is itself no
division or one as it is read. -/
theorem disambiguated_bin {op : BinOp} (hop : op = .div ∨ op = .floatDiv → divisionOf a b = .ok op)
    (ha : a.Disambiguated) (hb : b.Disambiguated) : (Exp.bin op a b).Disambiguated := by
  refine .intro hop ?_
  rw [Exp.parts_bin]
  exact List.forall_mem_cons.2 ⟨ha, List.forall_mem_singleton.2 hb⟩

/-- A binary expression that is no division says the same with restated operands. -/
theorem bin {op : BinOp} (hop : ¬ (op = .div ∨ op = .floatDiv)) (ha : Restates ds P a a')
    (hb : Restates ds P b b') : Restates ds P (.bin op a b) (.bin op a' b') where
  sort h := by
    cases h with
    | bin hl hr hsig => exact .bin (ha.sort hl) (hb.sort hr) hsig
  disambiguated := disambiguated_bin (absurd · hop) ha.disambiguated hb.disambiguated
  length? := rfl
  meaning I := by simp only [Exp.meaning, ha.meaning, hb.meaning]

/-- A division means the quotient of its operands' sorts, whichever operator it has. -/
theorem division {op o : BinOp} (hop : op = .div ∨ op = .floatDiv) (ho : divisionOf a' b' = .ok o)
    (ha : Restates ds P a a') (hb : Restates ds P b b') :
    Restates ds P (.bin op a b) (.bin o a' b') where
  sort h := by
    cases h with
    | bin hl hr hsig =>
      exact .bin (ha.sort hl) (hb.sort hr) (hsig.of_division hop (eq_of_divisionOf ho))
  disambiguated := disambiguated_bin (fun _ => ho) ha.disambiguated hb.disambiguated
  length? := rfl
  meaning I := by
    simp only [Exp.meaning, ha.meaning, hb.meaning]
    rcases hop with rfl | rfl <;> rcases eq_of_divisionOf ho with rfl | rfl <;> rfl

end Restates

end Exp

end Discharge
