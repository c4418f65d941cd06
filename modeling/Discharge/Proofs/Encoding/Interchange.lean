import Discharge.Proofs.Number.Literals
import Discharge.Proofs.Syntax.Equality
import Discharge.Session

/-!
# Equal expressions are interchangeable

Equal expressions are encoded as the same term, or fail alike: with defects of one form and with the
same data, about expressions that are equal themselves (`Defect.Alike`). What such defects report is
alike too, since expressions of a message are printed alike. The checks of equal expressions therefore
have one verdict, or fail alike.
-/

namespace Discharge

/-! ## Defects about equal expressions -/

/-- Defects of one form with the same data, about equal expressions. -/
inductive Defect.Alike : Defect → Defect → Prop
  | sortMismatch (h : node.equal node' = true) :
      Alike (.sortMismatch node expected actual) (.sortMismatch node' expected actual)
  | arity (h : node.equal node' = true) :
      Alike (.arity node expected actual) (.arity node' expected actual)
  | malformedLength (h : node.equal node' = true) :
      Alike (.malformedLength node) (.malformedLength node')
  | notFinite (h : node.equal node' = true) : Alike (.notFinite node) (.notFinite node')
  | same (d : Defect) : Alike d d

/-- Defects that are alike and report alike: both have a text, or neither has, or neither can be
printed and for the same reason. -/
structure Defect.SameKind (d e : Defect) : Prop where
  alike : d.Alike e
  message : Related Eq (fun s t => s.isSome = t.isSome) d.message e.message

/-- Failures of one kind. -/
inductive StepError.SameKind : StepError → StepError → Prop
  | defect (h : Defect.SameKind d e) : SameKind (.defect d) (.defect e)
  | unknownOption : SameKind .unknownOption .unknownOption

namespace Defect

variable {d e : Defect} {node node' : Exp}

/-- A text that begins with an expression is there for each of two equal expressions or for none. -/
theorem about_related (h : node.equal node' = true) (rest : String) :
    Related Eq (fun s t => s.isSome = t.isSome) (about node rest) (about node' rest) := by
  unfold about
  obtain ⟨s, t, hs, ht, -⟩ | ⟨e, f, he, hf, hef⟩ := Related.elim (Exp.printRules.holds h)
  · rw [hs, ht]
    exact .ok rfl
  · rw [he, hf]
    exact .error hef

/-- Defects that are alike are of one kind. -/
theorem Alike.sameKind (h : d.Alike e) : d.SameKind e := by
  refine ⟨h, ?_⟩
  cases h with
  | sortMismatch h | arity h | malformedLength h | notFinite h => exact about_related h _
  | same =>
    refine .refl (fun _ => rfl) ?_ _
    exact fun _ => rfl

end Defect

/-! ## Encoding of equal expressions -/

/-- Equal expressions are encoded alike. -/
def Exp.EncodedAlike (ds : Definitions) (a b : Exp) : Prop :=
  Related Defect.Alike Eq (a.encode ds) (b.encode ds)

variable {ds : Definitions} {a b : Exp}

/-- What is expected of equal expressions with one term gives the same term or defects that are
alike. -/
theorem expect_related (h : a.equal b = true) (expected : Expected) (t : Term) :
    Related Defect.Alike Eq (expect a expected t) (expect b expected t) := by
  unfold expect
  split
  · exact .ok rfl
  · exact .error (.sortMismatch h)

/-- An operand is encoded and its sort is checked; what follows depends on the term only. -/
theorem operand_related {α : Type} {S : α → α → Prop} {f g : Term → Except Defect α}
    (h : a.equal b = true) (hab : a.EncodedAlike ds b) (expected : Expected)
    (hfg : ∀ t, Related Defect.Alike S (f t) (g t)) :
    Related Defect.Alike S (do f (← expect a expected (← a.encode ds)))
      (do g (← expect b expected (← b.encode ds))) := by
  refine hab.bind ?_
  rintro t _ rfl
  refine (expect_related h expected t).bind ?_
  rintro t _ rfl
  exact hfg t

/-- Arguments that are encoded alike one by one are so together. -/
theorem encodeArgs_related : ∀ (formals : List (String × BasicSort)) {as bs : List Exp},
    List.Forall₂ (fun a b => a.equal b = true ∧ a.EncodedAlike ds b) as bs →
    Related Defect.Alike Eq (Exp.encodeArgs ds formals as) (Exp.encodeArgs ds formals bs)
  | [], [], [], .nil => .ok rfl
  | [], _ :: _, _ :: _, .cons .. => .ok rfl
  | _ :: _, [], [], .nil => .ok rfl
  | formal :: formals, _ :: _, _ :: _, .cons h hrest => by
    refine operand_related h.1 h.2 _ fun t => (encodeArgs_related formals hrest).bind ?_
    rintro σ _ rfl
    exact .ok rfl

/-- The lengths of equal arrays are encoded alike. -/
theorem encodeLength_related (h : a.equal b = true) :
    Related Defect.Alike Eq (encodeLength (.len a) a) (encodeLength (.len b) b) := by
  have hlen : (Exp.len a).equal (.len b) = true := Exp.equal_len.2 ⟨b, rfl, h⟩
  unfold encodeLength
  rw [Exp.length?_of_equal h]
  cases b.length? with
  | none => exact .error (.malformedLength hlen)
  | some v =>
    simp only
    split
    · exact .ok rfl
    · cases v.type.encodeSort with
      | ok s => exact .error (.sortMismatch hlen)
      | error d => exact .error (.same d)

/-- Equal arguments are encoded alike wherever a predicate is called with them. -/
theorem encode_call_related {name : String} {ps : List Variable} {body body' : Exp}
    {as bs : List Exp} (hb : body.equal body' = true)
    (has : List.Forall₂ (fun a b => a.equal b = true ∧ a.EncodedAlike ds b) as bs) :
    (Exp.call name ps body as).EncodedAlike ds (.call name ps body' bs) := by
  have hcall : (Exp.call name ps body as).equal (.call name ps body' bs) = true :=
    Exp.equal_call.2 ⟨body', bs, rfl, hb, Exp.equalArgs_iff.2 (has.imp fun _ _ h => h.1)⟩
  unfold Exp.EncodedAlike
  rw [Exp.encode, Exp.encode, has.length_eq]
  cases ds.lookup? name with
  | none => exact .error (.same _)
  | some d =>
    simp only
    split
    · refine (encodeArgs_related d.formals has).bind ?_
      rintro σ _ rfl
      exact .ok rfl
    · exact .error (.arity hcall)

/-- Equal operands are encoded alike under every operator. -/
theorem encode_bin_related {op : BinOp} {left left' right right' : Exp}
    (hl : left.equal left' = true) (ihl : left.EncodedAlike ds left')
    (hr : right.equal right' = true) (ihr : right.EncodedAlike ds right') :
    (Exp.bin op left right).EncodedAlike ds (.bin op left' right') := by
  have hbin : (Exp.bin op left right).equal (.bin op left' right') = true :=
    Exp.equal_bin.2 ⟨left', right', rfl, hl, hr⟩
  unfold Exp.EncodedAlike
  rw [Exp.encode, Exp.encode]
  cases op.rule with
  | booleans | integers | numbers =>
    exact operand_related hl ihl _ fun _ => operand_related hr ihr _ fun _ => .ok rfl
  | meaningless =>
    exact operand_related hl ihl _ fun _ => operand_related hr ihr _ fun _ => .error (.same _)
  | alike build =>
    refine ihl.bind ?_
    rintro l _ rfl
    refine ihr.bind ?_
    rintro r _ rfl
    split
    · exact .ok rfl
    · exact .error (.sortMismatch hbin)

/-- Equal expressions are encoded alike. -/
theorem encodeRules (ds : Definitions) : EqualityRules (Exp.EncodedAlike ds) where
  var _ := .refl .same (fun _ => rfl) _
  int _ := .refl .same (fun _ => rfl) _
  float {x y} h := by
    unfold Exp.EncodedAlike
    rw [Exp.encode, Exp.encode, Binary64.decimalValue?_of_equal h]
    cases y.decimalValue? with
    | none => exact .error (.notFinite (Exp.equal_float.2 ⟨y, rfl, h⟩))
    | some q => exact .ok rfl
  bool _ := .ok rfl
  call hb _ has := encode_call_related hb has
  sub ha iha hi ihi := operand_related ha iha _ fun _ => operand_related hi ihi _ fun _ => .ok rfl
  upd ha iha hi ihi hv ihv := operand_related ha iha _ fun _ => operand_related hi ihi _ fun _ =>
    operand_related hv ihv _ fun _ => .ok rfl
  not ha iha := operand_related ha iha _ fun _ => .ok rfl
  neg ha iha := operand_related ha iha _ fun _ => .ok rfl
  bin hl ihl hr ihr := encode_bin_related hl ihl hr ihr
  quantified hb ihb := operand_related hb ihb _ fun _ => .ok rfl
  len ha _ := encodeLength_related ha
  bare := .error (.same _)

/-! ## Checking of equal expressions -/

/-- The checks of equal expressions have one verdict, or fail alike. -/
theorem check_related (h : a.equal b = true) (ds : Definitions) (options : Options) :
    Related StepError.SameKind Eq (ds.check options a) (ds.check options b) := by
  unfold Definitions.check
  obtain ⟨t, _, ht, hu, rfl⟩ | ⟨d, e, hd, he, hde⟩ := Related.elim ((encodeRules ds).holds h)
  · rw [ht, hu]
    obtain ⟨goal, _, hg, hg', rfl⟩ | ⟨d, e, hd, he, hde⟩ := (expect_related h .bool t).elim
    · simp only [hg, hg']
      cases options.tactic? with
      | none => exact .error .unknownOption
      | some tactic => exact .ok rfl
    · simp only [hd, he]
      exact .error (.defect hde.sameKind)
  · rw [hd, he]
    exact .error (.defect hde.sameKind)

/-! ## All of it -/

namespace Exp

/-- Equality is symmetric and transitive, and reflexive where no `nan` is. Equal expressions have the
same static type; over all definitions they have the same term or fail alike, and under all options the
same verdict or fail alike; and they have the same text, unless zeros of different signs stand in the
same place of them. -/
theorem interchangeable :
    (∀ a b : Exp, a.equal b = b.equal a) ∧
    (∀ a b c : Exp, a.equal b = true → b.equal c = true → a.equal c = true) ∧
    (∀ e : Exp, .nan ∉ e.allFloats → e.equal e = true) ∧
    ∀ a b : Exp, a.equal b = true →
      Related (fun _ _ => True) Eq a.typeOf b.typeOf ∧
      (∀ ds, Related Defect.SameKind Eq (a.encode ds) (b.encode ds)) ∧
      (∀ (ds : Definitions) options,
        Related StepError.SameKind Eq (ds.check options a) (ds.check options b)) ∧
      ((∀ p ∈ a.floats.zip b.floats, ¬ OppositeZeros p.1 p.2) → a.print = b.print) := by
  refine ⟨equal_comm, fun a b c => equal_trans, fun e => equal_self, fun a b h => ⟨?_, ?_, ?_, ?_⟩⟩
  · exact .of_ok_iff (typeOf_of_equal h)
  · exact fun ds => ((encodeRules ds).holds h).mono (fun _ _ hd => hd.sameKind) fun _ _ ht => ht
  · exact check_related h
  · exact print_of_equal h

/-- Calls of predicates whose bodies are different zeros are interchangeable, and their texts, which do
not show the bodies, are the same. -/
theorem interchangeable_calls :
    let a := call "p" [] (float (.finite false ⟨0, by decide⟩)) []
    let b := call "p" [] (float (.finite true ⟨0, by decide⟩)) []
    a ≠ b ∧ a.equal b = true ∧ b.equal a = true ∧ a.equal a = true ∧
      (∀ ds, Related Defect.SameKind Eq (a.encode ds) (b.encode ds)) ∧ a.print = b.print := by
  intro a b
  obtain ⟨hcomm, -, hself, h⟩ := interchangeable
  have hab : a.equal b = true :=
    equal_call.2 ⟨_, _, rfl, equal_float.2 ⟨_, rfl, Binary64.equal_finite.2 ⟨true, rfl, .inr rfl⟩⟩, rfl⟩
  obtain ⟨-, hencode, -, hprint⟩ := h a b hab
  have hba : b.equal a = true := hcomm a b ▸ hab
  have hnan : .nan ∉ a.allFloats := by simp [a, allFloats, allFloatsArgs]
  exact ⟨by simp [a, b], hab, hba, hself a hnan, hencode, hprint (by simp [a, floats_call])⟩

end Exp

end Discharge
