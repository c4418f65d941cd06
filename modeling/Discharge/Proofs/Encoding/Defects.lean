import Discharge.Proofs.Encoding.Parts

/-!
# Defects of expressions

`Exp.Offends ds e d` says, by rules on expressions and sorts alone, that `d` is the first thing
wrong with `e` over the definitions `ds`. An expression is looked at before its operands, the
operands from left to right, and what they are together last. An expression without a sort has one
such defect, and the encoder reports it (`Definitions.WellSorted.encode_eq_error_iff`).
-/

namespace Discharge

/-! ## The rules -/

/-- Why a type has no sort. -/
inductive Ty.Lacks : Ty → Defect → Prop
  | noSort : Lacks .other .noSort
  | elements (h : ∀ s, ¬ base.HasSort (.basic s)) : Lacks (.array base) (.unknownElements base)

/-- What is wrong with an expression whatever its operands are. -/
inductive Exp.Flaw (ds : Definitions) : Exp → Defect → Prop
  | var (h : v.type.Lacks d) : Flaw ds (.var v) d
  | int (h : ¬ n.natAbs < Nat.pow 10 integerDigitLimit) : Flaw ds (.int n) .integerTooLong
  | float (h : x.isFinite = false) : Flaw ds (.float x) (.notFinite (.float x))
  | unregistered (h : ds.lookup? name = none) :
      Flaw ds (.call name parameters body args) (.unregistered name)
  | arity (hd : ds.lookup? name = some d) (hl : args.length ≠ d.formals.length) :
      Flaw ds (.call name parameters body args)
        (.arity (.call name parameters body args) d.formals.length args.length)
  | malformedLength (h : arg.length? = none) : Flaw ds (.len arg) (.malformedLength (.len arg))
  | lengthType (hv : arg.length? = some v) (h : v.type.Lacks d) : Flaw ds (.len arg) d
  | lengthSort (hv : arg.length? = some v) (h : v.type.HasSort s) (hs : s ≠ .int) :
      Flaw ds (.len arg) (.sortMismatch (.len arg) .int s)
  | bare : Flaw ds .bare .formless

/-- An operand with a sort that is admitted whatever is expected at its place. -/
def Place.Passes (ds : Definitions) (o : Place × Exp) : Prop :=
  ∃ s, o.2.HasSort ds s ∧ ∀ x, o.1.Expects ds x → x.admits s = true

mutual

/-- The first defect of an expression. -/
inductive Exp.Offends (ds : Definitions) : Exp → Defect → Prop
  | flaw (h : Exp.Flaw ds e d) : Offends ds e d
  | operand (hf : ∀ d, ¬ Exp.Flaw ds e d) (h : Exp.FirstOffends ds e.operands d) : Offends ds e d
  | unlike (ho : op.isEquality = true) (hl : left.HasSort ds s) (hr : right.HasSort ds t)
      (h : ¬ s.Alike t) :
      Offends ds (.bin op left right) (.sortMismatch (.bin op left right) (.sort s) t)
  | unknown (hl : left.HasSort ds s) (hr : right.HasSort ds t) (hs : s.isArithmetic = true)
      (ht : t.isArithmetic = true) : Offends ds (.bin .unknown left right) .unknownOperator

/-- The defect of the first operand that does not pass: its own, or a sort that is not expected. -/
inductive Exp.FirstOffends (ds : Definitions) : List (Place × Exp) → Defect → Prop
  | inside (h : Exp.Offends ds part d) : FirstOffends ds ((place, part) :: rest) d
  | mismatch (h : part.HasSort ds s) (hx : place.Expects ds x) (hs : x.admits s = false) :
      FirstOffends ds ((place, part) :: rest) (.sortMismatch part x s)
  | later (hp : Place.Passes ds o) (h : FirstOffends ds rest d) : FirstOffends ds (o :: rest) d

end

variable {ds : Definitions} {e part : Exp} {place : Place} {x y : Expected} {d d' : Defect}

/-! ## One defect or a sort -/

/-- A type that lacks a sort has none. -/
theorem Ty.Lacks.not_hasSort {t : Ty} {s : TermSort} (h : t.Lacks d) : ¬ t.HasSort s := by
  intro hs
  cases h with
  | noSort => cases hs
  | elements h =>
    cases hs with
    | array hb => exact h _ hb

/-- A type lacks a sort for one reason only. -/
theorem Ty.Lacks.unique {t : Ty} (h : t.Lacks d) (h' : t.Lacks d') : d = d' := by
  cases h <;> cases h' <;> rfl

/-- An expression with a flaw of its own has no sort. -/
theorem Exp.Flaw.not_hasSort {s : TermSort} (h : e.Flaw ds d) : ¬ e.HasSort ds s := by
  intro hs
  cases h with
  | var h =>
    cases hs with
    | var hv => exact h.not_hasSort hv
  | int h =>
    cases hs with
    | int hn => exact h hn
  | float h =>
    cases hs with
    | float hx => rw [h] at hx; cases hx
  | unregistered h =>
    cases hs with
    | call hd _ => rw [h] at hd; cases hd
  | arity hd hl =>
    cases hs with
    | call hd' ha =>
      cases hd.symm.trans hd'
      exact hl ha.length_eq
  | malformedLength h => cases hs <;> cases h
  | lengthType hv h =>
    cases hs with
    | lenVar ht | lenUpd ht =>
      cases hv
      exact h.not_hasSort (ht ▸ Ty.HasSort.int)
  | lengthSort hv h hne =>
    cases hs with
    | lenVar ht | lenUpd ht =>
      cases hv
      rw [ht] at h
      cases h
      exact hne rfl
  | bare => cases hs

/-- An expression has at most one flaw of its own. -/
theorem Exp.Flaw.unique (h : e.Flaw ds d) (h' : e.Flaw ds d') : d = d' := by
  cases h with
  | var h =>
    cases h' with
    | var h' => exact h.unique h'
  | int | float | bare => cases h'; rfl
  | unregistered h =>
    cases h' with
    | unregistered => rfl
    | arity hd => rw [h] at hd; cases hd
  | arity hd =>
    cases h' with
    | unregistered h => rw [h] at hd; cases hd
    | arity hd' =>
      cases hd.symm.trans hd'
      rfl
  | malformedLength h =>
    cases h' with
    | malformedLength => rfl
    | lengthType hv | lengthSort hv => rw [h] at hv; cases hv
  | lengthType hv h =>
    cases h' with
    | malformedLength h => rw [h] at hv; cases hv
    | lengthType hv' h' =>
      cases hv.symm.trans hv'
      exact h.unique h'
    | lengthSort hv' hs =>
      cases hv.symm.trans hv'
      exact absurd hs h.not_hasSort
  | lengthSort hv hs =>
    cases h' with
    | malformedLength h => rw [h] at hv; cases hv
    | lengthType hv' h =>
      cases hv.symm.trans hv'
      exact absurd hs h.not_hasSort
    | lengthSort hv' hs' =>
      cases hv.symm.trans hv'
      cases hs.unique hs'
      rfl

/-- At most one thing is expected at a place. -/
theorem Place.Expects.unique (hd : ds.WellSorted) (h : place.Expects ds x)
    (h' : place.Expects ds y) : x = y := by
  cases h with
  | fixed => cases h'; rfl
  | stored h =>
    cases h' with
    | stored h' => cases h.unique hd h'; rfl
  | actual hl hf =>
    cases h' with
    | actual hl' hf' =>
      cases hl.symm.trans hl'
      cases hf.symm.trans hf'
      rfl

/-- The sort of an operand that passes is admitted. -/
theorem Place.Passes.admits_eq_true (hd : ds.WellSorted) {s : TermSort}
    (hp : Place.Passes ds (place, part)) (h : part.HasSort ds s) (hx : place.Expects ds x) :
    x.admits s = true := by
  obtain ⟨t, ht, ha⟩ := hp
  cases h.unique hd ht
  exact ha x hx

/-- The operands of an expression with a sort pass. -/
theorem Exp.HasSort.operands_pass (hd : ds.WellSorted) {s : TermSort} (h : e.HasSort ds s) :
    ∀ o ∈ e.operands, Place.Passes ds o := by
  rintro ⟨place, part⟩ ho
  obtain ⟨t, ht, ha⟩ := h.operands _ ho
  refine ⟨t, ht, fun x hx => ?_⟩
  cases ha with
  | expected hy hs => exact hx.unique hd hy ▸ hs
  | beside => cases hx

/-- The sides of an equality have alike sorts. -/
theorem BinOp.HasSignature.alike {op : BinOp} {s t u : TermSort} (h : op.HasSignature s t u)
    (ho : op.isEquality = true) : s.Alike t := by
  cases h with
  | equality _ h => exact h
  | remainder => cases ho
  | connective ho' | numeric ho' | comparison ho' => cases op <;> contradiction

/-- The unknown operator has no signature. -/
theorem BinOp.HasSignature.ne_unknown {op : BinOp} {s t u : TermSort}
    (h : op.HasSignature s t u) : op ≠ .unknown := by
  rintro rfl
  cases h <;> contradiction

mutual

/-- An expression with a defect has no sort. -/
theorem Exp.Offends.not_hasSort (hd : ds.WellSorted) {s : TermSort} :
    ∀ {e : Exp} {d : Defect}, e.Offends ds d → ¬ e.HasSort ds s
  | _, _, .flaw h => h.not_hasSort
  | _, _, .operand _ h => fun hs => h.not_pass hd (hs.operands_pass hd)
  | _, _, .unlike ho hl hr h => by
    intro hs
    cases hs with
    | bin hl' hr' hsig =>
      cases hl.unique hd hl'
      cases hr.unique hd hr'
      exact h (hsig.alike ho)
  | _, _, .unknown .. => by
    intro hs
    cases hs with
    | bin _ _ hsig => exact hsig.ne_unknown rfl

/-- Among operands of which one has a defect, one does not pass. -/
theorem Exp.FirstOffends.not_pass (hd : ds.WellSorted) :
    ∀ {l : List (Place × Exp)} {d : Defect}, Exp.FirstOffends ds l d →
      ¬ ∀ o ∈ l, Place.Passes ds o
  | _, _, .inside h => by
    intro hl
    obtain ⟨s, hs, -⟩ := hl _ List.mem_cons_self
    exact h.not_hasSort hd hs
  | _, _, .mismatch h hx ha => by
    intro hl
    rw [(hl _ List.mem_cons_self).admits_eq_true hd h hx] at ha
    cases ha
  | _, _, .later _ h => fun hl => h.not_pass hd fun o ho => hl o (List.mem_cons_of_mem _ ho)

end

/-- Nothing is expected of one side of an equality alone. -/
theorem Place.not_expects_beside (other : Exp) (x : Expected) :
    ¬ (Place.beside other).Expects ds x := by
  intro h
  cases h

/-- The operands of an equality pass whatever sorts they have. -/
theorem Exp.operands_pass_of_equality {op : BinOp} {left right : Exp} {s t : TermSort}
    (ho : op.isEquality = true) (hl : left.HasSort ds s) (hr : right.HasSort ds t) :
    ∀ o ∈ (Exp.bin op left right).operands, Place.Passes ds o := by
  rw [Exp.operands_of_equality ho]
  exact List.forall_mem_cons.2
    ⟨⟨s, hl, fun x hx => absurd hx (Place.not_expects_beside right x)⟩,
      List.forall_mem_singleton.2
        ⟨t, hr, fun x hx => absurd hx (Place.not_expects_beside left x)⟩⟩

/-- The operands of the unknown operator pass if they are numbers. -/
theorem Exp.operands_pass_of_unknown {left right : Exp} {s t : TermSort}
    (hl : left.HasSort ds s) (hr : right.HasSort ds t) (hs : s.isArithmetic = true)
    (ht : t.isArithmetic = true) :
    ∀ o ∈ (Exp.bin .unknown left right).operands, Place.Passes ds o :=
  List.forall_mem_cons.2 ⟨⟨s, hl, fun _ hx => by cases hx; exact hs⟩,
    List.forall_mem_singleton.2 ⟨t, hr, fun _ hx => by cases hx; exact ht⟩⟩

mutual

/-- An expression has at most one defect. -/
theorem Exp.Offends.unique (hd : ds.WellSorted) :
    ∀ {e : Exp} {d d' : Defect}, e.Offends ds d → e.Offends ds d' → d = d'
  | _, _, _, .flaw h => fun h' => by
    cases h' with
    | flaw h' => exact h.unique h'
    | operand hf => exact absurd h (hf _)
    | unlike | unknown => cases h
  | _, _, _, .operand hf h => fun h' => by
    cases h' with
    | flaw h' => exact absurd h' (hf _)
    | operand _ h' => exact h.unique hd h'
    | unlike ho hl hr _ => exact absurd (operands_pass_of_equality ho hl hr) (h.not_pass hd)
    | unknown hl hr hs ht => exact absurd (operands_pass_of_unknown hl hr hs ht) (h.not_pass hd)
  | _, _, _, .unlike ho hl hr _ => fun h' => by
    cases h' with
    | flaw h' => cases h'
    | operand _ h => exact absurd (operands_pass_of_equality ho hl hr) (h.not_pass hd)
    | unlike _ hl' hr' _ =>
      cases hl.unique hd hl'
      cases hr.unique hd hr'
      rfl
    | unknown => cases ho
  | _, _, _, .unknown hl hr hs ht => fun h' => by
    cases h' with
    | flaw h' => cases h'
    | operand _ h => exact absurd (operands_pass_of_unknown hl hr hs ht) (h.not_pass hd)
    | unlike ho => cases ho
    | unknown => rfl

/-- Only one defect is the first among operands. -/
theorem Exp.FirstOffends.unique (hd : ds.WellSorted) :
    ∀ {l : List (Place × Exp)} {d d' : Defect}, Exp.FirstOffends ds l d →
      Exp.FirstOffends ds l d' → d = d'
  | _, _, _, .inside h => fun h' => by
    cases h' with
    | inside h' => exact h.unique hd h'
    | mismatch hs => exact absurd hs (h.not_hasSort hd)
    | later hp =>
      obtain ⟨s, hs, -⟩ := hp
      exact absurd hs (h.not_hasSort hd)
  | _, _, _, .mismatch h hx ha => fun h' => by
    cases h' with
    | inside h' => exact absurd h (h'.not_hasSort hd)
    | mismatch h' hx' =>
      cases h.unique hd h'
      cases hx.unique hd hx'
      rfl
    | later hp =>
      rw [hp.admits_eq_true hd h hx] at ha
      cases ha
  | _, _, _, .later hp h => fun h' => by
    cases h' with
    | inside h' =>
      obtain ⟨s, hs, -⟩ := hp
      exact absurd hs (h'.not_hasSort hd)
    | mismatch h' hx ha =>
      rw [hp.admits_eq_true hd h' hx] at ha
      cases ha
    | later _ h' => exact h.unique hd h'

end

/-! ## What the encoder reports -/

/-- What is expected is reported otherwise. -/
theorem expect_eq_error {node : Exp} {t : Term} :
    expect node x t = .error d ↔
      x.admits t.sortOf = false ∧ d = .sortMismatch node x t.sortOf := by
  unfold expect
  split
  · next h => simp [h]
  · next h => simp [h, eq_comm]

/-- A type that is encoded with no sort lacks one for the reason that is reported. -/
theorem Ty.lacks_of_encodeSort {t : Ty} (h : t.encodeSort = .error d) : t.Lacks d := by
  cases t with
  | other => cases h; exact .noSort
  | array base =>
    cases hb : base.basicSort? with
    | none =>
      rw [Ty.encodeSort, Ty.sort?, hb] at h
      cases h
      exact .elements fun s hs => by rw [Ty.basicSort?_eq_some_iff.2 hs] at hb; cases hb
    | some s => rw [Ty.encodeSort, Ty.sort?, hb] at h; cases h
  | _ => cases h

/-- Why a variable has no term. -/
theorem Exp.Flaw.of_encode_var {v : Variable} (h : (Exp.var v).encode ds = .error d) :
    (Exp.var v).Flaw ds d := by
  rw [Exp.encode] at h
  rcases bind_eq_error.1 h with h | ⟨s, -, h⟩
  · exact .var (Ty.lacks_of_encodeSort h)
  · cases h

/-- Why an integer has no term. -/
theorem Exp.Flaw.of_encode_int {n : Int} (h : (Exp.int n).encode ds = .error d) :
    (Exp.int n).Flaw ds d := by
  rw [Exp.encode] at h
  split at h
  · cases h
  · next hn => cases h; exact .int (mt integerText?_isSome_iff.2 hn)

/-- Why a double has no term. -/
theorem Exp.Flaw.of_encode_float {v : Binary64} (h : (Exp.float v).encode ds = .error d) :
    (Exp.float v).Flaw ds d := by
  rw [Exp.encode] at h
  split at h
  · cases h
  · next hv =>
    cases h
    refine .float (Bool.eq_false_iff.2 fun hfin => ?_)
    obtain ⟨q, hq⟩ := Binary64.isFinite_iff.1 hfin
    rw [hv] at hq
    cases hq

/-- Why the length of an array expression has no term. -/
theorem Exp.Flaw.of_encodeLength {arg : Exp} (h : encodeLength (.len arg) arg = .error d) :
    (Exp.len arg).Flaw ds d := by
  unfold encodeLength at h
  split at h
  · next hv => cases h; exact .malformedLength hv
  · next v hv =>
    split at h
    · cases h
    · next ht =>
      rcases bind_eq_error.1 h with h | ⟨s, hs, h⟩
      · exact .lengthType hv (Ty.lacks_of_encodeSort h)
      · cases h
        have hs := Ty.hasSort_iff_encodeSort.2 hs
        exact .lengthSort hv hs fun hint => ht (hint ▸ hs).eq_int

/-- If encoding fails from an operand on, it is with the defect of that operand, or the operand
passes and it is later. -/
theorem Definitions.WellSorted.offends_or_passes (hd : ds.WellSorted) {β : Type}
    {next : Term → Except Defect β} (hx : place.Expects ds x)
    (ih : ∀ {d}, part.encode ds = .error d → part.Offends ds d)
    (h : (part.encode ds >>= fun t => expect part x t >>= next) = .error d) :
    (∀ rest, Exp.FirstOffends ds ((place, part) :: rest) d) ∨ ∃ t, part.encode ds = .ok t ∧
      x.admits t.sortOf = true ∧ Place.Passes ds (place, part) ∧ next t = .error d := by
  rcases bind_eq_error.1 h with h | ⟨t, ht, h⟩
  · exact .inl fun _ => .inside (ih h)
  · have hs := hd.hasSort_of_encode ht
    rcases bind_eq_error.1 h with h | ⟨_, h, hnext⟩
    · obtain ⟨hno, rfl⟩ := expect_eq_error.1 h
      exact .inl fun _ => .mismatch hs hx hno
    · obtain ⟨hyes, rfl⟩ := expect_eq_ok.1 h
      exact .inr ⟨_, ht, hyes, ⟨_, hs, fun y hy => hx.unique hd hy ▸ hyes⟩, hnext⟩

/-- Applications of operators that expect something of their operands are encoded alike. -/
theorem encode_bin_of_expected {op : BinOp} (hx : op.expected? = some x) (left right : Exp) :
    (Exp.bin op left right).encode ds =
      left.encode ds >>= fun l => expect left x l >>= fun l =>
      right.encode ds >>= fun r => expect right x r >>= fun r =>
      if op = .unknown then .error .unknownOperator else .ok (op.combine l r) := by
  rw [Exp.encode]
  cases op <;> cases hx <;> rfl

/-- An equality encodes both operands and then compares their sorts. -/
theorem encode_bin_of_isEquality {op : BinOp} (ho : op.isEquality = true) (left right : Exp) :
    (Exp.bin op left right).encode ds =
      left.encode ds >>= fun l => right.encode ds >>= fun r =>
      if l.sortOf = r.sortOf || (l.sortOf.isArithmetic && r.sortOf.isArithmetic) then
        .ok (op.combine l r)
      else .error (.sortMismatch (.bin op left right) (.sort l.sortOf) r.sortOf) := by
  rw [Exp.encode, BinOp.rule_of_isEquality ho]

/-- A call of a defined predicate with as many arguments as it has parameters has no flaw of its
own. -/
theorem not_flaw_call {name : String} {p : Definition} {parameters : List Variable} {body : Exp}
    {args : List Exp} (hl : ds.lookup? name = some p) (hlen : args.length = p.formals.length) :
    ∀ d, ¬ (Exp.call name parameters body args).Flaw ds d := by
  intro d h
  cases h with
  | unregistered hno => rw [hl] at hno; cases hno
  | arity hl' hne =>
    cases hl.symm.trans hl'
    exact hne hlen

/-- A binary expression has no flaw of its own. -/
theorem not_flaw_bin {op : BinOp} {left right : Exp} (d : Defect) :
    ¬ (Exp.bin op left right).Flaw ds d := by
  intro h
  cases h

/-- The defect of an application, given those of its sides. -/
theorem Definitions.WellSorted.offends_of_encode_bin (hd : ds.WellSorted) {op : BinOp}
    {left right : Exp} (ihl : ∀ {d}, left.encode ds = .error d → left.Offends ds d)
    (ihr : ∀ {d}, right.encode ds = .error d → right.Offends ds d)
    (h : (Exp.bin op left right).encode ds = .error d) : (Exp.bin op left right).Offends ds d := by
  cases hx : op.expected? with
  | some x =>
    have hops := Exp.operands_of_expected hx left right
    rw [encode_bin_of_expected hx] at h
    obtain h | ⟨l, hel, hsl, hpl, h⟩ := hd.offends_or_passes .fixed ihl h
    · exact .operand not_flaw_bin (hops ▸ h _)
    obtain h | ⟨r, her, hsr, -, h⟩ := hd.offends_or_passes .fixed ihr h
    · exact .operand not_flaw_bin (hops ▸ .later hpl (h _))
    split at h
    · next hop =>
      cases h
      subst hop
      cases hx
      exact .unknown (hd.hasSort_of_encode hel) (hd.hasSort_of_encode her) hsl hsr
    · cases h
  | none =>
    have ho := BinOp.expected?_eq_none_iff.1 hx
    have hops := Exp.operands_of_equality ho left right
    -- The sides of an equality are compared once both are encoded, so each passes by itself.
    rw [encode_bin_of_isEquality ho] at h
    rcases bind_eq_error.1 h with h | ⟨l, hel, h⟩
    · exact .operand not_flaw_bin (hops ▸ .inside (ihl h))
    have hl := hd.hasSort_of_encode hel
    have hpass (x : Expected) (hx : (Place.beside right).Expects ds x) : x.admits l.sortOf = true :=
      absurd hx (Place.not_expects_beside right x)
    rcases bind_eq_error.1 h with h | ⟨r, her, h⟩
    · exact .operand not_flaw_bin (hops ▸ .later ⟨_, hl, hpass⟩ (.inside (ihr h)))
    split at h
    · cases h
    · next hne =>
      cases h
      exact .unlike ho hl (hd.hasSort_of_encode her) (by simpa [TermSort.Alike] using hne)

mutual

/-- The defect for which an expression is not encoded is its first one. -/
theorem Definitions.WellSorted.offends_of_encode (hd : ds.WellSorted) :
    ∀ (e : Exp) {d : Defect}, e.encode ds = .error d → e.Offends ds d
  | .var _ => fun h => .flaw (.of_encode_var h)
  | .int _ => fun h => .flaw (.of_encode_int h)
  | .float _ => fun h => .flaw (.of_encode_float h)
  | .bool b => by
    intro h
    rw [Exp.encode] at h
    cases h
  | .call name parameters body args => by
    intro h
    rw [Exp.encode] at h
    split at h
    · next hl => cases h; exact .flaw (.unregistered hl)
    · next def' hl =>
      split at h
      · next hlen =>
        rcases bind_eq_error.1 h with h | ⟨σ, -, h⟩
        · refine .operand (not_flaw_call hl hlen) ?_
          simpa only [Exp.operands, Nat.zero_add] using
            hd.firstOffends_of_encodeArgs hl args List.drop_zero h
        · cases h
      · next hlen => cases h; exact .flaw (.arity hl hlen)
  | .sub array index => by
    intro h
    rw [Exp.encode] at h
    obtain h | ⟨a, -, -, hpa, h⟩ := hd.offends_or_passes .fixed (hd.offends_of_encode array) h
    · exact .operand nofun (h _)
    obtain h | ⟨i, -, -, hpi, h⟩ := hd.offends_or_passes .fixed (hd.offends_of_encode index) h
    · exact .operand nofun (.later hpa (h _))
    cases h
  | .upd array index value length => by
    intro h
    rw [Exp.encode] at h
    obtain h | ⟨a, hea, hsa, hpa, h⟩ := hd.offends_or_passes .fixed (hd.offends_of_encode array) h
    · exact .operand nofun (h _)
    obtain h | ⟨i, -, -, hpi, h⟩ := hd.offends_or_passes .fixed (hd.offends_of_encode index) h
    · exact .operand nofun (.later hpa (h _))
    obtain ⟨s, hs⟩ := admits_array.1 hsa
    have hstored := Place.Expects.stored (hs ▸ hd.hasSort_of_encode hea)
    rw [hs] at h
    obtain h | ⟨v, -, -, -, h⟩ := hd.offends_or_passes hstored (hd.offends_of_encode value) h
    · exact .operand nofun (.later hpa (.later hpi (h _)))
    cases h
  | .not arg => by
    intro h
    rw [Exp.encode] at h
    obtain h | ⟨a, -, -, -, h⟩ := hd.offends_or_passes .fixed (hd.offends_of_encode arg) h
    · exact .operand nofun (h _)
    cases h
  | .neg arg => by
    intro h
    rw [Exp.encode] at h
    obtain h | ⟨a, -, -, -, h⟩ := hd.offends_or_passes .fixed (hd.offends_of_encode arg) h
    · exact .operand nofun (h _)
    cases h
  | .bin op left right => fun h =>
    hd.offends_of_encode_bin (hd.offends_of_encode left) (hd.offends_of_encode right) h
  | .quantified kind names body => by
    intro h
    rw [Exp.encode] at h
    obtain h | ⟨a, -, -, -, h⟩ := hd.offends_or_passes .fixed (hd.offends_of_encode body) h
    · exact .operand nofun (h _)
    cases h
  | .len arg => by
    intro h
    rw [Exp.encode] at h
    exact .flaw (.of_encodeLength h)
  | .bare => by
    intro h
    rw [Exp.encode] at h
    cases h
    exact .flaw .bare

/-- The defect for which arguments are not encoded is the first one among them. -/
theorem Definitions.WellSorted.firstOffends_of_encodeArgs (hd : ds.WellSorted) {name : String}
    {p : Definition} (hl : ds.lookup? name = some p) :
    ∀ (args : List Exp) {formals : List (String × BasicSort)} {n : Nat} {d : Defect},
      p.formals.drop n = formals → Exp.encodeArgs ds formals args = .error d →
      Exp.FirstOffends ds (args.mapIdx fun k arg => (.actual name (n + k), arg)) d
  | [], formals, _, _, _, h => by
    cases formals <;> (simp only [Exp.encodeArgs] at h; cases h)
  | arg :: args, [], _, _, _, h => by
    simp only [Exp.encodeArgs] at h
    cases h
  | arg :: args, formal :: formals, n, d, hf, h => by
    have hx : Place.Expects ds (.actual name n) (.sort (.basic formal.2)) := by
      refine .actual hl ?_
      rw [← List.head?_drop, hf, List.head?_cons]
    rw [Exp.encodeArgs] at h
    rw [List.mapIdx_cons]
    obtain h | ⟨a, -, -, hpa, h⟩ := hd.offends_or_passes hx (hd.offends_of_encode arg) h
    · exact h _
    rcases bind_eq_error.1 h with h | ⟨σ, -, h⟩
    · refine .later hpa ?_
      have hf' : p.formals.drop (n + 1) = formals := by
        rw [← List.drop_drop, hf, List.drop_one, List.tail_cons]
      have := hd.firstOffends_of_encodeArgs hl args hf' h
      simpa only [Nat.add_assoc, Nat.add_comm 1] using this
    · cases h

end

/-- An expression is not encoded exactly if it has a defect, which is the one reported. -/
theorem Definitions.WellSorted.encode_eq_error_iff (hd : ds.WellSorted) :
    e.encode ds = .error d ↔ e.Offends ds d := by
  refine ⟨hd.offends_of_encode e, fun h => ?_⟩
  cases he : e.encode ds with
  | ok t => exact absurd (hd.hasSort_of_encode he) (h.not_hasSort hd)
  | error d' => rw [h.unique hd (hd.offends_of_encode e he)]

end Discharge
