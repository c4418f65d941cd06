import Discharge.Proofs.Encoding.Sorts

/-!
# Parts of expressions

`Exp.operands` lists the immediate parts of an expression, each with its `Place`, which says what
sort is expected there. An expression *exposes* the parts that are reached from it by operands, and
*contains* those that are reached by the arguments of lengths as well.

If an expression is encoded, so is every part that it exposes, with a sort that its place admits.
The argument of a length is not encoded, so of what an expression merely contains this holds exactly
if every update whose length is taken is encoded by itself (`Defined.supports_parts`).
-/

namespace Discharge

/-- Where a part of an expression stands. -/
inductive Place where
  /-- What is expected does not depend on other parts. -/
  | fixed (x : Expected)
  /-- The value that is stored in an array. -/
  | stored (array : Exp)
  /-- A side of an equality, with the other side. -/
  | beside (other : Exp)
  /-- An argument in a call, with its position. -/
  | actual (predicate : String) (position : Nat)

/-- What an operator expects of both of its operands. Equality expects nothing of one side alone. -/
def BinOp.expected? : BinOp → Option Expected
  | .and => some .bool
  | .or => some .bool
  | .implies => some .bool
  | .iff => some .bool
  | .eq => none
  | .ne => none
  | .mod => some .int
  | _ => some .arithmetic

/-- The immediate parts of an expression with their places, in the order in which they are encoded.
The argument of a length is none of them. -/
def Exp.operands : Exp → List (Place × Exp)
  | .call name _ _ args => args.mapIdx fun k arg => (.actual name k, arg)
  | .sub array index => [(.fixed .array, array), (.fixed .int, index)]
  | .upd array index value _ =>
    [(.fixed .array, array), (.fixed .int, index), (.stored array, value)]
  | .not arg => [(.fixed .bool, arg)]
  | .neg arg => [(.fixed .arithmetic, arg)]
  | .bin op left right =>
    match op.expected? with
    | some x => [(.fixed x, left), (.fixed x, right)]
    | none => [(.beside right, left), (.beside left, right)]
  | .quantified _ _ body => [(.fixed .bool, body)]
  | _ => []

namespace Place

/-- What is expected at a place. A side of an equality is expected to be nothing by itself. -/
inductive Expects (ds : Definitions) : Place → Expected → Prop
  | fixed : Expects ds (.fixed x) x
  | stored (h : array.HasSort ds (.array s)) : Expects ds (.stored array) (.sort (.basic s))
  | actual (hd : ds.lookup? predicate = some d) (hf : d.formals[k]? = some formal) :
      Expects ds (.actual predicate k) (.sort (.basic formal.2))

/-- The sorts that a place admits. -/
inductive Admits (ds : Definitions) : Place → TermSort → Prop
  | expected (h : Expects ds place x) (hs : x.admits s = true) : Admits ds place s
  | beside (h : other.HasSort ds t) (hs : s.Alike t) : Admits ds (.beside other) s

end Place

namespace Exp

/-- The parts of an expression outside the arguments of lengths, and the expression itself. -/
inductive Exposes (e : Exp) : Exp → Prop
  | self : Exposes e e
  | operand (h : Exposes e parent) (hp : (place, part) ∈ parent.operands) : Exposes e part

/-- The parts of an expression at any depth, and the expression itself. -/
inductive Contains (e : Exp) : Exp → Prop
  | self : Contains e e
  | operand (h : Contains e parent) (hp : (place, part) ∈ parent.operands) : Contains e part
  | length (h : Contains e (.len arg)) : Contains e arg

/-- The expression is encoded by itself, with a sort that the place admits. -/
def Fits (ds : Definitions) (place : Place) (e : Exp) : Prop :=
  ∃ t, e.encode ds = .ok t ∧ place.Admits ds t.sortOf

end Exp

/-- The operands of all these expressions fit their places, and the predicates that they call are
defined. -/
structure Definitions.Supports (ds : Definitions) (S : Exp → Prop) : Prop where
  fits : ∀ {parent place part}, S parent → (place, part) ∈ parent.operands → part.Fits ds place
  defined : ∀ {name parameters body args}, S (.call name parameters body args) →
    ds.contains name = true

/-! ## Operands -/

variable {ds : Definitions} {e part : Exp} {place : Place} {s t : TermSort}

/-- The operands without their places. -/
def Exp.parts (e : Exp) : List Exp := e.operands.map Prod.snd

/-- The parts of an expression are its operands, whatever their places. -/
theorem Exp.mem_parts : part ∈ e.parts ↔ ∃ place, (place, part) ∈ e.operands := by
  simp [parts]

/-- An operand is a part. -/
theorem Exp.mem_parts_of_operand (h : (place, part) ∈ e.operands) : part ∈ e.parts :=
  mem_parts.2 ⟨place, h⟩

@[simp] theorem Exp.parts_call (name : String) (parameters : List Variable) (body : Exp)
    (args : List Exp) : (Exp.call name parameters body args).parts = args :=
  List.ext_getElem (by simp [parts, operands]) fun k _ _ => by simp [parts, operands]

/-- The operands of operator applications are the two sides, whatever is expected of them. -/
@[simp] theorem Exp.parts_bin (op : BinOp) (left right : Exp) :
    (Exp.bin op left right).parts = [left, right] := by
  rw [parts, operands]
  split <;> rfl

@[simp] theorem Exp.parts_sub (array index : Exp) : (Exp.sub array index).parts = [array, index] :=
  rfl

@[simp] theorem Exp.parts_upd (array index value : Exp) (length : Variable) :
    (Exp.upd array index value length).parts = [array, index, value] :=
  rfl

/-- Operators other than equality expect one thing of both operands. -/
theorem BinOp.expected?_eq_none_iff {op : BinOp} :
    op.expected? = none ↔ op.isEquality = true := by
  cases op <;> simp [expected?, isEquality]

/-- An operator that expects one kind of operand expects it at both places. -/
theorem Exp.operands_of_expected {op : BinOp} {x : Expected} (hx : op.expected? = some x)
    (left right : Exp) :
    (Exp.bin op left right).operands = [(.fixed x, left), (.fixed x, right)] := by
  rw [Exp.operands, hx]

/-- An equality expects of each operand what goes with the other. -/
theorem Exp.operands_of_equality {op : BinOp} (ho : op.isEquality = true) (left right : Exp) :
    (Exp.bin op left right).operands = [(.beside right, left), (.beside left, right)] := by
  rw [Exp.operands, BinOp.expected?_eq_none_iff.2 ho]

/-- Arguments that have the sorts of the parameters are as many as these. -/
theorem Exp.HaveSorts.length_eq {formals : List (String × BasicSort)} {args : List Exp}
    (h : Exp.HaveSorts ds formals args) : args.length = formals.length := by
  induction args generalizing formals with
  | nil => cases h; rfl
  | cons a args ih =>
    cases h with
    | cons _ _ hs => exact congrArg Nat.succ (ih hs)

/-- Each argument has a sort that fits that of its parameter. -/
theorem Exp.HaveSorts.getElem? {formals : List (String × BasicSort)} {args : List Exp} {k : Nat}
    {arg : Exp} (h : Exp.HaveSorts ds formals args) (hk : args[k]? = some arg) :
    ∃ formal s, formals[k]? = some formal ∧ arg.HasSort ds s ∧
      s.fits (.basic formal.2) = true := by
  induction args generalizing formals k with
  | nil => cases hk
  | cons a args ih =>
    cases h with
    | cons ha hf hs =>
      cases k with
      | zero => cases hk; exact ⟨_, _, rfl, ha, hf⟩
      | succ k =>
        obtain ⟨formal, s, hf', hfit⟩ := ih hs hk
        exact ⟨formal, s, hf', hfit⟩

/-- The operands of an operator application have sorts that their places admit. -/
theorem BinOp.HasSignature.operands {op : BinOp} {left right : Exp} {u : TermSort}
    (h : op.HasSignature s t u) (hl : left.HasSort ds s) (hr : right.HasSort ds t) :
    ∀ o ∈ (Exp.bin op left right).operands, ∃ w, o.2.HasSort ds w ∧ o.1.Admits ds w := by
  have both {x : Expected} (hx : op.expected? = some x) (hs : x.admits s = true)
      (ht : x.admits t = true) :
      ∀ o ∈ (Exp.bin op left right).operands, ∃ w, o.2.HasSort ds w ∧ o.1.Admits ds w := by
    rw [Exp.operands_of_expected hx]
    exact List.forall_mem_cons.2 ⟨⟨s, hl, .expected .fixed hs⟩,
      List.forall_mem_singleton.2 ⟨t, hr, .expected .fixed ht⟩⟩
  cases h with
  | connective ho => exact both (x := .bool) (by cases op <;> first | rfl | cases ho) rfl rfl
  | remainder => exact both (x := .int) rfl rfl rfl
  | numeric ho hs ht | comparison ho hs ht =>
    exact both (x := .arithmetic) (by cases op <;> first | rfl | cases ho) hs ht
  | equality ho hst =>
    rw [Exp.operands_of_equality ho]
    exact List.forall_mem_cons.2 ⟨⟨s, hl, .beside hr hst⟩,
      List.forall_mem_singleton.2 ⟨t, hr, .beside hl (hst.imp Eq.symm And.symm)⟩⟩

/-- The operands of an expression with a sort have sorts that their places admit. -/
theorem Exp.HasSort.operands (h : e.HasSort ds s) :
    ∀ o ∈ e.operands, ∃ t, o.2.HasSort ds t ∧ o.1.Admits ds t := by
  cases h with
  | var | int | float | bool | lenVar | lenUpd => exact List.forall_mem_nil _
  | call hd ha =>
    intro o ho
    obtain ⟨k, hk, rfl⟩ := List.mem_mapIdx.1 ho
    obtain ⟨formal, t, hf, ht, hfit⟩ := ha.getElem? (List.getElem?_eq_getElem hk)
    exact ⟨t, ht, .expected (.actual hd hf) hfit⟩
  | sub ha hi =>
    exact List.forall_mem_cons.2 ⟨⟨_, ha, .expected .fixed rfl⟩,
      List.forall_mem_singleton.2 ⟨_, hi, .expected .fixed rfl⟩⟩
  | upd ha hi hv hf =>
    exact List.forall_mem_cons.2 ⟨⟨_, ha, .expected .fixed rfl⟩, List.forall_mem_cons.2
      ⟨⟨_, hi, .expected .fixed rfl⟩, List.forall_mem_singleton.2
        ⟨_, hv, .expected (.stored ha) hf⟩⟩⟩
  | not ha | quantified ha => exact List.forall_mem_singleton.2 ⟨_, ha, .expected .fixed rfl⟩
  | neg ha hs => exact List.forall_mem_singleton.2 ⟨_, ha, .expected .fixed hs⟩
  | bin hl hr hsig => exact hsig.operands hl hr

/-- What is expected at a fixed place is admitted there. -/
theorem Place.Admits.of_fixed {x : Expected} (h : (Place.fixed x).Admits ds s) :
    x.admits s = true := by
  cases h with
  | expected h hs =>
    cases h with
    | fixed => exact hs

/-- An update whose operands fit their places has a sort. -/
theorem Exp.hasSort_upd (hd : ds.WellSorted) {array index value : Exp} {length : Variable}
    (h : ∀ o ∈ (Exp.upd array index value length).operands,
      ∃ t, o.2.HasSort ds t ∧ o.1.Admits ds t) :
    ∃ s, (Exp.upd array index value length).HasSort ds s := by
  simp only [Exp.operands, List.forall_mem_cons] at h
  obtain ⟨⟨sa, ha, haa⟩, ⟨si, hi, hia⟩, ⟨sv, hv, hva⟩, -⟩ := h
  obtain ⟨b, rfl⟩ := admits_array.1 haa.of_fixed
  obtain rfl := admits_int.1 hia.of_fixed
  cases hva with
  | expected hx hs =>
    cases hx with
    | stored hb =>
      cases ha.unique hd hb
      exact ⟨_, .upd ha hi hv hs⟩

/-! ## Parts -/

/-- What an expression exposes is itself, or exposed by an operand. -/
theorem Exp.Exposes.head (h : e.Exposes part) :
    part = e ∨ ∃ o ∈ e.operands, o.2.Exposes part := by
  induction h with
  | self => exact .inl rfl
  | operand _ hp ih =>
    rcases ih with rfl | ⟨o, ho, h⟩
    · exact .inr ⟨_, hp, .self⟩
    · exact .inr ⟨o, ho, h.operand hp⟩

/-- What an operand exposes, the expression does. -/
theorem Exp.Exposes.of_operand {operand : Exp} {place : Place} (ho : (place, operand) ∈ e.operands)
    (h : operand.Exposes part) : e.Exposes part := by
  induction h with
  | self => exact .operand .self ho
  | operand _ hp ih => exact .operand ih hp

/-- What an expression with a sort exposes has a sort. -/
theorem Exp.Exposes.hasSort (h : e.Exposes part) (he : e.HasSort ds s) :
    ∃ t, part.HasSort ds t := by
  induction h with
  | self => exact ⟨s, he⟩
  | operand _ hp ih =>
    obtain ⟨t, ht⟩ := ih
    obtain ⟨u, hu, -⟩ := ht.operands _ hp
    exact ⟨u, hu⟩

/-- If the updates whose lengths are taken have sorts, so has every part of an expression with a
sort, except for array variables whose lengths are taken. -/
theorem Exp.Contains.hasSort (h : e.Contains part) (he : e.HasSort ds s)
    (hlen : ∀ array index value length, e.Contains (.len (.upd array index value length)) →
      ∃ t, (Exp.upd array index value length).HasSort ds t) :
    (∃ t, part.HasSort ds t) ∨ ∃ v, part = .var v := by
  induction h with
  | self => exact .inl ⟨s, he⟩
  | operand _ hp ih =>
    rcases ih with ⟨t, ht⟩ | ⟨v, rfl⟩
    · obtain ⟨u, hu, -⟩ := ht.operands _ hp
      exact .inl ⟨u, hu⟩
    · cases hp
  | length h ih =>
    rcases ih with ⟨t, ht⟩ | ⟨v, hv⟩
    · cases ht with
      | lenVar => exact .inr ⟨_, rfl⟩
      | lenUpd => exact .inl (hlen _ _ _ _ h)
    · cases hv

/-- An operand fits its place if it has a sort that is admitted there. -/
theorem Exp.fits_iff (hd : ds.WellSorted) :
    part.Fits ds place ↔ ∃ t, part.HasSort ds t ∧ place.Admits ds t := by
  constructor
  · rintro ⟨t, ht, ha⟩
    exact ⟨_, hd.hasSort_of_encode ht, ha⟩
  · rintro ⟨s, hs, ha⟩
    obtain ⟨t, ht, rfl⟩ := hs.encode hd
    exact ⟨t, ht, ha⟩

/-- Expressions that have a sort, and variables, are supported. -/
theorem Definitions.WellSorted.supports (hd : ds.WellSorted) {S : Exp → Prop}
    (h : ∀ e, S e → (∃ t, e.HasSort ds t) ∨ ∃ v, e = .var v) : ds.Supports S where
  fits hS hp := by
    rcases h _ hS with ⟨t, ht⟩ | ⟨v, rfl⟩
    · exact (Exp.fits_iff hd).2 (ht.operands _ hp)
    · cases hp
  defined hS := by
    rcases h _ hS with ⟨t, ht⟩ | ⟨v, hv⟩
    · cases ht with
      | call hl _ => simp [contains, hl]
    · cases hv

/-- A definition's predicate was not defined before. -/
theorem Definitions.contains_of_define {ds' : Definitions} {p : Predicate}
    (h : ds.define p = .ok ds') : ds.contains p.name = false := by
  simp [contains, (define_eq_ok h).1]

/-- The parts of what is encoded. Operands outside the arguments of lengths are encoded by
themselves, with sorts that their places admit, and call only defined predicates; for operands
inside those arguments this is so exactly if every update whose length is taken is encoded by
itself. A predicate whose definition is accepted does not call itself, unless in the argument of a
length that is not supported. -/
theorem Defined.supports_parts {ps : List Predicate} {ds : Definitions} (h : Defined ps ds) :
    (∀ (e : Exp) (t : Term), e.encode ds = .ok t → ds.Supports e.Exposes ∧
      (ds.Supports e.Contains ↔ ∀ array index value length,
        e.Contains (.len (.upd array index value length)) →
          ∃ u, (Exp.upd array index value length).encode ds = .ok u)) ∧
    ∀ p ds', ds.define p = .ok ds' →
      (∀ parameters body args, ¬ p.body.Exposes (.call p.name parameters body args)) ∧
      (ds.Supports p.body.Contains → ∀ parameters body args,
        ¬ p.body.Contains (.call p.name parameters body args)) := by
  have hd := h.wellSorted
  have hexposed (e : Exp) (t : Term) (he : e.encode ds = .ok t) : ds.Supports e.Exposes :=
    hd.supports fun _ hc => .inl (hc.hasSort (hd.hasSort_of_encode he))
  refine ⟨fun e t he => ⟨hexposed e t he, fun hS array index value length hc => ?_, fun hlen => ?_⟩,
    fun p ds' hp => ?_⟩
  -- The operands of an update decide whether it has a sort, wherever it stands.
  · obtain ⟨s, hs⟩ := Exp.hasSort_upd hd fun o ho => (Exp.fits_iff hd).1 (hS.fits hc.length ho)
    obtain ⟨u, hu, -⟩ := hs.encode hd
    exact ⟨u, hu⟩
  · refine hd.supports fun _ hc => hc.hasSort (hd.hasSort_of_encode he) ?_
    intro array index value length hc
    obtain ⟨u, hu⟩ := hlen array index value length hc
    exact ⟨_, hd.hasSort_of_encode hu⟩
  -- The body was encoded before its predicate was defined.
  · obtain ⟨-, fs, body, -, hb, -, -⟩ := Definitions.define_eq_ok hp
    have hnew : ¬ ds.contains p.name = true := by simp [Definitions.contains_of_define hp]
    exact ⟨fun _ _ _ hc => hnew ((hexposed _ _ hb).defined hc),
      fun hS _ _ _ hc => hnew (hS.defined hc)⟩

/-- A call whose argument is widened: the predicate is defined, and the argument fits the real
parameter. -/
theorem supports_parts_of_call :
    let above : Predicate :=
      ⟨"above", [.plain "x" .float], .bin .gt (.var (.plain "x" .float)) (.var (.plain "y" .int))⟩
    let call := above.call [.var (.plain "n" .int)]
    ∃ ds, Definitions.empty.define above = .ok ds ∧
      ds.Supports call.Exposes ∧ (Exp.var (.plain "n" .int)).Fits ds (.actual "above" 0) ∧
      ∀ parameters body args, ¬ above.body.Exposes (.call "above" parameters body args) := by
  intro above call
  let ds : Definitions :=
    ⟨[("above", ⟨.app .gt (.const "x" .real) (.toReal (.const "y" .int)), [("x", .real)]⟩)]⟩
  have hdefine : Definitions.empty.define above = .ok ds := rfl
  have hcall : call.encode ds =
      .ok (.app .gt (.toReal (.const "n" .int)) (.toReal (.const "y" .int))) := rfl
  have hS : ds.Supports call.Exposes :=
    ((Defined.supports_parts (.accept .empty hdefine)).1 call _ hcall).1
  exact ⟨ds, hdefine, hS, hS.fits .self (List.mem_singleton.2 rfl),
    ((Defined.supports_parts .empty).2 above ds hdefine).1⟩

/-- The length of an update is encoded, and a predicate whose body takes it is defined, although the
stored value calls that very predicate. -/
theorem Defined.not_supports_contains :
    (¬ ∀ ps ds, Defined ps ds → ∀ (e : Exp) (t : Term), e.encode ds = .ok t →
        ds.Supports e.Contains) ∧
      ¬ ∀ ps ds p ds', Defined ps ds → ds.define p = .ok ds' → ∀ parameters body args,
        ¬ p.body.Contains (.call p.name parameters body args) := by
  let n : Exp := .var (.plain "n" .int)
  let call : Exp := .call "Rec" [] (.bool true) [n]
  let update : Exp := .upd (.var (.arrayOf "a" .bool)) n call (.plain "a.length" .int)
  let recursive : Predicate := ⟨"Rec", [.plain "n" .int], .bin .ge (.len update) n⟩
  have hlen : recursive.body.Contains (.len update) := .operand .self (.head _)
  have hcall : recursive.body.Contains call := .operand hlen.length (.tail _ (.tail _ (.head _)))
  constructor
  · intro h
    exact absurd ((h [] .empty .empty recursive.body _ rfl).defined hcall) (by decide)
  · exact fun h => h [] .empty recursive _ .empty rfl _ _ _ hcall

end Discharge
