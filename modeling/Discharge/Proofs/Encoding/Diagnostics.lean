import Discharge.Proofs.Encoding.Defects

/-!
# What is said of expressions without a sort

`Exp.Regular` are the expressions whose types, operators and integers are of the language. They can
be printed, so each of their defects has a text, and every one of them has a term, closed and of its
sort, or a reported first defect (`Defined.encode_iff_hasSort`).
-/

namespace Discharge

open Term (Sorted)

variable {ds : Definitions} {e : Exp} {d : Defect}

/-! ## Expressions of the language -/

/-- The types of the language. -/
def Ty.Regular : Ty → Prop
  | .int => True
  | .float => True
  | .bool => True
  | .other => False
  | .array base => base.Regular

/-- The variables whose types, and those of their lengths, are of the language. -/
def Variable.Regular : Variable → Prop
  | .plain _ type => type.Regular
  | .array _ type length => type.Regular ∧ length.Regular

namespace Exp

mutual

/-- The expressions whose types, operators and integers are of the language. -/
def Regular : Exp → Prop
  | .var v => v.Regular
  | .int n => n.natAbs < Nat.pow 10 integerDigitLimit
  | .float _ => True
  | .bool _ => True
  | .call _ _ _ args => RegularArgs args
  | .sub array index => array.Regular ∧ index.Regular
  | .upd array index value length =>
    array.Regular ∧ index.Regular ∧ value.Regular ∧ length.Regular
  | .not arg => arg.Regular
  | .neg arg => arg.Regular
  | .bin op left right => op ≠ .unknown ∧ left.Regular ∧ right.Regular
  | .quantified _ _ body => body.Regular
  | .len arg => arg.Regular
  | .bare => False

/-- `Regular` over the arguments of a call. -/
def RegularArgs : List Exp → Prop
  | [] => True
  | a :: as => a.Regular ∧ RegularArgs as

end

end Exp

/-- Each of several regular arguments is regular. -/
theorem Exp.RegularArgs.mem {args : List Exp} (h : Exp.RegularArgs args) {arg : Exp}
    (ha : arg ∈ args) : arg.Regular := by
  induction ha with
  | head => exact h.1
  | tail _ _ ih => exact ih h.2

/-- The operands of a regular expression are regular. -/
theorem Exp.Regular.parts (h : e.Regular) : ∀ part ∈ e.parts, part.Regular := by
  cases e with
  | var | int | float | bool | len | bare => exact List.forall_mem_nil _
  | call name parameters body args =>
    rw [Exp.parts_call]
    exact fun _ ha => Exp.RegularArgs.mem h ha
  | sub array index => exact List.forall_mem_cons.2 ⟨h.1, List.forall_mem_singleton.2 h.2⟩
  | upd array index value length =>
    exact List.forall_mem_cons.2 ⟨h.1, List.forall_mem_cons.2
      ⟨h.2.1, List.forall_mem_singleton.2 h.2.2.1⟩⟩
  | not arg | neg arg | quantified _ _ arg => exact List.forall_mem_singleton.2 h
  | bin op left right =>
    rw [Exp.parts_bin]
    exact List.forall_mem_cons.2 ⟨h.2.1, List.forall_mem_singleton.2 h.2.2⟩

/-- Every operator but the unknown one has a symbol. -/
theorem BinOp.symbol?_isSome {op : BinOp} (h : op ≠ .unknown) : ∃ s, op.symbol? = some s := by
  cases op <;> first | exact ⟨_, rfl⟩ | exact absurd rfl h

mutual

/-- A regular expression can be printed. -/
theorem Exp.Regular.print : ∀ {e : Exp}, e.Regular → ∃ s, e.print = .ok s
  | .var v => fun _ => ⟨_, rfl⟩
  | .int n => fun h => by
    obtain ⟨s, hs⟩ := Option.isSome_iff_exists.1 (integerText?_isSome_iff.2 h)
    exact ⟨s, by unfold Exp.print; rw [hs]⟩
  | .float x => fun _ => ⟨_, rfl⟩
  | .bool b => fun _ => ⟨_, rfl⟩
  | .call name _ _ args => fun h => by
    obtain ⟨parts, hp⟩ := Exp.RegularArgs.print h
    exact ⟨_, by unfold Exp.print; rw [hp]; rfl⟩
  | .sub array index => fun h => by
    obtain ⟨a, ha⟩ := h.1.print
    obtain ⟨i, hi⟩ := h.2.print
    exact ⟨_, by unfold Exp.print; rw [ha, hi]; rfl⟩
  | .upd array index value _ => fun h => by
    obtain ⟨a, ha⟩ := h.1.print
    obtain ⟨i, hi⟩ := h.2.1.print
    obtain ⟨v, hv⟩ := h.2.2.1.print
    exact ⟨_, by unfold Exp.print; rw [ha, hi, hv]; rfl⟩
  | .not arg => fun h => by
    obtain ⟨a, ha⟩ := Exp.Regular.print (e := arg) h
    exact ⟨_, by unfold Exp.print; rw [ha]; rfl⟩
  | .neg arg => fun h => by
    obtain ⟨a, ha⟩ := Exp.Regular.print (e := arg) h
    exact ⟨_, by unfold Exp.print; rw [ha]; rfl⟩
  | .bin op left right => fun h => by
    obtain ⟨l, hl⟩ := h.2.1.print
    obtain ⟨r, hr⟩ := h.2.2.print
    obtain ⟨symbol, hs⟩ := BinOp.symbol?_isSome h.1
    exact ⟨_, by unfold Exp.print; rw [hl, hs, hr]; rfl⟩
  | .quantified _ _ body => fun h => by
    obtain ⟨b, hb⟩ := Exp.Regular.print (e := body) h
    exact ⟨_, by unfold Exp.print; rw [hb]; rfl⟩
  | .len arg => fun h => by
    obtain ⟨a, ha⟩ := Exp.Regular.print (e := arg) h
    exact ⟨_, by unfold Exp.print; rw [ha]; rfl⟩
  | .bare => fun _ => ⟨_, rfl⟩

/-- The arguments of a regular call can be printed. -/
theorem Exp.RegularArgs.print : ∀ {args : List Exp}, Exp.RegularArgs args →
    ∃ parts, Exp.printArgs args = .ok parts
  | [] => fun _ => ⟨_, rfl⟩
  | a :: as => fun h => by
    obtain ⟨t, ht⟩ := h.1.print
    obtain ⟨ts, hts⟩ := Exp.RegularArgs.print h.2
    exact ⟨_, by unfold Exp.printArgs; rw [ht, hts]; rfl⟩

end

/-! ## Texts -/

/-- A text about a regular expression. -/
theorem Exp.Regular.about (h : e.Regular) (rest : String) :
    ∃ text, Defect.about e rest = .ok (some text) := by
  obtain ⟨s, hs⟩ := h.print
  exact ⟨_, by rw [Defect.about, hs]⟩

/-- The type of a regular variable is regular. -/
theorem Variable.Regular.type {v : Variable} (h : v.Regular) : v.type.Regular := by
  cases v with
  | plain name type => exact h
  | array name type length => exact h.1

/-- The length variable of a regular expression is regular. -/
theorem Exp.Regular.length? {v : Variable} (hv : e.length? = some v) (h : e.Regular) :
    v.Regular := by
  cases e with
  | var w =>
    cases w with
    | plain name type => cases hv
    | array name type length => cases hv; exact h.2
  | upd array index value length => cases hv; exact h.2.2.2
  | _ => cases hv

/-- The reason why a regular type lacks a sort has a text. -/
theorem Ty.Lacks.message {t : Ty} (ht : t.Regular) (h : t.Lacks d) :
    ∃ text, d.message = .ok (some text) := by
  cases h with
  | noSort => exact ht.elim
  | elements => exact ⟨_, rfl⟩

/-- The flaw of a regular expression has a text. -/
theorem Exp.Flaw.message (he : e.Regular) (h : e.Flaw ds d) :
    ∃ text, d.message = .ok (some text) := by
  cases h with
  | var h => exact h.message (Variable.Regular.type he)
  | int h => exact absurd he h
  | float | arity | malformedLength | lengthSort => exact he.about _
  | unregistered => exact ⟨_, rfl⟩
  | lengthType hv h => exact h.message (Exp.Regular.length? hv he).type
  | bare => exact he.elim

mutual

/-- The defect of a regular expression has a text. -/
theorem Exp.Offends.message : ∀ {e : Exp} {d : Defect}, e.Offends ds d → e.Regular →
    ∃ text, d.message = .ok (some text)
  | _, _, .flaw h => h.message
  | _, _, .operand _ h => fun he =>
    h.message fun _ ho => he.parts _ (Exp.mem_parts_of_operand ho)
  | _, _, .unlike .. => fun he => he.about _
  | _, _, .unknown .. => fun he => absurd rfl he.1

/-- The first defect among regular operands has a text. -/
theorem Exp.FirstOffends.message : ∀ {l : List (Place × Exp)} {d : Defect},
    Exp.FirstOffends ds l d → (∀ o ∈ l, o.2.Regular) → ∃ text, d.message = .ok (some text)
  | _, _, .inside h => fun hl => h.message (hl _ List.mem_cons_self)
  | _, _, .mismatch .. => fun hl => (hl _ List.mem_cons_self).about _
  | _, _, .later _ h => fun hl => h.message fun o ho => hl o (List.mem_cons_of_mem _ ho)

end

/-- Over definitions that any attempts to define predicates lead to, an expression of the language
has a term exactly if it has a sort, and the term is closed and of that sort. Otherwise its first
defect is reported, with a text. -/
theorem Defined.encode_iff_hasSort {ps : List Predicate} (h : Defined ps ds) (he : e.Regular) :
    (∀ s, (∃ t, e.encode ds = .ok t ∧ Sorted 0 t s) ↔ e.HasSort ds s) ∧
      ((∀ s, ¬ e.HasSort ds s) → ∃ d text, e.encode ds = .error d ∧ e.Offends ds d ∧
        d.message = .ok (some text)) ∧
      ∀ d, e.encode ds = .error d ↔ e.Offends ds d := by
  have hd := h.wellSorted
  refine ⟨fun s => ⟨?_, fun hs => ?_⟩, fun hno => ?_, fun d => hd.encode_eq_error_iff⟩
  · rintro ⟨t, ht, hs⟩
    exact hs.sortOf_eq ▸ hd.hasSort_of_encode ht
  · obtain ⟨t, ht, hst⟩ := hs.encode hd
    exact ⟨t, ht, .of_sortOf (hd.encode ht) hst⟩
  · cases hen : e.encode ds with
    | ok t => exact absurd (hd.hasSort_of_encode hen) (hno _)
    | error d =>
      have ho := hd.offends_of_encode e hen
      obtain ⟨text, htext⟩ := ho.message he
      exact ⟨d, text, rfl, ho, htext⟩

/-- A call in a conjunction, with a subscript on the other side: by an integer it has a sort, by a
real number it has a defect. -/
theorem encode_iff_hasSort_of_subscript :
    let above : Predicate :=
      ⟨"above", [.plain "x" .float], .bin .gt (.var (.plain "x" .float)) (.var (.plain "y" .int))⟩
    let conj (index : Variable) : Exp :=
      .bin .and (above.call [.var (.plain "n" .int)])
        (.sub (.var (.arrayOf "a" .bool)) (.var index))
    ∃ ds, Definitions.empty.define above = .ok ds ∧
      (∃ t, (conj (.plain "n" .int)).encode ds = .ok t ∧ Sorted 0 t .bool) ∧
      (conj (.plain "x" .float)).Offends ds
        (.sortMismatch (.var (.plain "x" .float)) .int .real) := by
  intro above conj
  let ds : Definitions :=
    ⟨[("above", ⟨.app .gt (.const "x" .real) (.toReal (.const "y" .int)), [("x", .real)]⟩)]⟩
  have h : Defined [above] ds := .accept .empty rfl
  have hregular (index : Variable) (hi : index.Regular) : (conj index).Regular :=
    ⟨nofun, ⟨trivial, trivial⟩, ⟨trivial, trivial⟩, hi⟩
  refine ⟨ds, rfl, ?_, ?_⟩
  · refine ((Defined.encode_iff_hasSort h (hregular (.plain "n" .int) trivial)).1 .bool).2 ?_
    exact .bin (.call rfl (.cons (.var .int) rfl .nil)) (.sub (.var (.array .bool)) (.var .int))
      (.connective rfl)
  · exact ((Defined.encode_iff_hasSort h (hregular (.plain "x" .float) trivial)).2.2 _).1 rfl

end Discharge
