import Discharge.Proofs.Encoding.Diagnostics
import Discharge.Proofs.Encoding.Restatement
import Discharge.Proofs.Syntax.Texts

/-!
# Printing keeps the meaning

An expression need not come from a text. If it is printed and its text is read, the result may be
another expression: a negative constant is read as a negation, and a division with the operator that
the types of its operands choose. By `Defined.denote_parse_print` the result has the same sort and the
same value under every interpretation.
-/

namespace Discharge

namespace Exp

/-- `Printable declared ps bound part`: where the names `bound` are bound, the expression's text can be
read if those of its immediate parts can. Numbers may have a sign. -/
def Printable (declared : List Variable) (ps : List Predicate) (bound : List String) : Exp → Prop
  | .var v => IsIdentifier v.name ∧ v.Refers declared bound
  | .int n => n.natAbs < Nat.pow 10 integerDigitLimit
  | .float x => ∃ q, x.toRat? = some q ∧ (q = 0 ∨ 1 / 10000 ≤ |q| ∧ |q| < 10 ^ 16)
  | .call name _ _ _ => IsIdentifier name ∧ ∃ p ∈ ps, p.name = name
  | .upd array _ _ length => array.length? = some length
  | .quantified _ names _ => names ≠ [] ∧ ∀ n ∈ names, IsIdentifier n
  | _ => True

end Exp

/-! ## The texts of negative numbers -/

/-- A negative integer is written with a minus sign in front. -/
theorem toString_neg {n : Nat} (h : 0 < n) : toString (-(n : Int)) = "-" ++ toString (n : Int) := by
  rw [Int.toString_eq_repr, Int.toString_eq_repr, Int.repr_eq_if, Int.repr_eq_if,
    if_neg (by omega), if_pos (by omega), Int.neg_neg]

/-- An integer that does not have too many digits has its usual text. -/
theorem integerText?_eq_some {n : Int} (h : n.natAbs < Nat.pow 10 integerDigitLimit) :
    integerText? n = some (toString n) :=
  if_pos h

namespace Binary64

/-- A negative double is written with a minus sign in front. -/
theorem text_neg (r : Fin finiteRanks) : (finite true r).text = "-" ++ (finite false r).text := by
  simp [text]

/-- Of a double that is zero or of moderate magnitude, the magnitude is positional. -/
theorem positional_of_abs {negative : Bool} {r : Fin finiteRanks} {q : Rat}
    (hq : (finite negative r).toRat? = some q) (h : q = 0 ∨ 1 / 10000 ≤ |q| ∧ |q| < 10 ^ 16) :
    (finite false r).Positional := by
  have hnonneg : (0 : Rat) ≤ (units r : Rat) / unitsPerOne := by positivity
  have habs : |q| = (units r : Rat) / unitsPerOne := by
    rw [toRat?, Rat.mkRat_eq_div, Option.some.injEq] at hq
    rw [← hq]
    cases negative with
    | false => exact abs_of_nonneg hnonneg
    | true => exact (abs_neg _).trans (abs_of_nonneg hnonneg)
  refine ⟨_, toRat?_finite r, ?_⟩
  rwa [← habs, abs_eq_zero]

end Binary64

/-! ## What is printed is read -/

section

variable {ds : Definitions} {P : String → Option PredicateMeaning} {declared : List Variable}
  {ps : List Predicate} {bound : List String} {e : Exp}

/-- The text of the expression is read, where the names `bound` are bound, as one that says the same.
The text of an array is an atom, so that a bracket may follow. -/
structure Exp.ReadsBack (ds : Definitions) (P : String → Option PredicateMeaning)
    (declared : List Variable) (ps : List Predicate) (bound : List String) (e : Exp) (s : String)
    (t : Tree) (e' : Exp) : Prop where
  print : e.print = .ok s
  operand : Writes (.level 0) s t
  array : ∀ {b}, e.HasSort ds (.array b) → Writes .atom s t
  resolves : Resolves ps ((Scope.ofList declared).bind bound) t e'
  restates : e.Restates ds P e'

namespace Exp.ReadsBack

variable {s : String} {t : Tree} {e' : Exp}

/-- A text that spells an atom, which is resolved as an expression that says the same, is read back.
-/
theorem of_atom (hp : e.print = .ok s) (hw : Writes .atom s t)
    (hr : Resolves ps ((Scope.ofList declared).bind bound) t e') (he : e.Restates ds P e') :
    e.ReadsBack ds P declared ps bound s t e' :=
  ⟨hp, hw.of_atom, fun _ => hw, hr, he⟩

/-- A text that is read back spells a whole formula. -/
theorem loosest (h : e.ReadsBack ds P declared ps bound s t e') : Writes (.level loosest) s t :=
  h.operand.loosen (Nat.zero_le _)

end Exp.ReadsBack

/-- A predicate is found under its name. -/
theorem Predicate.exists_lookup? {n : String} (h : ∃ p ∈ ps, p.name = n) :
    ∃ p, lookup? ps n = some p := by
  obtain ⟨p, hp, hn⟩ := h
  refine Option.isSome_iff_exists.1 (List.find?_isSome.2 ⟨p, List.mem_reverse.2 hp, ?_⟩)
  exact beq_iff_eq.2 hn

/-- An integer is read back, with a minus sign as a negative. -/
theorem Exp.readsBack_int {n : Int} (h : n.natAbs < Nat.pow 10 integerDigitLimit) :
    ∃ s t e', (Exp.int n).ReadsBack ds P declared ps bound s t e' := by
  have hprint : (Exp.int n).print = .ok (toString n) := by
    unfold print
    rw [integerText?_eq_some h]
  rcases lt_or_ge n 0 with hn | hn
  · obtain ⟨m, rfl⟩ : ∃ m : Nat, n = -(m : Int) := ⟨n.natAbs, by omega⟩
    rw [Int.natAbs_neg, Int.natAbs_natCast] at h
    rw [toString_neg (by omega)] at hprint
    exact ⟨_, _, _, hprint, (Writes.int h).of_atom.minus, nofun, .neg (.int m), .int m⟩
  · obtain ⟨m, rfl⟩ := Int.eq_ofNat_of_zero_le hn
    rw [Int.natAbs_natCast] at h
    exact ⟨_, _, _, .of_atom hprint (.int h) (.int m) (.leaf rfl trivial)⟩

/-- A float in positional notation is read back, with a minus sign as a negative. -/
theorem Exp.readsBack_float {x : Binary64}
    (h : ∃ q, x.toRat? = some q ∧ (q = 0 ∨ 1 / 10000 ≤ |q| ∧ |q| < 10 ^ 16)) :
    ∃ s t e', (Exp.float x).ReadsBack ds P declared ps bound s t e' := by
  obtain ⟨q, hq, h⟩ := h
  cases x with
  | nan | infinity => cases hq
  | finite negative r =>
    have hw := Writes.float (Binary64.positional_of_abs hq h)
    cases negative with
    | false => exact ⟨_, _, _, .of_atom rfl hw (.float _) (.leaf rfl trivial)⟩
    | true =>
      have hprint : (Exp.float (.finite true r)).print =
          .ok ("-" ++ (Binary64.finite false r).text) := by
        unfold print
        rw [Binary64.text_neg]
      exact ⟨_, _, _, hprint, hw.of_atom.minus, nofun, .neg (.float _), .float r⟩

/-- A division is read with the operator that the types of its operands choose. -/
theorem Exp.readsBack_bin {op : BinOp} {l r l' r' : Exp} {a b : String} {t u : Tree} {w : TermSort}
    (h : (Exp.bin op l r).HasSort ds w) (hl : l.ReadsBack ds P declared ps bound a t l')
    (hr : r.ReadsBack ds P declared ps bound b u r') :
    ∃ s t e', (Exp.bin op l r).ReadsBack ds P declared ps bound s t e' := by
  cases h with
  | bin hsl hsr hsig =>
    obtain ⟨c, hc⟩ := BinOp.symbol?_isSome hsig.ne_unknown
    have hprint : (Exp.bin op l r).print = .ok ("(" ++ a ++ " " ++ c ++ " " ++ b ++ ")") := by
      unfold print
      rw [hl.print, hc, hr.print]
      rfl
    have hw := Writes.bin hc hl.operand hr.operand
    by_cases hop : op = .div ∨ op = .floatDiv
    · obtain ⟨_, hx, -⟩ := (hl.restates.sort hsl).typeOf hl.restates.disambiguated
      obtain ⟨_, hy, -⟩ := (hr.restates.sort hsr).typeOf hr.restates.disambiguated
      obtain ⟨o, ho⟩ : ∃ o, divisionOf l' r' = .ok o := by rw [divisionOf, hx, hy]; exact ⟨_, rfl⟩
      have hread : op.asRead = .div := by rcases hop with rfl | rfl <;> rfl
      rw [hread] at hw
      exact ⟨_, _, _, .of_atom hprint hw (.division o ho hl.resolves hr.resolves)
        (.division hop ho hl.restates hr.restates)⟩
    · exact ⟨_, _, _, .of_atom hprint hw (.of_sides (absurd · hop) hl.resolves hr.resolves)
        (.bin hop hl.restates hr.restates)⟩

/-- The texts of arguments, one by one. -/
theorem Exp.readsBack_args {args : List Exp}
    (h : ∀ arg ∈ args, ∃ s t e', arg.ReadsBack ds P declared ps bound s t e') :
    ∃ ss us as, printArgs args = .ok ss ∧ List.Forall₂ (Writes (.level loosest)) ss us ∧
      List.Forall₂ (Resolves ps ((Scope.ofList declared).bind bound)) us as ∧
      List.Forall₂ (Restates ds P) args as := by
  induction args with
  | nil => exact ⟨[], [], [], rfl, .nil, .nil, .nil⟩
  | cons arg args ih =>
    obtain ⟨⟨s, t, a, ha⟩, hargs⟩ := List.forall_mem_cons.1 h
    obtain ⟨ss, us, as, hp, hws, hrs, has⟩ := ih hargs
    exact ⟨s :: ss, t :: us, a :: as, by unfold printArgs; rw [ha.print, hp]; rfl,
      .cons ha.loosest hws, .cons ha.resolves hrs, .cons ha.restates has⟩

/-- An expression with printable parts that have sorts is read back as one that says the same. -/
theorem Exp.Throughout.readsBack (h : e.Throughout
      (fun bound part => part.Printable declared ps bound ∧ ∃ s, part.HasSort ds s) bound) :
    ∃ s t e', e.ReadsBack ds P declared ps bound s t e' := by
  induction h with
  | @var bound v h =>
    exact ⟨_, _, _, .of_atom rfl (.name h.1.1) (.name _ (Variable.refers_iff.1 h.1.2))
      (.leaf rfl trivial)⟩
  | int h => exact readsBack_int h.1
  | float h => exact readsBack_float h.1
  | bool =>
    exact ⟨_, _, _, .of_atom rfl (.truth _) (.truth _) (.leaf rfl trivial)⟩
  | call h _ ih =>
    obtain ⟨⟨hname, hp⟩, -⟩ := h
    obtain ⟨p, hp⟩ := Predicate.exists_lookup? hp
    obtain ⟨ss, us, as, hprint, hws, hrs, has⟩ := readsBack_args ih
    obtain rfl := Predicate.name_of_lookup? hp
    exact ⟨_, _, _, .of_atom (by unfold Exp.print; rw [hprint]; rfl) (.call hname hws)
      (.call _ p hp (.of_forall₂ hrs)) (.call (.of_forall₂ has))⟩
  | sub h _ _ iha ihi =>
    obtain ⟨-, _, hsort⟩ := h
    obtain ⟨_, _, _, ha⟩ := iha
    obtain ⟨_, _, _, hi⟩ := ihi
    cases hsort with
    | sub hsa _ =>
      exact ⟨_, _, _, .of_atom (by unfold Exp.print; rw [ha.print, hi.print]; rfl)
        (.sub (ha.array hsa) hi.loosest) (.sub ha.resolves hi.resolves)
        (.sub ha.restates hi.restates)⟩
  | upd h _ _ _ iha ihi ihv =>
    obtain ⟨hlen, _, hsort⟩ := h
    obtain ⟨_, _, _, ha⟩ := iha
    obtain ⟨_, _, _, hi⟩ := ihi
    obtain ⟨_, _, _, hv⟩ := ihv
    cases hsort with
    | upd hsa _ _ _ =>
      exact ⟨_, _, _, .of_atom (by unfold Exp.print; rw [ha.print, hi.print, hv.print]; rfl)
        (.upd (ha.array hsa) hi.loosest hv.loosest)
        (.upd _ ha.resolves hi.resolves hv.resolves (ha.restates.length?.trans hlen))
        (.upd ha.restates hi.restates hv.restates)⟩
  | not _ _ ih =>
    obtain ⟨_, _, _, ha⟩ := ih
    exact ⟨_, _, _, .of_atom (by unfold Exp.print; rw [ha.print]; rfl) (.not ha.operand)
      (.not ha.resolves) (.not ha.restates)⟩
  | neg _ _ ih =>
    obtain ⟨_, _, _, ha⟩ := ih
    exact ⟨_, _, _, .of_atom (by unfold Exp.print; rw [ha.print]; rfl) (.neg ha.operand)
      (.neg ha.resolves) (.neg ha.restates)⟩
  | bin h _ _ ihl ihr =>
    obtain ⟨-, _, hsort⟩ := h
    obtain ⟨_, _, _, hl⟩ := ihl
    obtain ⟨_, _, _, hr⟩ := ihr
    exact readsBack_bin hsort hl hr
  | quantified h _ ih =>
    obtain ⟨_, _, _, hb⟩ := ih
    have hr := hb.resolves
    rw [← Scope.bind_bind] at hr
    exact ⟨_, _, _, .of_atom (by unfold Exp.print; rw [hb.print]; rfl)
      (.quantified h.1.1 h.1.2 hb.loosest) (.quantified _ _ hr) (.quantified hb.restates)⟩
  | len _ _ ih =>
    obtain ⟨_, _, _, ha⟩ := ih
    exact ⟨_, _, _, .of_atom (by unfold Exp.print; rw [ha.print]; rfl) (.len ha.loosest)
      (.len ha.resolves) (.len ha.restates)⟩
  | bare h =>
    obtain ⟨-, _, hsort⟩ := h
    cases hsort

end

/-- Printing keeps the meaning. Take an expression of which every part is printable over the declared
variables and the predicates, and is encoded over definitions that any attempts to define predicates
lead to. Then its text is read as an expression that is encoded with the same sort, to a term that has
the same value under every interpretation. -/
theorem Defined.denote_parse_print {accepted : List Predicate} {ds : Definitions}
    (h : Defined accepted ds) {declared : List Variable} {predicates : List Predicate} {e : Exp}
    (he : e.Throughout (fun bound part => part.Printable declared predicates bound ∧
      ∃ t, part.encode ds = .ok t) []) :
    ∃ s e' t t', e.print = .ok s ∧ Exp.parse s declared predicates = .ok e' ∧
      e.encode ds = .ok t ∧ e'.encode ds = .ok t' ∧ t'.sortOf = t.sortOf ∧
      ∀ I, t'.denote I [] = t.denote I [] := by
  have hd := h.wellSorted
  obtain ⟨t, ht⟩ := he.here.2
  have hsort {part : Exp} : (∃ t, part.encode ds = .ok t) → ∃ s, part.HasSort ds s :=
    fun ⟨t, ht⟩ => ⟨t.sortOf, hd.hasSort_of_encode ht⟩
  have hparts := he.imp fun _ _ hp => And.imp_right hsort hp
  obtain ⟨s, tree, e', hback⟩ := hparts.readsBack (P := PredicateMeaning.table accepted)
  obtain ⟨t', ht', hsort⟩ := (hback.restates.sort (hd.hasSort_of_encode ht)).encode hd
  refine ⟨s, e', t, t', hback.print, ?_, ht, ht', hsort, fun I => ?_⟩
  · exact Exp.parse_eq_ok.2 ⟨tree, hback.loosest.ofText?_eq, hback.resolves.resolve_eq⟩
  · rw [h.denote_encode ht', h.denote_encode ht, hback.restates.meaning]

/-- A real division of integers by a negative constant: read back, it divides integers, and by a
negation. -/
theorem denote_parse_print_of_ratio :
    let k : Exp := .var (.plain "k" .int)
    let i : Exp := .var (.plain "i" .int)
    let e : Exp := .quantified .all ["k"] (.bin .le (.bin .floatDiv k (.int (-2))) i)
    let e' : Exp := .quantified .all ["k"] (.bin .le (.bin .div k (.neg (.int 2))) i)
    e.print = .ok "(\\forall k. ((k / -2) <= i))" ∧
      Exp.parse "(\\forall k. ((k / -2) <= i))" [.plain "i" .int] [] = .ok e' ∧
      ∃ t t', e.encode .empty = .ok t ∧ e'.encode .empty = .ok t' ∧
        ∀ I, t'.denote I [] = t.denote I [] := by
  intro k i e e'
  have hprint : e.print = .ok "(\\forall k. ((k / -2) <= i))" := by decide +kernel
  have hread : Exp.parse "(\\forall k. ((k / -2) <= i))" [.plain "i" .int] [] = .ok e' := by cbv
  have hencode {e : Exp} {s : TermSort} (h : e.HasSort .empty s) : ∃ t, e.encode .empty = .ok t := by
    obtain ⟨t, ht, -⟩ := h.encode Defined.empty.wellSorted
    exact ⟨t, ht⟩
  have hlimit : (-2 : Int).natAbs < Nat.pow 10 integerDigitLimit := by
    have hpos : 1 ≤ integerDigitLimit := by decide
    generalize integerDigitLimit = n at hpos ⊢
    exact (show 2 < 10 ^ 1 by decide).trans_le (Nat.pow_le_pow_right (by decide) hpos)
  have hk : IsIdentifier "k" := isIdentifier_of_letter (c := 'k') rfl
  have hi : IsIdentifier "i" := isIdentifier_of_letter (c := 'i') rfl
  have hsk : k.HasSort .empty .int := .var .int
  have hsi : i.HasSort .empty .int := .var .int
  have hsn : (Exp.int (-2)).HasSort .empty .int := .int hlimit
  have hratio : (Exp.bin .floatDiv k (.int (-2))).HasSort .empty .int :=
    .bin hsk hsn (.numeric rfl rfl rfl)
  have hle : (Exp.bin .le (.bin .floatDiv k (.int (-2))) i).HasSort .empty .bool :=
    .bin hratio hsi (.comparison rfl rfl rfl)
  have hparts : e.Throughout (fun bound part => part.Printable [.plain "i" .int] [] bound ∧
      ∃ t, part.encode .empty = .ok t) [] :=
    .quantified ⟨⟨by simp, by simpa using hk⟩, hencode (.quantified hle)⟩
      (.bin ⟨trivial, hencode hle⟩
        (.bin ⟨trivial, hencode hratio⟩ (.var ⟨⟨hk, rfl⟩, hencode hsk⟩) (.int ⟨hlimit, hencode hsn⟩))
        (.var ⟨⟨hi, rfl⟩, hencode hsi⟩))
  obtain ⟨s, e'', t, t', hs, hp, ht, ht', -, hden⟩ := Defined.denote_parse_print .empty hparts
  obtain rfl := Except.ok.inj (hprint.symm.trans hs)
  obtain rfl := Except.ok.inj (hread.symm.trans hp)
  exact ⟨hprint, hread, t, t', ht, ht', hden⟩

/-- The text of a call is not read over predicates among which the called one is not. -/
theorem Defined.not_parse_print_of_undeclared :
    let p : Predicate := .ofName "P"
    IsIdentifier "P" ∧ ∃ ds, Definitions.empty.define p = .ok ds ∧
      (p.call []).encode ds = .ok (.bool true) ∧ (p.call []).print = .ok "P()" ∧
      Exp.parse "P()" [] [] = .error (.resolution (.undeclaredPredicate "P")) :=
  ⟨isIdentifier_of_letter (c := 'P') rfl, ⟨[("P", ⟨.bool true, []⟩)]⟩, rfl, rfl, rfl, by cbv⟩

end Discharge
