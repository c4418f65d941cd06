import Discharge.Proofs.Encoding.Diagnostics
import Discharge.Proofs.Syntax.Equality
import Discharge.Proofs.Syntax.Texts

/-!
# What can be read

`Exp.readable_iff` says which expressions are read from some text, up to equality of values: those
of which every part is `Exp.Readable`. Derivation by derivation, what was read has readable parts;
and from its readable parts every expression gets a text in which each operator and each quantifier
stands in parentheses.
-/

namespace Discharge

open Token (commas IsKeyword IsName)

namespace Exp

/-! ## What every part of a read expression satisfies -/

/-- `Readable free declared ps bound part`: where the names `bound` are bound, the expression can be
read if its immediate parts can. `free` says that the first name of a quantifier may be a keyword. -/
def Readable (free : Bool) (declared : List Variable) (ps : List Predicate) (bound : List String) :
    Exp → Prop
  | .var v => IsIdentifier v.name ∧ v.Refers declared bound
  | .int n => 0 ≤ n ∧ n.natAbs < Nat.pow 10 integerDigitLimit
  | .float x => x.Nonneg
  | .call name parameters body _ => IsIdentifier name ∧ ∃ p, Predicate.last? ps name = some p ∧
      p.parameters = parameters ∧ p.body.equal body = true
  | .upd array _ _ length => array.length? = some length
  | .bin op left right => op ≠ .unknown ∧ (op = .div ∨ op = .floatDiv →
      ∃ s t, left.typeOf = .ok s ∧ right.typeOf = .ok t ∧
        op = if s = .float ∨ t = .float then .floatDiv else .div)
  | .quantified _ names _ => names ≠ [] ∧ (∀ n ∈ names, IsName n) ∧
      ∀ n ∈ if free then names.tail else names, ¬ IsKeyword n
  | .bool _ | .sub _ _ | .not _ | .neg _ | .len _ => True
  | .bare => False

end Exp

/-! ## Everything that is read is readable -/

section

variable {declared : List Variable} {ps : List Predicate} {bound : List String} {e e' : Exp}
  {st : Stratum} {o : Bool} {ts : List Token} {t u : Tree} {n : String}

/-- A name that no quantifier sign stands before is an identifier. -/
theorem KeywordsGlued.isIdentifier (hg : KeywordsGlued false (.word n :: ts))
    (hn : (Leaf.name n).Legible) : IsIdentifier n :=
  ⟨hn, fun hk => absurd (hg.1 n rfl hk) Bool.false_ne_true⟩

/-- Among the names of a quantifier, only the first may be a keyword. -/
theorem KeywordsGlued.not_isKeyword_of_mem_tail {g : Bool} {ns : List String}
    (hg : KeywordsGlued g (commas (ns.map fun m => [.word m]))) : ∀ m ∈ ns.tail, ¬ IsKeyword m := by
  match ns with
  | [] | [_] => simp
  | n :: m :: ns =>
    have hsplit : KeywordsGlued g
        ([.word n] ++ .comma :: commas ((m :: ns).map fun m => [.word m])) := by
      simpa [commas] using hg
    intro k hk hkey
    have hword := hsplit.split.2.of_commas _ (List.mem_map_of_mem hk)
    exact absurd (hword.1 k rfl hkey) Bool.false_ne_true

/-- The expression of the tree, if it has one, is readable, and so is everything equal to it. -/
def Tree.YieldsReadable (declared : List Variable) (ps : List Predicate) (t : Tree) : Prop :=
  ∀ {bound e' e}, Resolves ps ((Scope.ofList declared).bind bound) t e' → e'.equal e = true →
    e.Throughout (Exp.Readable true declared ps) bound

/-- A binary tree yields what can be read if its operands do. -/
theorem Tree.yieldsReadable_bin {op : BinOp} {k : Nat} (hop : op ∈ operatorsAt k)
    (ht : t.YieldsReadable declared ps) (hu : u.YieldsReadable declared ps) :
    (Tree.bin op t u).YieldsReadable declared ps := by
  intro bound e' e hr heq
  have hdivides := hr.divides hop
  obtain ⟨o, a, b, rfl, ho, ha, hb⟩ := hr.of_bin
  obtain ⟨a', b', rfl, heqa, heqb⟩ := Exp.equal_bin.1 heq
  obtain ⟨-, s, hs⟩ := BinOp.asRead_of_mem hop ho
  refine .bin ⟨?_, fun hdiv => ?_⟩ (ht ha heqa) (hu hb heqb)
  · rintro rfl
    cases hs
  · exact Exp.divisionOf_eq_ok_iff.1 ((Exp.divisionOf_of_equal heqa heqb).1 (hdivides hdiv))

/-- Arguments yield what can be read if each of them does. -/
theorem Tree.yieldsReadable_args {us : List Tree} {as bs : List Exp}
    (h : ∀ u ∈ us, u.YieldsReadable declared ps)
    (has : List.Forall₂ (Resolves ps ((Scope.ofList declared).bind bound)) us as)
    (heq : List.Forall₂ (fun a b => a.equal b = true) as bs) :
    ∀ b ∈ bs, b.Throughout (Exp.Readable true declared ps) bound := by
  induction has generalizing bs with
  | nil => cases heq; exact List.forall_mem_nil _
  | cons ha _ ih =>
    obtain ⟨hu, hus⟩ := List.forall_mem_cons.1 h
    cases heq with
    | cons hab heq => exact List.forall_mem_cons.2 ⟨hu ha hab, ih hus heq⟩

/-- What was read is readable, and so is everything equal to it. -/
theorem Derives.yieldsReadable (h : Derives st o ts t) (hg : KeywordsGlued false ts)
    (hleg : ∀ x ∈ t.leaves, x.Legible) : t.YieldsReadable declared ps := by
  induction h with
  | float w f =>
    intro bound e' e hr heq
    cases hr
    obtain ⟨y, rfl, hy⟩ := Exp.equal_float.1 heq
    exact .float (Binary64.nonneg_iff.2 ⟨_, hleg _ List.mem_cons_self, hy⟩)
  | int ds =>
    have hfits := hleg _ List.mem_cons_self
    generalize Decimal.ofDigitValues (ds.map fun c => c.toNat - '0'.toNat) = m at hfits ⊢
    intro bound e' e hr heq
    cases hr
    obtain rfl := Exp.equal_int.1 heq
    exact .int ⟨Int.natCast_nonneg m, lt_pow_of_length_toDigits (by decide) hfits⟩
  | truth b =>
    intro bound e' e hr heq
    cases hr
    obtain rfl := Exp.equal_bool.1 heq
    exact .bool trivial
  | name n =>
    intro bound e' e hr heq
    cases hr with
    | name _ hv =>
      obtain rfl := Exp.equal_var.1 heq
      obtain rfl := Scope.name_of_lookup? hv
      exact .var ⟨hg.isIdentifier (hleg _ List.mem_cons_self), Variable.refers_iff.2 hv⟩
  | len _ ih =>
    intro bound e' e hr heq
    cases hr with
    | len ha =>
      obtain ⟨a, rfl, heq⟩ := Exp.equal_len.1 heq
      exact .len trivial (ih hg.2.2.split.1 hleg ha heq)
  | call n parts _ ih =>
    rw [Tree.leaves, List.forall_mem_cons, Tree.leavesArgs_eq] at hleg
    intro bound e' e hr heq
    cases hr with
    | call _ p hp has =>
      obtain rfl := Predicate.name_of_lookup? hp
      obtain ⟨body, args, rfl, hbody, hargs⟩ := Exp.equal_call.1 heq
      rw [Predicate.lookup?_eq_last?] at hp
      refine .call ⟨hg.isIdentifier hleg.1, p, hp, rfl, hbody⟩
        (Tree.yieldsReadable_args (fun u hu => ?_) has.forall₂ (Exp.equalArgs_iff.1 hargs))
      obtain ⟨q, hq, rfl⟩ := List.mem_map.1 hu
      exact ih q hq (hg.2.2.split.1.of_commas _ (List.mem_map_of_mem hq))
        fun x hx => hleg.2 x (List.mem_flatMap.2 ⟨_, hu, hx⟩)
  | paren _ ih => exact ih hg.2.split.1 hleg
  | sub _ _ iha ihi =>
    rw [Tree.leaves, List.forall_mem_append] at hleg
    intro bound e' e hr heq
    cases hr with
    | sub ha hi =>
      obtain ⟨a, i, rfl, heqa, heqi⟩ := Exp.equal_sub.1 heq
      exact .sub trivial (iha hg.split.1 hleg.1 ha heqa) (ihi hg.split.2.split.1 hleg.2 hi heqi)
  | upd _ _ _ iha ihi ihv =>
    rw [Tree.leaves, List.forall_mem_append, List.forall_mem_append] at hleg
    intro bound e' e hr heq
    cases hr with
    | upd length ha hi hv hlen =>
      obtain ⟨a, i, v, rfl, heqa, heqi, heqv⟩ := Exp.equal_upd.1 heq
      exact .upd ((Exp.length?_of_equal heqa).symm.trans hlen) (iha hg.split.1 hleg.1 ha heqa)
        (ihi hg.split.2.split.1 hleg.2.1 hi heqi)
        (ihv hg.split.2.split.2.split.1 hleg.2.2 hv heqv)
  | operand _ ih => exact ih hg hleg
  | not _ ih =>
    intro bound e' e hr heq
    cases hr with
    | not ha =>
      obtain ⟨a, rfl, heq⟩ := Exp.equal_not.1 heq
      exact .not trivial (ih hg.2 hleg ha heq)
  | neg _ ih =>
    intro bound e' e hr heq
    cases hr with
    | neg ha =>
      obtain ⟨a, rfl, heq⟩ := Exp.equal_neg.1 heq
      exact .neg trivial (ih hg.2 hleg ha heq)
  | quantified kind ns hne _ ih =>
    rw [Tree.leaves, List.forall_mem_append, List.forall_mem_map] at hleg
    intro bound e' e hr heq
    cases hr with
    | quantified _ _ hb =>
      obtain ⟨b, rfl, heqb⟩ := Exp.equal_quantified.1 heq
      rw [Scope.bind_bind] at hb
      have hsplit := hg.2.split
      exact .quantified ⟨hne, hleg.1, hsplit.1.not_isKeyword_of_mem_tail⟩
        (ih hsplit.2 hleg.2 hb heqb)
  | tighter _ ih => exact ih hg hleg
  | left hop _ _ _ ihx ihy =>
    rw [Tree.leaves, List.forall_mem_append] at hleg
    exact Tree.yieldsReadable_bin hop (ihx hg.split.1 hleg.1) (ihy hg.split.2 hleg.2)
  | right _ _ ihx ihy =>
    rw [Tree.leaves, List.forall_mem_append] at hleg
    exact Tree.yieldsReadable_bin (k := implicationLevel) (by decide) (ihx hg.split.1 hleg.1)
      (ihy hg.split.2 hleg.2)

/-! ## Everything that is readable is read -/

/-- Some text is read as an expression equal to this one wherever the names `bound` are bound. -/
def Exp.HasText (declared : List Variable) (ps : List Predicate) (bound : List String) (e : Exp) :
    Prop :=
  ∃ s t e', Writes .atom s t ∧ Resolves ps ((Scope.ofList declared).bind bound) t e' ∧
    e'.equal e = true

/-- Arguments that have texts have them together, with the trees and expressions that these are read
as. -/
theorem Exp.hasText_args {args : List Exp} (h : ∀ arg ∈ args, arg.HasText declared ps bound) :
    ∃ ss us as, List.Forall₂ (Writes (.level loosest)) ss us ∧
      List.Forall₂ (Resolves ps ((Scope.ofList declared).bind bound)) us as ∧
      List.Forall₂ (fun a b => a.equal b = true) as args := by
  induction args with
  | nil => exact ⟨[], [], [], .nil, .nil, .nil⟩
  | cons arg args ih =>
    obtain ⟨⟨s, t, a, hw, hr, heq⟩, hargs⟩ := List.forall_mem_cons.1 h
    obtain ⟨ss, us, as, hws, hrs, heqs⟩ := ih hargs
    exact ⟨s :: ss, t :: us, a :: as, .cons hw.of_atom hws, .cons hr hrs, .cons heq heqs⟩

/-- An expression with readable parts has a text. -/
theorem Exp.Throughout.hasText (h : e.Throughout (Exp.Readable true declared ps) bound) :
    e.HasText declared ps bound := by
  induction h with
  | @var bound v h => exact ⟨_, _, .var v, .name h.1, .name _ (Variable.refers_iff.1 h.2),
      Exp.equal_var.2 rfl⟩
  | @int bound n h =>
    obtain ⟨m, rfl⟩ := Int.eq_ofNat_of_zero_le h.1
    exact ⟨_, _, _, .int h.2, .int m, Exp.equal_int.2 rfl⟩
  | @float bound x h =>
    obtain ⟨y, hy, heq⟩ := Binary64.nonneg_iff.1 h
    obtain ⟨s, hs⟩ := Writes.exists_float hy
    exact ⟨s, _, _, hs, .float y, Exp.equal_float.2 ⟨x, rfl, heq⟩⟩
  | @bool bound b h => exact ⟨_, _, _, .truth b, .truth b, Exp.equal_bool.2 rfl⟩
  | @call bound name parameters body args h _ ih =>
    obtain ⟨hname, p, hp, rfl, hbody⟩ := h
    rw [← Predicate.lookup?_eq_last?] at hp
    obtain rfl := Predicate.name_of_lookup? hp
    obtain ⟨ss, us, as, hws, hrs, heqs⟩ := Exp.hasText_args ih
    exact ⟨_, _, _, .call hname hws, .call _ p hp (.of_forall₂ hrs),
      Exp.equal_call.2 ⟨body, args, rfl, hbody, Exp.equalArgs_iff.2 heqs⟩⟩
  | sub _ _ _ iha ihi =>
    obtain ⟨_, _, _, ha, hra, heqa⟩ := iha
    obtain ⟨_, _, _, hi, hri, heqi⟩ := ihi
    exact ⟨_, _, _, .sub ha hi.of_atom, .sub hra hri, Exp.equal_sub.2 ⟨_, _, rfl, heqa, heqi⟩⟩
  | upd h _ _ _ iha ihi ihv =>
    obtain ⟨_, _, _, ha, hra, heqa⟩ := iha
    obtain ⟨_, _, _, hi, hri, heqi⟩ := ihi
    obtain ⟨_, _, _, hv, hrv, heqv⟩ := ihv
    exact ⟨_, _, _, .upd ha hi.of_atom hv.of_atom,
      .upd _ hra hri hrv ((Exp.length?_of_equal heqa).trans h),
      Exp.equal_upd.2 ⟨_, _, _, rfl, heqa, heqi, heqv⟩⟩
  | not _ _ ih =>
    obtain ⟨_, _, _, ha, hr, heq⟩ := ih
    exact ⟨_, _, _, .not ha.of_atom, .not hr, Exp.equal_not.2 ⟨_, rfl, heq⟩⟩
  | neg _ _ ih =>
    obtain ⟨_, _, _, ha, hr, heq⟩ := ih
    exact ⟨_, _, _, .neg ha.of_atom, .neg hr, Exp.equal_neg.2 ⟨_, rfl, heq⟩⟩
  | bin h _ _ ihl ihr =>
    obtain ⟨_, _, _, hl, hrl, heql⟩ := ihl
    obtain ⟨_, _, _, hr, hrr, heqr⟩ := ihr
    obtain ⟨c, hc⟩ := BinOp.symbol?_isSome h.1
    have hdiv := fun hop =>
      (Exp.divisionOf_of_equal heql heqr).2 (Exp.divisionOf_eq_ok_iff.2 (h.2 hop))
    exact ⟨_, _, _, .bin hc hl.of_atom hr.of_atom, .of_sides hdiv hrl hrr,
      Exp.equal_bin.2 ⟨_, _, rfl, heql, heqr⟩⟩
  | quantified h _ ih =>
    obtain ⟨_, _, _, hb, hr, heq⟩ := ih
    rw [← Scope.bind_bind] at hr
    exact ⟨_, _, _, .quantified_of_glued h.1 h.2.1 h.2.2 hb.of_atom, .quantified _ _ hr,
      Exp.equal_quantified.2 ⟨_, rfl, heq⟩⟩
  | len _ _ ih =>
    obtain ⟨_, _, _, ha, hr, heq⟩ := ih
    exact ⟨_, _, _, .len ha.of_atom, .len hr, Exp.equal_len.2 ⟨_, rfl, heq⟩⟩
  | bare h => exact h.elim

/-! ## Quantified keywords -/

namespace Exp

/-- The names that a call binds are those that its arguments bind. -/
theorem mem_binders_call {name : String} {parameters : List Variable} {body : Exp}
    {args : List Exp} :
    n ∈ (call name parameters body args).binders ↔ ∃ arg ∈ args, n ∈ arg.binders := by
  rw [binders, erase, Tree.binders, Tree.mem_bindersArgs, eraseArgs_eq]
  simp [binders]

/-- What can be read strictly can be read with keywords as bound names. -/
theorem Readable.of_strict (h : e.Readable false declared ps bound) :
    e.Readable true declared ps bound := by
  cases e with
  | quantified kind names body => exact ⟨h.1, h.2.1, fun n hn => h.2.2 n (List.mem_of_mem_tail hn)⟩
  | _ => exact h

/-- Without the freedom in the first name no keyword is bound. -/
theorem Throughout.not_isKeyword (h : e.Throughout (Readable false declared ps) bound) :
    ∀ n ∈ e.binders, ¬ IsKeyword n := by
  induction h with
  | var | int | float | bool | bare => exact List.forall_mem_nil _
  | call _ _ ih =>
    intro n hn
    obtain ⟨arg, harg, hn⟩ := mem_binders_call.1 hn
    exact ih arg harg n hn
  | sub _ _ _ iha ihi => exact List.forall_mem_append.2 ⟨iha, ihi⟩
  | upd _ _ _ _ iha ihi ihv =>
    exact List.forall_mem_append.2 ⟨List.forall_mem_append.2 ⟨iha, ihi⟩, ihv⟩
  | not _ _ ih | neg _ _ ih | len _ _ ih => exact ih
  | bin _ _ _ ihl ihr => exact List.forall_mem_append.2 ⟨ihl, ihr⟩
  | quantified h _ ih => exact List.forall_mem_append.2 ⟨h.2.2, ih⟩

/-- What can be read and binds no keyword can be read strictly. -/
theorem Throughout.strict (h : e.Throughout (Readable true declared ps) bound)
    (hk : ∀ n ∈ e.binders, ¬ IsKeyword n) : e.Throughout (Readable false declared ps) bound := by
  induction h with
  | var h => exact .var h
  | int h => exact .int h
  | float h => exact .float h
  | bool h => exact .bool h
  | call h _ ih =>
    exact .call h fun arg harg => ih arg harg fun n hn => hk n (mem_binders_call.2 ⟨arg, harg, hn⟩)
  | sub h _ _ iha ihi =>
    obtain ⟨ha, hi⟩ := List.forall_mem_append.1 hk
    exact .sub h (iha ha) (ihi hi)
  | upd h _ _ _ iha ihi ihv =>
    obtain ⟨hai, hv⟩ := List.forall_mem_append.1 hk
    obtain ⟨ha, hi⟩ := List.forall_mem_append.1 hai
    exact .upd h (iha ha) (ihi hi) (ihv hv)
  | not h _ ih => exact .not h (ih hk)
  | neg h _ ih => exact .neg h (ih hk)
  | len h _ ih => exact .len h (ih hk)
  | bin h _ _ ihl ihr =>
    obtain ⟨hl, hr⟩ := List.forall_mem_append.1 hk
    exact .bin h (ihl hl) (ihr hr)
  | quantified h _ ih =>
    obtain ⟨hns, hb⟩ := List.forall_mem_append.1 hk
    exact .quantified ⟨h.1, h.2.1, hns⟩ (ih hb)
  | bare h => exact h.elim

end Exp

end

/-! ## The image of reading -/

/-- Up to equality of values, the expressions that are read from some text are those with readable
parts: names are identifiers and refer to what is in force, predicates are the last of their names,
numbers are not negative and integers not too long, updates are of arrays that have a length
variable, which they carry, and divisions are chosen by the types of their operands. The first name of
a quantifier may also be a keyword. Where no quantifier binds a keyword, all names are identifiers. -/
theorem Exp.readable_iff (declared : List Variable) (ps : List Predicate) (e : Exp) :
    ((∃ text e', parse text declared ps = .ok e' ∧ e'.equal e = true) ↔
      e.Throughout (Readable true declared ps) []) ∧
    (e.Throughout (Readable false declared ps) [] ↔
      (∃ text e', parse text declared ps = .ok e' ∧ e'.equal e = true) ∧
        ∀ n ∈ e.binders, ¬ IsKeyword n) := by
  have hread : (∃ text e', parse text declared ps = .ok e' ∧ e'.equal e = true) ↔
      e.Throughout (Readable true declared ps) [] := by
    constructor
    · rintro ⟨text, e', hparse, heq⟩
      obtain ⟨t, ht, hr⟩ := parse_eq_ok.1 hparse
      obtain ⟨o, hd, hg, hleg⟩ := Tree.legible_of_ofText? ht
      exact hd.yieldsReadable hg hleg (t.resolves hr) heq
    · intro h
      obtain ⟨text, t, e', hw, hr, heq⟩ := h.hasText
      exact ⟨text, e', parse_eq_ok.2 ⟨t, hw.of_atom.ofText?_eq, hr.resolve_eq⟩, heq⟩
  refine ⟨hread, ?_⟩
  rw [hread]
  exact ⟨fun h => ⟨h.imp fun _ _ => Readable.of_strict, h.not_isKeyword⟩, fun h => h.1.strict h.2⟩

/-- An expression can be read although a quantifier binds a keyword. -/
theorem Exp.not_readable_iff_strict :
    ¬ ∀ declared ps e, (∃ text e', parse text declared ps = .ok e' ∧ e'.equal e = true) ↔
      e.Throughout (Readable false declared ps) [] := by
  intro h
  have hread : parse "\\foralltrue. 1 > 0" [] [] =
      .ok (.quantified .all ["true"] (.bin .gt (.int 1) (.int 0))) := by cbv
  have hstrict := (h [] [] (.quantified .all ["true"] (.bin .gt (.int 1) (.int 0)))).1
    ⟨_, _, hread, rfl⟩
  exact hstrict.not_isKeyword "true" List.mem_cons_self (.inl rfl)

end Discharge
