import Discharge.Proofs.Encoding.Rules
import Discharge.Proofs.Syntax.EqualityRules
import Discharge.Proofs.Syntax.Leaves
import Discharge.Syntax.Resolution

/-!
# Printing and reading

An expression that was read is printed, and its text has the tokens of the tree it was read from
(`Derives.prints`). Resolution looks at the tree alone, so the text is read as the same expression
if it derives the same tree, which it does if all leaves are plain.
-/

namespace Discharge

open Token (IsKeyword Scans)

/-! ## What resolution answers with -/

mutual

/-- `Resolves ps scope t e`: over the predicates `ps` and the declarations in `scope`, the tree `t` is
resolved as `e`. -/
inductive Resolves (ps : List Predicate) : Scope → Tree → Exp → Prop
  | int {s} (n : Nat) : Resolves ps s (.int n) (.int n)
  | float {s} (x : Binary64) : Resolves ps s (.float x) (.float x)
  | truth {s} (b : Bool) : Resolves ps s (.truth b) (.bool b)
  | name {s v} (n : String) (h : s.lookup? n = some v) : Resolves ps s (.name n) (.var v)
  | call {s us as} (n : String) (p : Predicate) (h : Predicate.lookup? ps n = some p)
      (has : ResolvesArgs ps s us as) : Resolves ps s (.call n us) (p.call as)
  | sub {s t u a i} (ha : Resolves ps s t a) (hi : Resolves ps s u i) :
      Resolves ps s (.sub t u) (.sub a i)
  | upd {s t u v a i b} (length : Variable) (ha : Resolves ps s t a) (hi : Resolves ps s u i)
      (hb : Resolves ps s v b) (h : a.length? = some length) :
      Resolves ps s (.upd t u v) (.upd a i b length)
  | len {s t a} (ha : Resolves ps s t a) : Resolves ps s (.len t) (.len a)
  | not {s t a} (ha : Resolves ps s t a) : Resolves ps s (.not t) (.not a)
  | neg {s t a} (ha : Resolves ps s t a) : Resolves ps s (.neg t) (.neg a)
  | bin {s t u a b} (op : BinOp) (h : op ≠ .div) (ha : Resolves ps s t a)
      (hb : Resolves ps s u b) : Resolves ps s (.bin op t u) (.bin op a b)
  | division {s t u a b} (o : BinOp) (h : divisionOf a b = .ok o) (ha : Resolves ps s t a)
      (hb : Resolves ps s u b) : Resolves ps s (.bin .div t u) (.bin o a b)
  | quantified {s t b} (kind : Quantifier) (names : List String)
      (hb : Resolves ps (s.bind names) t b) :
      Resolves ps s (.quantified kind names t) (.quantified kind names b)

/-- `Resolves` over the arguments of a call. -/
inductive ResolvesArgs (ps : List Predicate) : Scope → List Tree → List Exp → Prop
  | nil {s} : ResolvesArgs ps s [] []
  | cons {s u us a as} (ha : Resolves ps s u a) (has : ResolvesArgs ps s us as) :
      ResolvesArgs ps s (u :: us) (a :: as)

end

variable {ps : List Predicate} {scope : Scope} {e : Exp} {st : Stratum} {o : Bool} {l : List Token}
  {t u : Tree}

/-- Arguments that are resolved are so place by place. -/
theorem ResolvesArgs.forall₂ : ∀ {us : List Tree} {as : List Exp}, ResolvesArgs ps scope us as →
    List.Forall₂ (Resolves ps scope) us as
  | [], _, .nil => .nil
  | _ :: _, _, .cons ha has => .cons ha has.forall₂

/-- A declaration that is found has the name that was looked for. -/
theorem Scope.name_of_lookup? {v : Variable} {n : String} (h : scope.lookup? n = some v) :
    v.name = n := by
  simpa using List.find?_some h

/-- A predicate that is found has the name that was looked for. -/
theorem Predicate.name_of_lookup? {p : Predicate} {n : String} (h : lookup? ps n = some p) :
    p.name = n := by
  simpa using List.find?_some h

/-- A division that is read has one of the two operators of division. -/
theorem eq_of_divisionOf {a b : Exp} {op : BinOp} (h : divisionOf a b = .ok op) :
    op = .div ∨ op = .floatDiv := by
  unfold divisionOf at h
  split at h
  · cases h
  · split at h
    · cases h
    · cases h
      split
      · exact .inr rfl
      · exact .inl rfl

mutual

/-- Resolution answers by these rules. -/
theorem Tree.resolves : (t : Tree) → ∀ {scope e}, t.resolve ps scope = .ok e → Resolves ps scope t e
  | .int n, _, _, h => by cases h; exact .int n
  | .float x, _, _, h => by cases h; exact .float x
  | .truth b, _, _, h => by cases h; exact .truth b
  | .name n, scope, _, h => by
    rw [resolve] at h
    cases hv : scope.lookup? n with
    | none => rw [hv] at h; cases h
    | some v =>
      rw [hv] at h
      cases h
      exact .name n hv
  | .call n us, _, _, h => by
    rw [resolve] at h
    cases hp : Predicate.lookup? ps n with
    | none => rw [hp] at h; cases h
    | some p =>
      rw [hp] at h
      obtain ⟨as, has, h⟩ := bind_eq_ok.1 h
      cases h
      exact .call n p hp (resolvesArgs us has)
  | .sub t u, _, _, h => by
    simp only [resolve, bind_eq_ok] at h
    obtain ⟨a, ha, i, hi, h⟩ := h
    cases h
    exact .sub (resolves t ha) (resolves u hi)
  | .upd t u v, _, _, h => by
    simp only [resolve, bind_eq_ok] at h
    obtain ⟨a, ha, i, hi, b, hb, h⟩ := h
    cases hl : a.length? with
    | none => rw [hl] at h; cases h
    | some length =>
      rw [hl] at h
      cases h
      exact .upd length (resolves t ha) (resolves u hi) (resolves v hb) hl
  | .len t, _, _, h => by
    simp only [resolve, bind_eq_ok] at h
    obtain ⟨a, ha, h⟩ := h
    cases h
    exact .len (resolves t ha)
  | .not t, _, _, h => by
    simp only [resolve, bind_eq_ok] at h
    obtain ⟨a, ha, h⟩ := h
    cases h
    exact .not (resolves t ha)
  | .neg t, _, _, h => by
    simp only [resolve, bind_eq_ok] at h
    obtain ⟨a, ha, h⟩ := h
    cases h
    exact .neg (resolves t ha)
  | .bin op t u, _, _, h => by
    simp only [resolve, bind_eq_ok] at h
    obtain ⟨a, ha, b, hb, h⟩ := h
    by_cases hdiv : op = .div
    · subst hdiv
      rw [if_pos rfl] at h
      obtain ⟨o, ho, h⟩ := bind_eq_ok.1 h
      cases h
      exact .division o ho (resolves t ha) (resolves u hb)
    · rw [if_neg hdiv] at h
      cases h
      exact .bin op hdiv (resolves t ha) (resolves u hb)
  | .quantified kind names t, _, _, h => by
    simp only [resolve, bind_eq_ok] at h
    obtain ⟨b, hb, h⟩ := h
    cases h
    exact .quantified kind names (resolves t hb)

/-- `Tree.resolves` for the arguments of a call. -/
theorem Tree.resolvesArgs : (us : List Tree) → ∀ {scope as},
    resolveArgs ps scope us = .ok as → ResolvesArgs ps scope us as
  | [], _, _, h => by cases h; exact .nil
  | u :: us, _, _, h => by
    simp only [resolveArgs, bind_eq_ok] at h
    obtain ⟨a, ha, as, has, h⟩ := h
    cases h
    exact .cons (resolves u ha) (resolvesArgs us has)

end

/-- An operator application is resolved as one of the same operator, or of real division in place of
integer division. -/
theorem Resolves.of_bin {op : BinOp} (h : Resolves ps scope (.bin op t u) e) :
    ∃ o a b, e = .bin o a b ∧ (o = op ∨ op = .div ∧ o = .floatDiv) ∧ Resolves ps scope t a ∧
      Resolves ps scope u b := by
  cases h with
  | bin _ _ ha hb => exact ⟨_, _, _, rfl, .inl rfl, ha, hb⟩
  | division o ho ha hb =>
    exact ⟨_, _, _, rfl, (eq_of_divisionOf ho).imp id fun h => ⟨rfl, h⟩, ha, hb⟩

/-- A reader takes the operator of a resolved expression for the one that it was read as, and the
operator has a symbol. -/
theorem BinOp.asRead_of_mem {op o : BinOp} {k : Nat} (hop : op ∈ operatorsAt k)
    (h : o = op ∨ op = .div ∧ o = .floatDiv) : o.asRead = op ∧ ∃ s, o.symbol? = some s := by
  rcases h with rfl | ⟨rfl, rfl⟩
  · have hlevel := mem_operatorsAt.1 hop
    cases o <;> first | exact ⟨rfl, _, rfl⟩ | cases hlevel
  · exact ⟨rfl, _, rfl⟩

/-! ## Printed texts -/

/-- A number with few digits is less than a power of ten. -/
theorem lt_pow_of_length_toDigits {n k : Nat} (hk : 0 < k) (h : (Nat.toDigits 10 n).length ≤ k) :
    n < Nat.pow 10 k :=
  (Nat.length_toDigits_le_iff (by decide) hk).1 h

/-- An integer that can be read has a text. -/
theorem integerText?_of_legible {n : Nat} (h : (Leaf.int n).Legible) :
    integerText? n = some (toString (n : Int)) := by
  have hlt : (n : Int).natAbs < Nat.pow 10 integerDigitLimit :=
    lt_pow_of_length_toDigits (by decide) h
  unfold integerText?
  generalize Nat.pow 10 integerDigitLimit = bound at hlt
  exact if_pos hlt

/-- The tree's expression, if it has one, is printed, and its text has the tokens of the tree. -/
def Tree.Prints (ps : List Predicate) (scope : Scope) (t : Tree) : Prop :=
  ∀ e, Resolves ps scope t e → ∃ s, e.print = .ok s ∧ Printed s t.tokens

/-- A binary tree is printed if its operands are. -/
theorem Tree.prints_bin {op : BinOp} {k : Nat} (hop : op ∈ operatorsAt k)
    (ht : t.Prints ps scope) (hu : u.Prints ps scope) : (Tree.bin op t u).Prints ps scope := by
  intro e hr
  obtain ⟨o, a, b, rfl, ho, ha, hb⟩ := hr.of_bin
  obtain ⟨rfl, c, hc⟩ := BinOp.asRead_of_mem hop ho
  obtain ⟨s, hs, hp⟩ := ht _ ha
  obtain ⟨r, hr, hq⟩ := hu _ hb
  exact ⟨_, by unfold Exp.print; rw [hs, hc, hr]; rfl, .bin hp hq hc⟩

/-- The arguments of a call are printed if each of them is. -/
theorem Tree.prints_args {us : List Tree} {as : List Exp} (h : ∀ u ∈ us, u.Prints ps scope)
    (has : List.Forall₂ (Resolves ps scope) us as) :
    ∃ ss, Exp.printArgs as = .ok ss ∧ List.Forall₂ Printed ss (us.map Tree.tokens) := by
  induction has with
  | nil => exact ⟨[], rfl, .nil⟩
  | @cons u a us as ha _ ih =>
    obtain ⟨s, hs, hp⟩ := h u List.mem_cons_self a ha
    obtain ⟨ss, hss, hps⟩ := ih fun v hv => h v (List.mem_cons_of_mem u hv)
    exact ⟨s :: ss, by unfold Exp.printArgs; rw [hs, hss]; rfl, .cons hp hps⟩

/-- An expression that was read is printed, and its text has the tokens of its tree. -/
theorem Derives.prints (h : Derives st o l t) (hleg : ∀ x ∈ t.leaves, x.Legible) :
    t.Prints ps scope := by
  induction h generalizing scope with
  | float w f =>
    intro e hr
    cases hr
    exact ⟨_, rfl, .of_float (hleg _ List.mem_cons_self)⟩
  | int ds =>
    have hint := integerText?_of_legible (hleg _ List.mem_cons_self)
    generalize Decimal.ofDigitValues (ds.map fun c => c.toNat - '0'.toNat) = n at hint
    intro e hr
    cases hr
    exact ⟨_, by unfold Exp.print; rw [hint], .of_int (Int.natCast_nonneg _)⟩
  | truth b =>
    intro e hr
    cases hr
    exact ⟨_, rfl, .of_truth b⟩
  | name n =>
    intro e hr
    cases hr with
    | name _ hv =>
      obtain rfl := Scope.name_of_lookup? hv
      exact ⟨_, rfl, .of_name (hleg _ List.mem_cons_self)⟩
  | len _ ih =>
    intro e hr
    cases hr with
    | len ha =>
      obtain ⟨s, hs, hp⟩ := ih hleg _ ha
      exact ⟨_, by unfold Exp.print; rw [hs]; rfl, .len hp⟩
  | call n parts _ ih =>
    intro e hr
    rw [Tree.leaves, List.forall_mem_cons, Tree.leavesArgs_eq] at hleg
    have hparts : ∀ u ∈ parts.map (·.2.2), u.Prints ps scope := by
      intro u hu
      obtain ⟨q, hq, rfl⟩ := List.mem_map.1 hu
      exact ih q hq fun x hx => hleg.2 x (List.mem_flatMap.2 ⟨_, hu, hx⟩)
    cases hr with
    | call _ p hp has =>
      obtain rfl := Predicate.name_of_lookup? hp
      obtain ⟨ss, hss, hps⟩ := Tree.prints_args hparts has.forall₂
      refine ⟨_, by unfold Predicate.call Exp.print; rw [hss]; rfl, ?_⟩
      rw [Tree.tokens, Tree.tokensArgs_eq]
      exact .call hleg.1 hps
  | paren _ ih => exact ih hleg
  | sub _ _ iha ihi =>
    intro e hr
    rw [Tree.leaves, List.forall_mem_append] at hleg
    cases hr with
    | sub ha hi =>
      obtain ⟨s, hs, hp⟩ := iha hleg.1 _ ha
      obtain ⟨r, hr, hq⟩ := ihi hleg.2 _ hi
      exact ⟨_, by unfold Exp.print; rw [hs, hr]; rfl, .sub hp hq⟩
  | upd _ _ _ iha ihi ihv =>
    intro e hr
    rw [Tree.leaves, List.forall_mem_append, List.forall_mem_append] at hleg
    cases hr with
    | upd length ha hi hb =>
      obtain ⟨s, hs, hp⟩ := iha hleg.1 _ ha
      obtain ⟨r, hr, hq⟩ := ihi hleg.2.1 _ hi
      obtain ⟨c, hc, hv⟩ := ihv hleg.2.2 _ hb
      exact ⟨_, by unfold Exp.print; rw [hs, hr, hc]; rfl, .upd hp hq hv⟩
  | operand _ ih => exact ih hleg
  | not _ ih =>
    intro e hr
    cases hr with
    | not ha =>
      obtain ⟨s, hs, hp⟩ := ih hleg _ ha
      exact ⟨_, by unfold Exp.print; rw [hs]; rfl, .not hp⟩
  | neg _ ih =>
    intro e hr
    cases hr with
    | neg ha =>
      obtain ⟨s, hs, hp⟩ := ih hleg _ ha
      exact ⟨_, by unfold Exp.print; rw [hs]; rfl, .neg hp⟩
  | quantified kind ns _ _ ih =>
    intro e hr
    rw [Tree.leaves, List.forall_mem_append, List.forall_mem_map] at hleg
    cases hr with
    | quantified _ _ hb =>
      obtain ⟨s, hs, hp⟩ := ih hleg.2 _ hb
      exact ⟨_, by unfold Exp.print; rw [hs]; rfl, .quantified hleg.1 hp⟩
  | tighter _ ih => exact ih hleg
  | left hop _ _ _ ihx ihy =>
    rw [Tree.leaves, List.forall_mem_append] at hleg
    exact Tree.prints_bin hop (ihx hleg.1) (ihy hleg.2)
  | right _ _ ihx ihy =>
    rw [Tree.leaves, List.forall_mem_append] at hleg
    exact Tree.prints_bin (k := implicationLevel) (by decide) (ihx hleg.1) (ihy hleg.2)

/-! ## The tree of an expression -/

namespace Exp

mutual

/-- The tree whose print is the expression's: what resolution has found out is forgotten. -/
def erase : Exp → Tree
  | .var v => .name v.name
  | .int n => .int n.toNat
  | .float x => .float x
  | .bool b => .truth b
  | .call name _ _ args => .call name (eraseArgs args)
  | .sub array index => .sub array.erase index.erase
  | .upd array index value _ => .upd array.erase index.erase value.erase
  | .not arg => .not arg.erase
  | .neg arg => .neg arg.erase
  | .bin op left right => .bin op.asRead left.erase right.erase
  | .quantified kind names body => .quantified kind names body.erase
  | .len arg => .len arg.erase
  | .bare => .call "Exp" []

/-- `Exp.erase` of each argument of a call. -/
def eraseArgs : List Exp → List Tree
  | [] => []
  | a :: as => a.erase :: eraseArgs as

end

/-- The float constants of an expression; those in the bodies of called predicates do not count. -/
def floats (e : Exp) : List Binary64 := e.erase.floats

/-- The names that the quantifiers of an expression bind. -/
def binders (e : Exp) : List String := e.erase.binders

/-- The trees of arguments are those of each of them. -/
theorem eraseArgs_eq (es : List Exp) : eraseArgs es = es.map erase := by
  induction es with
  | nil => rfl
  | cons e es ih => rw [eraseArgs, ih, List.map_cons]

/-- Equal expressions have equally heavy leaves. -/
theorem totalRules : EqualityRules fun a b =>
    Leaf.total a.erase.leaves = Leaf.total b.erase.leaves where
  var _ := rfl
  int _ := rfl
  float _ := rfl
  bool _ := rfl
  call {_ _ _ _ args args'} _ _ has := by
    have hargs : Leaf.total (Tree.leavesArgs (eraseArgs args)) =
        Leaf.total (Tree.leavesArgs (eraseArgs args')) := by
      induction has with
      | nil => rfl
      | cons h _ ih => simp [eraseArgs, Tree.leavesArgs, h.2, ih]
    simp [erase, Tree.leaves, Leaf.weight, hargs]
  sub _ ha _ hi := by simp [erase, Tree.leaves, ha, hi]
  upd _ ha _ hi _ hv := by simp [erase, Tree.leaves, ha, hi, hv]
  not _ ha := ha
  neg _ ha := ha
  bin _ hl _ hr := by simp [erase, Tree.leaves, hl, hr]
  quantified _ hb := by simp [erase, Tree.leaves, hb]
  len _ ha := ha
  bare := rfl

end Exp

/-- Arguments that are resolved from trees give these trees back. -/
theorem Exp.map_erase {us : List Tree} {as : List Exp}
    (h : ∀ u ∈ us, ∀ a, Resolves ps scope u a → a.erase = u)
    (has : List.Forall₂ (Resolves ps scope) us as) : as.map erase = us := by
  induction has with
  | nil => rfl
  | @cons u a us as ha _ ih =>
    rw [List.map_cons, h u List.mem_cons_self a ha, ih fun v hv => h v (List.mem_cons_of_mem u hv)]

/-- Resolution answers with an expression of the tree it was given. -/
theorem Derives.erase (h : Derives st o l t) (hr : Resolves ps scope t e) : e.erase = t := by
  induction h generalizing scope e with
  | float w f => cases hr; rfl
  | int ds => cases hr; rfl
  | truth b => cases hr; rfl
  | name n =>
    cases hr with
    | name _ hv => exact congrArg Tree.name (Scope.name_of_lookup? hv)
  | len _ ih =>
    cases hr with
    | len ha => exact congrArg Tree.len (ih ha)
  | call n parts _ ih =>
    cases hr with
    | @call _ _ as _ p hp has =>
      have hparts : as.map Exp.erase = parts.map (·.2.2) := by
        refine Exp.map_erase (fun u hu a ha => ?_) has.forall₂
        obtain ⟨q, hq, rfl⟩ := List.mem_map.1 hu
        exact ih q hq ha
      rw [Predicate.call, Exp.erase, Exp.eraseArgs_eq, hparts, Predicate.name_of_lookup? hp]
  | paren _ ih => exact ih hr
  | sub _ _ iha ihi =>
    cases hr with
    | sub ha hi => exact congrArg₂ Tree.sub (iha ha) (ihi hi)
  | upd _ _ _ iha ihi ihv =>
    cases hr with
    | upd length ha hi hb => rw [Exp.erase, iha ha, ihi hi, ihv hb]
  | operand _ ih => exact ih hr
  | not _ ih =>
    cases hr with
    | not ha => exact congrArg Tree.not (ih ha)
  | neg _ ih =>
    cases hr with
    | neg ha => exact congrArg Tree.neg (ih ha)
  | quantified kind ns _ _ ih =>
    cases hr with
    | quantified _ _ hb => exact congrArg (Tree.quantified kind ns) (ih hb)
  | tighter _ ih => exact ih hr
  | left hop _ _ _ ihx ihy =>
    obtain ⟨o, a, b, rfl, ho, ha, hb⟩ := hr.of_bin
    rw [Exp.erase, (BinOp.asRead_of_mem hop ho).1, ihx ha, ihy hb]
  | right _ _ ihx ihy =>
    obtain ⟨o, a, b, rfl, ho, ha, hb⟩ := hr.of_bin
    have hread := (BinOp.asRead_of_mem (k := implicationLevel) (by decide) ho).1
    rw [Exp.erase, hread, ihx ha, ihy hb]

/-! ## The round trip -/

/-- Reading finds a tree in the text and resolves it. -/
theorem Exp.parse_eq_ok {text : String} {declared : List Variable} :
    parse text declared ps = .ok e ↔ ∃ t, Tree.ofText? text = .ok t ∧
      t.resolve ps (Scope.ofList declared) = .ok e := by
  unfold parse
  cases Tree.ofText? text with
  | error e => simp
  | ok t => cases ht : t.resolve ps (Scope.ofList declared) <;> simp [ht]

/-- The tokens of a printed text are those that it is scanned as. -/
theorem Printed.scan_eq {s : String} {ts : List Token} (h : Printed s ts) : Token.scan s = ts := by
  have hscan := h.scan [] delimited_nil
  have hnil : Token.scanFrom false [] = [] := by rw [Token.scanFrom]
  rwa [List.append_nil, hnil, List.append_nil] at hscan

/-- What was read holds only what a text can hold. -/
theorem Tree.legible_of_ofText? {text : String} (h : ofText? text = .ok t) :
    ∃ o, Derives (.level loosest) o (Token.scan text) t ∧
      KeywordsGlued false (Token.scan text) ∧ ∀ x ∈ t.leaves, x.Legible := by
  obtain ⟨o, hd, hs⟩ := ofTokens?_sound h
  have hscans := Token.scanFrom_sound hd.phrase.2.valid
  refine ⟨o, hd, hscans.keywordsGlued, ?_⟩
  rw [← hd.leaves]
  exact hscans.legible hs

/-- Among the names of what was read, only those that quantifiers bind may be keywords. -/
theorem Derives.plain_iff (h : Derives st o l t) (hg : KeywordsGlued false l) :
    (∀ x ∈ t.leaves, x.Plain) ↔
      (∀ x ∈ t.floats, x.Positional) ∧ ∀ n ∈ t.binders, ¬ IsKeyword n := by
  have hword {n : String} : .word n ∈ l ↔ .name n ∈ t.leaves := by
    rw [← h.leaves, Token.mem_leaves]
    constructor
    · exact fun hn => ⟨_, hn, rfl⟩
    · rintro ⟨s, hs, hx⟩
      cases s <;> cases hx
      exact hs
  constructor
  · intro hp
    exact ⟨fun x hx => hp _ (Tree.mem_floats.1 hx), fun n hn => hp _ (hword.1 (h.word_mem hn))⟩
  · rintro ⟨hf, hb⟩ x hx
    cases x with
    | name n => exact h.keywordFree hg hb n (hword.2 hx)
    | float x => exact hf x (Tree.mem_floats.2 hx)
    | int n => exact trivial
    | truth b => exact trivial

/-- An expression that was read can be printed. Its text is read as itself exactly if its float
constants are positional and no quantifier binds a keyword; otherwise the text is not even read as
an expression that is equal by value. -/
theorem Exp.reads_back_iff (text : String) (declared : List Variable) (ps : List Predicate)
    (e : Exp) (h : parse text declared ps = .ok e) :
    ∃ s, e.print = .ok s ∧
      (parse s declared ps = .ok e ↔
        (∀ x ∈ e.floats, x.Positional) ∧ ∀ n ∈ e.binders, ¬ IsKeyword n) ∧
      ∀ e', parse s declared ps = .ok e' → e'.equal e = true → e' = e := by
  obtain ⟨t, ht, hr⟩ := parse_eq_ok.1 h
  obtain ⟨o, hd, hg, hleg⟩ := Tree.legible_of_ofText? ht
  obtain ⟨s, hs, hp⟩ := hd.prints hleg e (t.resolves hr)
  have herase : e.erase = t := hd.erase (t.resolves hr)
  -- A text that is read as something equally heavy has plain leaves,
  have hplain (e' : Exp) (he' : parse s declared ps = .ok e')
      (htotal : Leaf.total e'.erase.leaves = Leaf.total e.erase.leaves) :
      ∀ x ∈ t.leaves, x.Plain := by
    obtain ⟨t', ht', hr'⟩ := parse_eq_ok.1 he'
    obtain ⟨o', hd', -⟩ := Tree.legible_of_ofText? ht'
    rw [hp.scan_eq] at hd'
    rw [hd'.erase (t'.resolves hr'), herase] at htotal
    exact hd.plain_of_total hleg hd' htotal
  -- and with plain leaves it is read as the same tree.
  have hread (hpl : ∀ x ∈ t.leaves, x.Plain) : parse s declared ps = .ok e := by
    refine parse_eq_ok.2 ⟨t, ?_, hr⟩
    rw [Tree.ofText?, hp.scan_eq]
    exact Tree.ofTokens?_complete (.of_atom (hd.print hleg hpl)) (hd.short_tokens hleg hpl)
  refine ⟨s, hs, ?_, ?_⟩
  · rw [floats, binders, herase, ← hd.plain_iff hg]
    exact ⟨fun he => hplain e he rfl, hread⟩
  · intro e' he' heq
    have := hread (hplain e' he' (totalRules.holds heq))
    rw [he'] at this
    exact Except.ok.inj this

/-- A division of real numbers, and an update in which a quantified name hides a declared one. -/
theorem Exp.reads_back_with_hidden_name :
    let declared : List Variable := [.plain "k" .bool, .plain "x" .float, .plain "y" .int,
      .arrayOf "z" .int, .plain "i" .int]
    let e : Exp := .quantified .all ["k"] (.bin .le
      (.bin .floatDiv (.var (.plain "x" .float)) (.var (.plain "y" .int)))
      (.sub (.upd (.var (.arrayOf "z" .int)) (.var (.plain "k" .int)) (.int 2)
        (.plain "z.length" .int)) (.var (.plain "i" .int))))
    parse "\\forall k. x/y <= z[k:=2][i]" declared [] = .ok e ∧
      parse "(\\forall k. ((x / y) <= z[k := 2][i]))" declared [] = .ok e := by
  intro declared e
  have hread : parse "\\forall k. x/y <= z[k:=2][i]" declared [] = .ok e := by cbv
  have hprint : e.print = .ok "(\\forall k. ((x / y) <= z[k := 2][i]))" := by decide +kernel
  obtain ⟨s, hs, hiff, -⟩ := reads_back_iff _ _ _ _ hread
  obtain rfl := Except.ok.inj (hprint.symm.trans hs)
  have hfloats : e.floats = [] := rfl
  have hbinders : e.binders = ["k"] := rfl
  refine ⟨hread, hiff.2 ⟨by simp [hfloats], ?_⟩⟩
  simp [hbinders, IsKeyword]

/-- A quantified name that is a keyword is not read back, with no float in sight. -/
theorem Exp.not_reads_back_iff_positional :
    ¬ ∀ text declared ps e, parse text declared ps = .ok e → ∀ s, e.print = .ok s →
      ((∃ e', parse s declared ps = .ok e' ∧ (e' = e ∨ e'.equal e = true)) ↔
        ∀ x ∈ e.floats, x.Positional) := by
  intro h
  have hread : parse "\\foralltrue. 1 > 0" [] [] =
      .ok (.quantified .all ["true"] (.bin .gt (.int 1) (.int 0))) := by cbv
  have hprint : print (.quantified .all ["true"] (.bin .gt (.int 1) (.int 0))) =
      .ok "(\\forall true. (1 > 0))" := by decide +kernel
  have hback : parse "(\\forall true. (1 > 0))" [] [] = .error (.syntaxError .malformed) := by cbv
  obtain ⟨e', he', -⟩ := (h _ _ _ _ hread _ hprint).2
    (by simp [floats, erase, Tree.floats, Tree.leaves])
  rw [hback] at he'
  cases he'

end Discharge
