import Discharge.Proofs.Syntax.Checks

/-!
# The declarations that a text needs

A text needs a variable for each name that it refers to where no quantifier binds the name, and a
predicate for each name that it calls. `Exp.parse_congr_of_needed` says that reading looks at nothing
else: two lists of declarations that agree on what the text needs give the same answer. That is so
for lists which differ by declarations that are not needed, that are overridden, or that stand in
another order (`Rearranged`).
-/

namespace Discharge

/-- The tree refers to the name where no quantifier binds it. -/
def Tree.Refers (t : Tree) (n : String) : Prop :=
  ∃ bound, .reference bound n ∈ t.checks [] ∧ n ∉ bound

/-- The tree calls a predicate of the name. -/
def Tree.Calls (t : Tree) (n : String) : Prop := .callee n ∈ t.checks []

/-- The text needs a variable of the name. -/
def NeedsVariable (text n : String) : Prop := ∃ t, Tree.ofText? text = .ok t ∧ t.Refers n

/-- The text needs a predicate of the name. -/
def NeedsPredicate (text n : String) : Prop := ∃ t, Tree.ofText? text = .ok t ∧ t.Calls n

/-! ## Resolution -/

section

variable (declared declared' : List Variable) (ps ps' : List Predicate)

/-- The declarations agree on what the check looks up. -/
def Check.Agrees : Check → Prop
  | .reference bound n => n ∉ bound → Variable.last? declared n = Variable.last? declared' n
  | .callee n => Predicate.last? ps n = Predicate.last? ps' n
  | .target _ _ | .operand _ _ => True

end

variable {declared declared' : List Variable} {ps ps' : List Predicate} {bound : List String}
  {n text : String}

/-- A reference on which two lists of declarations agree is looked up alike in both. -/
theorem Scope.lookup?_congr (h : (Check.reference bound n).Agrees declared declared' ps ps') :
    ((ofList declared).bind bound).lookup? n = ((ofList declared').bind bound).lookup? n := by
  rw [lookup?_bind, lookup?_bind, lookup?_ofList, lookup?_ofList]
  split
  · rfl
  · next hn => exact h hn

mutual

/-- Resolution of a tree looks up nothing but what the checks of the tree look up. -/
theorem Tree.resolve_congr : ∀ (t : Tree) (bound : List String),
    (∀ c ∈ t.checks bound, c.Agrees declared declared' ps ps') →
      t.resolve ps ((Scope.ofList declared).bind bound) =
        t.resolve ps' ((Scope.ofList declared').bind bound)
  | .int _, _, _ => rfl
  | .float _, _, _ => rfl
  | .truth _, _, _ => rfl
  | .name n, bound, h => by
    rw [resolve, resolve, Scope.lookup?_congr (List.forall_mem_singleton.1 h)]
  | .call n args, bound, h => by
    obtain ⟨hn, hargs⟩ := List.forall_mem_cons.1 h
    have hp : Predicate.lookup? ps n = Predicate.lookup? ps' n := by
      rw [Predicate.lookup?_eq_last?, Predicate.lookup?_eq_last?]
      exact hn
    rw [resolve, resolve, hp, resolveArgs_congr args bound hargs]
  | .sub t u, bound, h => by
    obtain ⟨ht, hu⟩ := List.forall_mem_append.1 h
    rw [resolve, resolve, t.resolve_congr bound ht, u.resolve_congr bound hu]
  | .upd t u v, bound, h => by
    obtain ⟨ht, huv⟩ := List.forall_mem_append.1 h
    obtain ⟨hu, hv⟩ := List.forall_mem_append.1 huv
    obtain ⟨hv, -⟩ := List.forall_mem_append.1 hv
    rw [resolve, resolve, t.resolve_congr bound ht, u.resolve_congr bound hu,
      v.resolve_congr bound hv]
  | .len t, bound, h => by
    rw [resolve, resolve, t.resolve_congr bound h]
  | .not t, bound, h => by
    rw [resolve, resolve, t.resolve_congr bound h]
  | .neg t, bound, h => by
    rw [resolve, resolve, t.resolve_congr bound h]
  | .bin op t u, bound, h => by
    obtain ⟨ht, hu⟩ := List.forall_mem_append.1 h
    obtain ⟨hu, -⟩ := List.forall_mem_append.1 hu
    rw [resolve, resolve, t.resolve_congr bound ht, u.resolve_congr bound hu]
  | .quantified kind names t, bound, h => by
    rw [resolve, resolve, Scope.bind_bind, Scope.bind_bind, t.resolve_congr (names ++ bound) h]

/-- `Tree.resolve_congr` for the arguments of a call. -/
theorem Tree.resolveArgs_congr : ∀ (us : List Tree) (bound : List String),
    (∀ c ∈ checksArgs bound us, c.Agrees declared declared' ps ps') →
      resolveArgs ps ((Scope.ofList declared).bind bound) us =
        resolveArgs ps' ((Scope.ofList declared').bind bound) us
  | [], _, _ => rfl
  | u :: us, bound, h => by
    obtain ⟨hu, hus⟩ := List.forall_mem_append.1 h
    rw [resolveArgs, resolveArgs, u.resolve_congr bound hu, resolveArgs_congr us bound hus]

end

/-! ## Lists of declarations -/

/-- `Rearranged name needed xs ys`: the declarations `ys` are `xs` up to declarations of names that are
not needed, declarations that later ones override, and the order of different names. -/
inductive Rearranged {α : Type} (name : α → String) (needed : String → Prop) : List α → List α → Prop
  | extra {x} (h : ¬ needed (name x)) (l m) : Rearranged name needed (l ++ x :: m) (l ++ m)
  | changed {x y} (hxy : name x = name y) (h : ¬ needed (name x)) (l m) :
      Rearranged name needed (l ++ x :: m) (l ++ y :: m)
  | overridden {x y} (hxy : name x = name y) (l m) (hy : y ∈ m) :
      Rearranged name needed (l ++ x :: m) (l ++ m)
  | swap {x y} (hxy : name x ≠ name y) (l m) :
      Rearranged name needed (l ++ x :: y :: m) (l ++ y :: x :: m)
  | refl (l) : Rearranged name needed l l
  | symm {l m} (h : Rearranged name needed l m) : Rearranged name needed m l
  | trans {l m k} (h : Rearranged name needed l m) (h' : Rearranged name needed m k) :
      Rearranged name needed l k

/-- Rearranged declarations have the same last one of every name that is needed. -/
theorem Rearranged.getLast?_eq {α : Type} {name : α → String} {needed : String → Prop}
    {xs ys : List α} (h : Rearranged name needed xs ys) (hn : needed n) :
    (xs.filter (name · == n)).getLast? = (ys.filter (name · == n)).getLast? := by
  induction h with
  | @extra x h l m =>
    have hx : name x ≠ n := fun hx => h (hx ▸ hn)
    simp [hx]
  | @changed x y hxy h l m =>
    have hx : name x ≠ n := fun hx => h (hx ▸ hn)
    simp [hx, ← hxy]
  | @overridden x y hxy l m hy =>
    by_cases hx : name x = n
    · have hne : m.filter (name · == n) ≠ [] :=
        List.ne_nil_of_mem (List.mem_filter.2 ⟨hy, beq_iff_eq.2 (hxy.symm.trans hx)⟩)
      obtain ⟨z, zs, hz⟩ := List.exists_cons_of_ne_nil hne
      simp [hx, hz, List.getLast?_append]
    · simp [hx]
  | @swap x y hxy l m =>
    by_cases hx : name x = n
    · have hy : name y ≠ n := fun hy => hxy (hx.trans hy.symm)
      simp [hx, hy]
    · simp [hx]
  | refl l => rfl
  | symm _ ih => exact ih.symm
  | trans _ _ ih ih' => exact ih.trans ih'

/-! ## Reading -/

/-- Declarations that agree on what the text needs give the same answer, and rearranging declarations
that are not needed, or overridden, or of different names changes nothing. -/
theorem Exp.parse_congr_of_needed (text : String) :
    (∀ declared declared' ps ps',
      (∀ n, NeedsVariable text n → Variable.last? declared n = Variable.last? declared' n) →
      (∀ n, NeedsPredicate text n → Predicate.last? ps n = Predicate.last? ps' n) →
      parse text declared ps = parse text declared' ps') ∧
    ∀ declared declared' ps ps', Rearranged Variable.name (NeedsVariable text) declared declared' →
      Rearranged Predicate.name (NeedsPredicate text) ps ps' →
      parse text declared ps = parse text declared' ps' := by
  have hcongr : ∀ declared declared' ps ps',
      (∀ n, NeedsVariable text n → Variable.last? declared n = Variable.last? declared' n) →
      (∀ n, NeedsPredicate text n → Predicate.last? ps n = Predicate.last? ps' n) →
      parse text declared ps = parse text declared' ps' := by
    intro declared declared' ps ps' hv hp
    unfold parse
    cases ht : Tree.ofText? text with
    | error e => rfl
    | ok t =>
      have hagrees : ∀ c ∈ t.checks [], c.Agrees declared declared' ps ps' := by
        intro c hc
        cases c with
        | reference bound n => exact fun hn => hv n ⟨t, ht, bound, hc, hn⟩
        | callee n => exact hp n ⟨t, ht, hc⟩
        | target | operand => trivial
      have hresolve : t.resolve ps (Scope.ofList declared) = t.resolve ps' (Scope.ofList declared') :=
        t.resolve_congr [] hagrees
      simp only [hresolve]
  exact ⟨hcongr, fun declared declared' ps ps' hv hp => hcongr _ _ _ _
    (fun _ hn => hv.getLast?_eq hn) fun _ hn => hp.getLast?_eq hn⟩

/-- The declared type of a name that is used bound only, an overridden declaration and predicates that
are not called are not looked at. -/
theorem Exp.parse_congr_of_bound_name :
    parse "\\forall k. k > n" [.plain "k" .float, .plain "n" .bool, .plain "n" .int, .plain "k" .bool]
      [Predicate.ofName "P"] = parse "\\forall k. k > n" [.plain "n" .int] [] := by
  have ht : Tree.ofText? "\\forall k. k > n" =
      .ok (.quantified .all ["k"] (.bin .gt (.name "k") (.name "n"))) := by cbv
  refine (parse_congr_of_needed _).1 _ _ _ _ ?_ ?_
  · rintro n ⟨t, ht', bound, hn, hbound⟩
    obtain rfl := Except.ok.inj (ht.symm.trans ht')
    obtain ⟨rfl, rfl⟩ | ⟨rfl, rfl⟩ : bound = ["k"] ∧ n = "k" ∨ bound = ["k"] ∧ n = "n" := by
      simpa [Tree.checks] using hn
    · exact absurd List.mem_cons_self hbound
    · rfl
  · rintro n ⟨t, ht', hn⟩
    obtain rfl := Except.ok.inj (ht.symm.trans ht')
    simp [Tree.Calls, Tree.checks] at hn

end Discharge
