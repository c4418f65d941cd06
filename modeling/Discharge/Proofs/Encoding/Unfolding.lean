import Mathlib.Algebra.GroupWithZero.Nat
import Mathlib.Algebra.Order.BigOperators.Group.List
import Mathlib.Algebra.Order.Group.Nat
import Mathlib.Data.List.Nodup
import Discharge.Proofs.Encoding.CallOrder

/-!
# Unfolding of calls

A call is unfolded by the body of its predicate, with the actuals in place of the parameters. Calls
outside the arguments of lengths can be unfolded one after the other, in any order, until there are
none (`Defined.unfolding_terminates`). Each step takes weight off the expression
(`Exp.Unfolds.weight_lt`), where a call weighs more than its actuals and more than the body that it
is unfolded to, with the weights of the actuals in place of the parameters. That is well defined since
bodies call only predicates that were defined before.
-/

namespace Discharge

/-! ## Expressions in place of variables -/

/-- Variables with one key are one constant: the name of the constant, and the type. -/
def Variable.key (v : Variable) : String × Ty := (constantName v.name, v.type)

/-- Expressions that are put in place of variables. -/
abbrev Replacement := String × Ty → Option Exp

/-- The replacement under a quantifier whose names have been renamed. -/
def Replacement.under (σ : Replacement) (rename : String → String) (names : List String) :
    Replacement := fun key =>
  if key.2 = .int ∧ key.1 ∈ names.map constantName then some (.var (.plain (rename key.1) .int))
  else σ key

namespace Exp

mutual

/-- Puts expressions in place of variables, all at once. Lengths are variables too. The names that
quantifiers bind are changed by `rename`, together with their references. -/
def instantiate (rename : String → String) (σ : Replacement) : Exp → Exp
  | .var v => (σ v.key).getD (.var v)
  | .int n => .int n
  | .float x => .float x
  | .bool b => .bool b
  | .call name parameters body args => .call name parameters body (instantiateArgs rename σ args)
  | .sub array index => .sub (array.instantiate rename σ) (index.instantiate rename σ)
  | .upd array index value length =>
    .upd (array.instantiate rename σ) (index.instantiate rename σ) (value.instantiate rename σ) length
  | .not arg => .not (arg.instantiate rename σ)
  | .neg arg => .neg (arg.instantiate rename σ)
  | .bin op left right => .bin op (left.instantiate rename σ) (right.instantiate rename σ)
  | .quantified kind names body =>
    .quantified kind (names.map fun name => rename (constantName name))
      (body.instantiate rename (σ.under rename names))
  | .len arg => (arg.length?.bind fun v => σ v.key).getD (.len arg)
  | .bare => .bare

/-- `instantiate` over the arguments of a call. -/
def instantiateArgs (rename : String → String) (σ : Replacement) : List Exp → List Exp
  | [] => []
  | arg :: args => arg.instantiate rename σ :: instantiateArgs rename σ args

end

end Exp

namespace Predicate

/-- What goes with each parameter; of repeated parameters the first counts. -/
def assign {α : Type} (p : Predicate) (values : List α) (key : String × Ty) : Option α :=
  ((p.parameters.zip values).find? fun x => x.1.key == key).map Prod.snd

/-- The body with actuals in place of the parameters. -/
def unfold (p : Predicate) (rename : String → String) (args : List Exp) : Exp :=
  p.body.instantiate rename (p.assign args)

end Predicate

example : (Predicate.mk "exceeded" [.plain "x" .int] (.quantified .ex ["k"]
      (.bin .gt (.var (.plain "k" .int)) (.var (.plain "x" .int))))).unfold
        (fun name => "!" ++ name) [.var (.plain "k" .int)] =
    .quantified .ex ["!k"] (.bin .gt (.var (.plain "!k" .int)) (.var (.plain "k" .int))) :=
  rfl

/-- One call is unfolded, outside the arguments of lengths. The body of the predicate is the one that
was defined, not the one that the call holds. The names that the body binds may be changed in any way,
so also such that they catch no name of an actual. -/
inductive Exp.Unfolds (ps : List Predicate) : Exp → Exp → Prop
  | call {p : Predicate} {args : List Exp} (hp : p ∈ ps)
      (hl : args.length = p.parameters.length) (rename : String → String) :
      Unfolds ps (.call p.name parameters body args) (p.unfold rename args)
  | actual (h : Unfolds ps a a') : Unfolds ps (.call name parameters body (before ++ a :: after))
      (.call name parameters body (before ++ a' :: after))
  | subArray (h : Unfolds ps a a') : Unfolds ps (.sub a i) (.sub a' i)
  | subIndex (h : Unfolds ps i i') : Unfolds ps (.sub a i) (.sub a i')
  | updArray (h : Unfolds ps a a') : Unfolds ps (.upd a i v l) (.upd a' i v l)
  | updIndex (h : Unfolds ps i i') : Unfolds ps (.upd a i v l) (.upd a i' v l)
  | updValue (h : Unfolds ps v v') : Unfolds ps (.upd a i v l) (.upd a i v' l)
  | not (h : Unfolds ps a a') : Unfolds ps (.not a) (.not a')
  | neg (h : Unfolds ps a a') : Unfolds ps (.neg a) (.neg a')
  | binLeft (h : Unfolds ps l l') : Unfolds ps (.bin op l r) (.bin op l' r)
  | binRight (h : Unfolds ps r r') : Unfolds ps (.bin op l r) (.bin op l r')
  | quantified (h : Unfolds ps b b') :
      Unfolds ps (.quantified kind names b) (.quantified kind names b')

/-! ## Calls that are left -/

section
variable {ps : List Predicate} {S : List (String × Nat)} {rename : String → String} {e e' : Exp}

namespace Exp

/-- There are as many arguments after putting expressions in place of variables. -/
theorem length_instantiateArgs {σ : Replacement} (args : List Exp) :
    (instantiateArgs rename σ args).length = args.length := by
  induction args with
  | nil => rfl
  | cons arg args ih => rw [instantiateArgs, List.length_cons, List.length_cons, ih]

/-- What is put in place of a variable under a quantifier has no other calls. -/
theorem calls_under {σ : Replacement} (hσ : ∀ key a, σ key = some a → a.calls ⊆ S)
    (names : List String) : ∀ key a, σ.under rename names key = some a → a.calls ⊆ S := by
  intro key a h
  unfold Replacement.under at h
  split at h
  · cases h
    exact List.nil_subset S
  · exact hσ key a h

mutual

/-- Calls of an instance are those of the expression, or of what is put into it. -/
theorem calls_instantiate {σ : Replacement} (hσ : ∀ key a, σ key = some a → a.calls ⊆ S) :
    ∀ e : Exp, e.calls ⊆ S → (e.instantiate rename σ).calls ⊆ S
  | .var v => by
    intro _
    rw [instantiate]
    cases hv : σ v.key with
    | none => exact List.nil_subset S
    | some a => exact hσ _ a hv
  | .len arg => by
    intro _
    rw [instantiate]
    cases hv : arg.length?.bind fun v => σ v.key with
    | none => exact List.nil_subset S
    | some a =>
      obtain ⟨v, -, hv⟩ := Option.bind_eq_some_iff.1 hv
      exact hσ _ a hv
  | .call name _ _ args => by
    intro h
    obtain ⟨hc, h⟩ := List.cons_subset.1 h
    rw [instantiate, calls, length_instantiateArgs]
    exact List.cons_subset.2 ⟨hc, calls_instantiateArgs hσ args h⟩
  | .sub array index => by
    intro h
    rw [calls, List.append_subset] at h
    rw [instantiate, calls, List.append_subset]
    exact ⟨calls_instantiate hσ array h.1, calls_instantiate hσ index h.2⟩
  | .upd array index value _ => by
    intro h
    rw [calls, List.append_subset, List.append_subset] at h
    rw [instantiate, calls, List.append_subset, List.append_subset]
    exact ⟨⟨calls_instantiate hσ array h.1.1, calls_instantiate hσ index h.1.2⟩,
      calls_instantiate hσ value h.2⟩
  | .not arg | .neg arg => by
    rw [instantiate]
    exact calls_instantiate hσ arg
  | .bin _ left right => by
    intro h
    rw [calls, List.append_subset] at h
    rw [instantiate, calls, List.append_subset]
    exact ⟨calls_instantiate hσ left h.1, calls_instantiate hσ right h.2⟩
  | .quantified _ names body => by
    intro h
    rw [instantiate, calls]
    exact calls_instantiate (calls_under hσ names) body h
  | .int _ | .float _ | .bool _ | .bare => fun h => h

/-- Arguments call nothing new if neither they nor the expressions put in place of variables do. -/
theorem calls_instantiateArgs {σ : Replacement} (hσ : ∀ key a, σ key = some a → a.calls ⊆ S) :
    ∀ args : List Exp, callsArgs args ⊆ S → callsArgs (instantiateArgs rename σ args) ⊆ S
  | [] => fun h => h
  | arg :: args => by
    intro h
    rw [callsArgs, List.append_subset] at h
    rw [instantiateArgs, callsArgs, List.append_subset]
    exact ⟨calls_instantiate hσ arg h.1, calls_instantiateArgs hσ args h.2⟩

end

/-- The calls that an unfolding leaves are of the predicates, if those before were. -/
theorem Unfolds.calls_subset (hps : Predicate.Ordered ps) (h : Unfolds ps e e')
    (he : e.calls ⊆ ps.map Predicate.signature) : e'.calls ⊆ ps.map Predicate.signature := by
  induction h with
  | @call _ _ p args hp hl rename =>
    refine calls_instantiate (fun key a ha => ?_) _ (hps.calls_subset hp)
    obtain ⟨x, hx, rfl⟩ := Option.map_eq_some_iff.1 ha
    have hmem : x.2 ∈ args := (List.of_mem_zip (List.mem_of_find?_eq_some hx)).2
    exact fun c hc => he (List.mem_cons_of_mem _ (mem_callsArgs.2 ⟨_, hmem, hc⟩))
  | actual _ ih =>
    simp only [calls, callsArgs_eq, List.flatMap_append, List.flatMap_cons, List.cons_subset,
      List.append_subset, List.length_append, List.length_cons] at he ⊢
    exact ⟨he.1, he.2.1, ih he.2.2.1, he.2.2.2⟩
  | subArray _ ih | subIndex _ ih | updArray _ ih | updIndex _ ih | updValue _ ih | binLeft _ ih
  | binRight _ ih =>
    simp only [calls, List.append_subset] at he ⊢
    tauto
  | not _ ih | neg _ ih | quantified _ ih => exact ih he

/-- What has a call of one of the predicates can be unfolded. -/
theorem exists_unfolds : ∀ e : Exp, e.calls ⊆ ps.map Predicate.signature → e.calls ≠ [] →
    ∃ e', e.Unfolds ps e'
  | .call name _ _ args => by
    intro h _
    obtain ⟨p, hp, heq⟩ := List.mem_map.1 (List.cons_subset.1 h).1
    obtain ⟨rfl, hl⟩ := Prod.mk.inj heq
    exact ⟨_, .call hp hl.symm id⟩
  | .sub array index => by
    intro h hne
    rw [calls, List.append_subset] at h
    by_cases ha : array.calls = []
    · obtain ⟨i, hi⟩ := exists_unfolds index h.2 fun hi => hne (by rw [calls, ha, hi]; rfl)
      exact ⟨_, .subIndex hi⟩
    · obtain ⟨a, ha⟩ := exists_unfolds array h.1 ha
      exact ⟨_, .subArray ha⟩
  | .upd array index value _ => by
    intro h hne
    rw [calls, List.append_subset, List.append_subset] at h
    by_cases ha : array.calls = []
    · by_cases hi : index.calls = []
      · obtain ⟨v, hv⟩ := exists_unfolds value h.2 fun hv => hne (by rw [calls, ha, hi, hv]; rfl)
        exact ⟨_, .updValue hv⟩
      · obtain ⟨i, hi⟩ := exists_unfolds index h.1.2 hi
        exact ⟨_, .updIndex hi⟩
    · obtain ⟨a, ha⟩ := exists_unfolds array h.1.1 ha
      exact ⟨_, .updArray ha⟩
  | .not arg => by
    intro h hne
    obtain ⟨a, ha⟩ := exists_unfolds arg h hne
    exact ⟨_, .not ha⟩
  | .neg arg => by
    intro h hne
    obtain ⟨a, ha⟩ := exists_unfolds arg h hne
    exact ⟨_, .neg ha⟩
  | .bin _ left right => by
    intro h hne
    rw [calls, List.append_subset] at h
    by_cases hl : left.calls = []
    · obtain ⟨r, hr⟩ := exists_unfolds right h.2 fun hr => hne (by rw [calls, hl, hr]; rfl)
      exact ⟨_, .binRight hr⟩
    · obtain ⟨l, hl⟩ := exists_unfolds left h.1 hl
      exact ⟨_, .binLeft hl⟩
  | .quantified _ _ body => by
    intro h hne
    obtain ⟨b, hb⟩ := exists_unfolds body h hne
    exact ⟨_, .quantified hb⟩
  | .var _ | .int _ | .float _ | .bool _ | .len _ | .bare => fun _ hne => absurd rfl hne

/-- What can be unfolded has a call. -/
theorem Unfolds.calls_ne_nil (h : Unfolds ps e e') : e.calls ≠ [] := by
  induction h with
  | call | actual => exact List.cons_ne_nil _ _
  | subArray _ ih | subIndex _ ih | updArray _ ih | updIndex _ ih | updValue _ ih | binLeft _ ih
  | binRight _ ih => simp [calls, ih]
  | not _ ih | neg _ ih | quantified _ ih => exact ih

end Exp

end

/-! ## Weights -/

/-- Weights of calls, by the predicate's name and the weights of the actuals. -/
abbrev CallWeight := String → List Nat → Nat

namespace Exp

mutual

/-- The weight of an expression, given those of variables. A call weighs more than its actuals. -/
def weight (F : CallWeight) (w : String × Ty → Nat) : Exp → Nat
  | .var v => w v.key
  | .int _ => 0
  | .float _ => 0
  | .bool _ => 0
  | .call name _ _ args => F name (weights F w args) + (weights F w args).sum + 1
  | .sub array index => array.weight F w + index.weight F w
  | .upd array index value _ => array.weight F w + index.weight F w + value.weight F w
  | .not arg => arg.weight F w
  | .neg arg => arg.weight F w
  | .bin _ left right => left.weight F w + right.weight F w
  | .quantified _ _ body => body.weight F w
  | .len arg => (arg.length?.map fun v => w v.key).getD 0
  | .bare => 0

/-- The weights of the arguments of a call. -/
def weights (F : CallWeight) (w : String × Ty → Nat) : List Exp → List Nat
  | [] => []
  | arg :: args => arg.weight F w :: weights F w args

end

/-- The weights of arguments are those of each of them. -/
theorem weights_eq (F : CallWeight) (w : String × Ty → Nat) :
    ∀ args : List Exp, weights F w args = args.map (weight F w)
  | [] => rfl
  | arg :: args => by rw [weights, weights_eq F w args, List.map_cons]

end Exp

/-- Calls weigh no less if their actuals do. -/
def CallWeight.Monotone (F : CallWeight) : Prop :=
  ∀ name ws ws', List.Forall₂ (· ≤ ·) ws ws' → F name ws ≤ F name ws'

/-- The weights of parameters, given those of the actuals. -/
def Predicate.parameterWeight (p : Predicate) (ws : List Nat) (key : String × Ty) : Nat :=
  (p.assign ws key).getD 0

/-- The weight of a call of one of the predicates, the latest of which is the first: that of its body,
whose calls are of earlier ones. -/
def Predicate.callWeight : List Predicate → CallWeight
  | [], _, _ => 0
  | p :: ps, name, ws =>
    if p.name = name then p.body.weight (callWeight ps) (p.parameterWeight ws)
    else callWeight ps name ws

section
variable {F G : CallWeight} {w w' : String × Ty → Nat} {ps : List Predicate} {p : Predicate}

namespace Exp

mutual

/-- An expression weighs no less if its variables and its calls do. -/
theorem weight_le_weight (hw : ∀ key, w key ≤ w' key) : ∀ e : Exp,
    (∀ c ∈ e.calls, ∀ ws ws', List.Forall₂ (· ≤ ·) ws ws' → F c.1 ws ≤ G c.1 ws') →
    e.weight F w ≤ e.weight G w'
  | .var v => fun _ => hw v.key
  | .len arg => by
    intro _
    rw [weight, weight]
    cases arg.length? with
    | none => exact le_rfl
    | some v => exact hw v.key
  | .call name _ _ args => by
    intro h
    obtain ⟨hc, h⟩ := List.forall_mem_cons.1 h
    have hargs := weights_le_weights hw args h
    have hcall : F name _ ≤ G name _ := hc _ _ hargs
    have hsum := hargs.sum_le_sum
    simp only [weight]
    omega
  | .sub array index => by
    intro h
    obtain ⟨ha, hi⟩ := List.forall_mem_append.1 h
    exact Nat.add_le_add (weight_le_weight hw array ha) (weight_le_weight hw index hi)
  | .upd array index value _ => by
    intro h
    obtain ⟨h, hv⟩ := List.forall_mem_append.1 h
    obtain ⟨ha, hi⟩ := List.forall_mem_append.1 h
    exact Nat.add_le_add (Nat.add_le_add (weight_le_weight hw array ha)
      (weight_le_weight hw index hi)) (weight_le_weight hw value hv)
  | .not arg | .neg arg | .quantified _ _ arg => fun h => weight_le_weight hw arg h
  | .bin _ left right => by
    intro h
    obtain ⟨hl, hr⟩ := List.forall_mem_append.1 h
    exact Nat.add_le_add (weight_le_weight hw left hl) (weight_le_weight hw right hr)
  | .int _ | .float _ | .bool _ | .bare => fun _ => le_rfl

/-- Arguments weigh no less if variables and calls do not. -/
theorem weights_le_weights (hw : ∀ key, w key ≤ w' key) : ∀ args : List Exp,
    (∀ c ∈ callsArgs args, ∀ ws ws', List.Forall₂ (· ≤ ·) ws ws' → F c.1 ws ≤ G c.1 ws') →
    List.Forall₂ (· ≤ ·) (weights F w args) (weights G w' args)
  | [] => fun _ => .nil
  | arg :: args => by
    intro h
    obtain ⟨ha, h⟩ := List.forall_mem_append.1 h
    exact .cons (weight_le_weight hw arg ha) (weights_le_weights hw args h)

end

/-- Only the weights of calls that occur count. -/
theorem weight_congr (hF : F.Monotone) (e : Exp) (h : ∀ c ∈ e.calls, F c.1 = G c.1) :
    e.weight F w = e.weight G w := by
  refine le_antisymm ?_ ?_
  · exact e.weight_le_weight (fun _ => le_rfl) fun c hc ws ws' hle => h c hc ▸ hF c.1 ws ws' hle
  · exact e.weight_le_weight (fun _ => le_rfl) fun c hc ws ws' hle => h c hc ▸ hF c.1 ws ws' hle

mutual

/-- An instance weighs no more than the expression, if what is put in place of variables weighs no
more than they do. Other variables of the instance weigh nothing. -/
theorem weight_instantiate_le (hF : F.Monotone) {rename : String → String} {σ : Replacement}
    (hσ : ∀ key a, σ key = some a → a.weight F 0 ≤ w key) :
    ∀ e : Exp, (e.instantiate rename σ).weight F 0 ≤ e.weight F w
  | .var v => by
    rw [instantiate]
    cases hv : σ v.key with
    | none => exact Nat.zero_le _
    | some a => exact hσ _ a hv
  | .len arg => by
    rw [instantiate, weight]
    cases hv : arg.length?.bind fun v => σ v.key with
    | none =>
      rw [Option.getD_none, weight]
      cases arg.length? <;> exact Nat.zero_le _
    | some a =>
      obtain ⟨v, hl, hv⟩ := Option.bind_eq_some_iff.1 hv
      rw [hl]
      exact hσ _ a hv
  | .call name _ _ args => by
    have hargs : List.Forall₂ (· ≤ ·) (weights F 0 (instantiateArgs rename σ args))
        (weights F w args) := weights_instantiate_le hF hσ args
    have hcall := hF name _ _ hargs
    have hsum := hargs.sum_le_sum
    simp only [instantiate, weight]
    omega
  | .sub array index => by
    rw [instantiate]
    exact Nat.add_le_add (weight_instantiate_le hF hσ array) (weight_instantiate_le hF hσ index)
  | .upd array index value _ => by
    rw [instantiate]
    exact Nat.add_le_add (Nat.add_le_add (weight_instantiate_le hF hσ array)
      (weight_instantiate_le hF hσ index)) (weight_instantiate_le hF hσ value)
  | .not arg | .neg arg => by
    rw [instantiate]
    exact weight_instantiate_le hF hσ arg
  | .bin _ left right => by
    rw [instantiate]
    exact Nat.add_le_add (weight_instantiate_le hF hσ left) (weight_instantiate_le hF hσ right)
  | .quantified _ names body => by
    rw [instantiate]
    refine weight_instantiate_le hF (fun key a h => ?_) body
    unfold Replacement.under at h
    split at h
    · cases h
      exact Nat.zero_le _
    · exact hσ key a h
  | .int _ | .float _ | .bool _ | .bare => Nat.zero_le _

/-- Arguments weigh no more after putting expressions in place of variables, if each variable weighs
as much as what is put in its place. -/
theorem weights_instantiate_le (hF : F.Monotone) {rename : String → String} {σ : Replacement}
    (hσ : ∀ key a, σ key = some a → a.weight F 0 ≤ w key) :
    ∀ args : List Exp,
      List.Forall₂ (· ≤ ·) (weights F 0 (instantiateArgs rename σ args)) (weights F w args)
  | [] => .nil
  | arg :: args => .cons (weight_instantiate_le hF hσ arg) (weights_instantiate_le hF hσ args)

end

end Exp

namespace Predicate

/-- Parameters weigh what their actuals do. -/
theorem assign_map {α β : Type} (f : α → β) (values : List α) (key : String × Ty) :
    p.assign (values.map f) key = (p.assign values key).map f := by
  rw [assign, assign, List.zip_map_right, List.find?_map, Option.map_map, Option.map_map]
  rfl

/-- Parameters weigh no less if the actuals do not. -/
theorem parameterWeight_le {ws ws' : List Nat} (h : List.Forall₂ (· ≤ ·) ws ws')
    (key : String × Ty) : p.parameterWeight ws key ≤ p.parameterWeight ws' key := by
  unfold parameterWeight assign
  generalize p.parameters = vs
  induction h generalizing vs with
  | nil => exact le_rfl
  | @cons a b _ _ hab _ ih =>
    cases vs with
    | nil => exact le_rfl
    | cons v vs =>
      rw [List.zip_cons_cons, List.zip_cons_cons, List.find?_cons, List.find?_cons]
      by_cases hv : (v.key == key) = true
      · simpa [hv] using hab
      · simpa [hv] using ih vs

/-- Calls of predicates weigh no less if their actuals do not. -/
theorem callWeight_monotone : ∀ ps : List Predicate, CallWeight.Monotone (callWeight ps)
  | [] => fun _ _ _ _ => le_rfl
  | p :: ps => by
    intro name ws ws' h
    rw [callWeight, callWeight]
    split
    · exact p.body.weight_le_weight (parameterWeight_le h) fun c _ => callWeight_monotone ps c.1
    · exact callWeight_monotone ps name ws ws' h

/-- A call of a predicate weighs what the body does, although weights are given by recursion on the
earlier predicates: the body calls no others. -/
theorem Ordered.callWeight_eq (h : Ordered ps) (hp : p ∈ ps) (ws : List Nat) :
    callWeight ps p.name ws = p.body.weight (callWeight ps) (p.parameterWeight ws) := by
  induction h with
  | nil => cases hp
  | @cons ps p' h hname hcalls ih =>
    have hother {e : Exp} (he : e.calls ⊆ ps.map signature) (w : String × Ty → Nat) :
        e.weight (callWeight ps) w = e.weight (callWeight (p' :: ps)) w := by
      refine e.weight_congr (callWeight_monotone ps) fun c hc => ?_
      have hne : ¬ p'.name = c.1 := fun heq => hname (heq ▸ name_mem_of_signature_mem (he hc))
      funext ws
      rw [callWeight, if_neg hne]
    rcases List.mem_cons.1 hp with rfl | hp
    · rw [callWeight, if_pos rfl]
      exact hother hcalls _
    · have hne : ¬ p'.name = p.name := fun heq => hname (heq ▸ List.mem_map_of_mem hp)
      rw [callWeight, if_neg hne, ih hp]
      exact hother (h.calls_subset hp) _

end Predicate

/-! ## Unfolding ends -/

namespace Exp

variable {e e' : Exp}

/-- Unfolding a call takes weight off. -/
theorem Unfolds.weight_lt (hps : Predicate.Ordered ps) (h : Unfolds ps e e') :
    e'.weight (Predicate.callWeight ps) 0 < e.weight (Predicate.callWeight ps) 0 := by
  have hmono := Predicate.callWeight_monotone ps
  induction h with
  | @call _ _ p args hp hl rename =>
    have hbody : (p.unfold rename args).weight (Predicate.callWeight ps) 0 ≤
        p.body.weight (Predicate.callWeight ps)
          (p.parameterWeight (weights (Predicate.callWeight ps) 0 args)) := by
      refine weight_instantiate_le hmono (fun key a ha => ?_) p.body
      rw [Predicate.parameterWeight, weights_eq, Predicate.assign_map, ha]
      exact le_rfl
    rw [← hps.callWeight_eq hp] at hbody
    rw [weight]
    omega
  | @actual a a' name _ _ before after _ ih =>
    have hargs : List.Forall₂ (· ≤ ·)
        (weights (Predicate.callWeight ps) 0 (before ++ a' :: after))
        (weights (Predicate.callWeight ps) 0 (before ++ a :: after)) := by
      rw [weights_eq, weights_eq, List.map_append, List.map_append]
      exact List.rel_append (List.forall₂_same.2 fun _ _ => le_rfl)
        (.cons ih.le (List.forall₂_same.2 fun _ _ => le_rfl))
    have hcall := hmono name _ _ hargs
    have hsum : (weights (Predicate.callWeight ps) 0 (before ++ a' :: after)).sum <
        (weights (Predicate.callWeight ps) 0 (before ++ a :: after)).sum := by
      simp only [weights_eq, List.map_append, List.map_cons, List.sum_append, List.sum_cons]
      omega
    simp only [weight]
    omega
  | subArray _ ih | subIndex _ ih | updArray _ ih | updIndex _ ih | updValue _ ih | binLeft _ ih
  | binRight _ ih =>
    simp only [weight]
    omega
  | not _ ih | neg _ ih | quantified _ ih => exact ih

/-- No expression can be unfolded for ever. -/
theorem acc_unfolds (hps : Predicate.Ordered ps) (e : Exp) : Acc (fun e' e => e.Unfolds ps e') e :=
  Subrelation.accessible (fun h => Unfolds.weight_lt hps h)
    (InvImage.accessible (weight (Predicate.callWeight ps) 0) (Nat.lt_wfRel.wf.apply _))

/-- Unfolding leads to an expression without calls, if all calls are of the predicates. -/
theorem exists_unfolded (hps : Predicate.Ordered ps) (e : Exp)
    (he : e.calls ⊆ ps.map Predicate.signature) :
    ∃ e', Relation.ReflTransGen (Unfolds ps) e e' ∧ e'.calls = [] := by
  induction acc_unfolds hps e with
  | intro e _ ih =>
    by_cases hc : e.calls = []
    · exact ⟨e, .refl, hc⟩
    · obtain ⟨e', h⟩ := exists_unfolds e he hc
      obtain ⟨e'', h', hc'⟩ := ih e' h (h.calls_subset hps he)
      exact ⟨e'', .head h h', hc'⟩

end Exp

end

/-- Definitions are well founded. Whatever was attempted to be defined, the definitions are those of
the accepted predicates, in their order; a body calls, outside the arguments of lengths, only
predicates that were defined before its own, with as many actuals as they have parameters; so no
predicate leads back to itself by calls. Calls of an expression that is encoded can be unfolded one
after the other in any order, but not for ever, and they can as long as there is a call. -/
theorem Defined.unfolding_terminates {ps : List Predicate} {ds : Definitions} (h : Defined ps ds) :
    ds.signatures = ps.reverse.map Predicate.signature ∧ (ds.entries.map Prod.fst).Nodup ∧
      (∀ (i : Nat) (p : Predicate), ps.reverse[i]? = some p →
        ∀ c ∈ p.body.calls, ∃ j < i, ds.signatures[j]? = some c) ∧
      (∀ p, ¬ Relation.TransGen (Predicate.CallsIn ps) p p) ∧
      ∀ (e : Exp) (t : Term), e.encode ds = .ok t →
        Acc (fun e' e => e.Unfolds ps e') e ∧
        (∀ e', Relation.ReflTransGen (Exp.Unfolds ps) e e' →
          ((∃ e'', e'.Unfolds ps e'') ↔ e'.calls ≠ [])) ∧
        ∃ e', Relation.ReflTransGen (Exp.Unfolds ps) e e' ∧ e'.calls = [] := by
  have hps := h.ordered
  have hsignatures : ds.signatures = ps.reverse.map Predicate.signature := by
    rw [h.signatures, List.map_reverse]
  have hnames : ds.entries.map Prod.fst = (ps.map Predicate.name).reverse := by
    have hfst := congrArg (List.map Prod.fst) hsignatures
    rwa [Definitions.signatures, List.map_map, List.map_map, List.map_reverse] at hfst
  refine ⟨hsignatures, ?_, fun i p hi c hc => ?_, hps.acyclic, fun e t he => ?_⟩
  · rw [hnames]
    exact List.nodup_reverse.mpr hps.nodup
  · obtain ⟨j, hj, hq⟩ := hps.getElem?_reverse hi c hc
    exact ⟨j, hj, by rw [hsignatures, List.getElem?_map, hq]⟩
  · have hcalls := h.calls_subset he
    refine ⟨Exp.acc_unfolds hps e, fun e' he' => ?_, Exp.exists_unfolded hps e hcalls⟩
    have hcalls' : e'.calls ⊆ ps.map Predicate.signature := by
      induction he' with
      | refl => exact hcalls
      | tail _ hstep ih => exact hstep.calls_subset hps ih
    refine ⟨?_, e'.exists_unfolds hcalls'⟩
    rintro ⟨e'', hu⟩
    exact hu.calls_ne_nil

/-- A predicate that calls an earlier one twice, and a call of it with a call in the actual: the
definitions are in order, and the calls can be unfolded until there are none. -/
theorem unfolding_of_nested_calls :
    let holds : Predicate := ⟨"holds", [.plain "p" .bool],
      .bin .and (.var (.plain "p" .bool)) (.var (.plain "q" .bool))⟩
    let twice : Predicate := ⟨"twice", [.plain "p" .bool],
      .bin .and (holds.call [.var (.plain "p" .bool)]) (holds.call [.var (.plain "p" .bool)])⟩
    let e := twice.call [holds.call [.var (.plain "r" .bool)]]
    ∃ ds t, Defined [twice, holds] ds ∧ ds.signatures = [("holds", 1), ("twice", 1)] ∧
      e.encode ds = .ok t ∧ e.calls = [("twice", 1), ("holds", 1)] ∧
      Acc (fun e' e => e.Unfolds [twice, holds] e') e ∧
      (∃ e', e.Unfolds [twice, holds] e') ∧
      ∃ e', Relation.ReflTransGen (Exp.Unfolds [twice, holds]) e e' ∧ e'.calls = [] := by
  intro holds twice e
  let body : Term := .app .and (.const "p" .bool) (.const "q" .bool)
  let ds : Definitions := ⟨[("holds", ⟨body, [("p", .bool)]⟩),
    ("twice", ⟨.app .and body body, [("p", .bool)]⟩)]⟩
  have hds : Defined [twice, holds] ds := .accept (.accept .empty rfl) rfl
  obtain ⟨hsignatures, -, -, -, hunfold⟩ := hds.unfolding_terminates
  obtain ⟨hacc, hstep, hend⟩ := hunfold e _ rfl
  exact ⟨ds, _, hds, hsignatures, rfl, rfl, hacc, (hstep e .refl).2 (List.cons_ne_nil _ _), hend⟩

end Discharge
