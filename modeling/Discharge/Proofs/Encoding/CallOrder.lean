import Mathlib.Logic.Relation
import Discharge.Proofs.Encoding.Registry
import Discharge.Proofs.Encoding.Parts

/-!
# The order of definitions

Every call in the body of an accepted predicate, outside the arguments of lengths, is of a predicate
that was accepted before it, with as many actuals as that one has parameters: the call was resolved
when the body was encoded (`Defined.ordered`). So calls lead along the order of definition only
(`Predicate.Ordered.getElem?_reverse`), and no predicate leads back to itself
(`Predicate.Ordered.acyclic`).
-/

namespace Discharge

/-! ## Calls -/

namespace Exp

mutual

/-- The calls of an expression outside the arguments of lengths, each as the predicate's name and the
number of actuals. -/
def calls : Exp → List (String × Nat)
  | .call name _ _ args => (name, args.length) :: callsArgs args
  | .sub array index => array.calls ++ index.calls
  | .upd array index value _ => array.calls ++ index.calls ++ value.calls
  | .not arg => arg.calls
  | .neg arg => arg.calls
  | .bin _ left right => left.calls ++ right.calls
  | .quantified _ _ body => body.calls
  | .var _ => []
  | .int _ => []
  | .float _ => []
  | .bool _ => []
  | .len _ => []
  | .bare => []

/-- The calls of several expressions. -/
def callsArgs : List Exp → List (String × Nat)
  | [] => []
  | arg :: args => arg.calls ++ callsArgs args

end

/-- The calls of arguments are those of each of them. -/
theorem callsArgs_eq (args : List Exp) : callsArgs args = args.flatMap calls := by
  induction args with
  | nil => rfl
  | cons arg args ih => rw [callsArgs, ih, List.flatMap_cons]

/-- A call is one of the arguments if it is one of some argument. -/
theorem mem_callsArgs {args : List Exp} {c : String × Nat} :
    c ∈ callsArgs args ↔ ∃ arg ∈ args, c ∈ arg.calls := by
  rw [callsArgs_eq, List.mem_flatMap]

/-- The calls of an operand are among those of the expression. -/
theorem calls_subset_of_operand {e part : Exp} {place : Place} (h : (place, part) ∈ e.operands) :
    part.calls ⊆ e.calls := by
  have hp := mem_parts_of_operand h
  intro c hc
  cases e with
  | call name parameters body args =>
    rw [parts_call] at hp
    exact List.mem_cons_of_mem _ (mem_callsArgs.2 ⟨_, hp, hc⟩)
  | sub | bin =>
    simp only [parts_sub, parts_bin, List.mem_cons, List.not_mem_nil, or_false] at hp
    rcases hp with rfl | rfl <;> simp [calls, hc]
  | upd array index value length =>
    simp only [parts_upd, List.mem_cons, List.not_mem_nil, or_false] at hp
    rcases hp with rfl | rfl | rfl <;> simp [calls, hc]
  | not | neg | quantified =>
    obtain rfl := List.mem_singleton.1 hp
    exact hc
  | var | int | float | bool | len | bare => cases hp

/-- A call of the name with the number of actuals is one of the exposed parts. -/
def ExposesCall (e : Exp) (c : String × Nat) : Prop :=
  ∃ parameters body args, e.Exposes (.call c.1 parameters body args) ∧ args.length = c.2

/-- A call that a part exposes is exposed by the whole. -/
theorem ExposesCall.of_part {e part : Exp} {c : String × Nat} (h : part.ExposesCall c)
    (hp : part ∈ e.parts) : e.ExposesCall c := by
  obtain ⟨place, ho⟩ := mem_parts.1 hp
  obtain ⟨parameters, body, args, hx, hl⟩ := h
  exact ⟨parameters, body, args, .of_operand ho hx, hl⟩

mutual

/-- Every call outside the arguments of lengths is exposed. -/
theorem exposesCall_of_mem {c : String × Nat} : ∀ {e : Exp}, c ∈ e.calls → e.ExposesCall c
  | .call name parameters body args => by
    intro h
    rcases List.mem_cons.1 h with rfl | h
    · exact ⟨parameters, body, args, .self, rfl⟩
    · obtain ⟨arg, ha, hx⟩ := exists_exposesCall_of_mem h
      exact hx.of_part (by simpa using ha)
  | .sub array index => by
    intro h
    rcases List.mem_append.1 h with h | h
    · exact (exposesCall_of_mem h).of_part (by simp)
    · exact (exposesCall_of_mem h).of_part (by simp)
  | .upd array index value _ => by
    intro h
    rw [calls, List.mem_append, List.mem_append] at h
    rcases h with (h | h) | h
    · exact (exposesCall_of_mem h).of_part (by simp)
    · exact (exposesCall_of_mem h).of_part (by simp)
    · exact (exposesCall_of_mem h).of_part (by simp)
  | .not arg | .neg arg | .quantified _ _ arg =>
    fun h => (@exposesCall_of_mem _ arg h).of_part (.head _)
  | .bin op left right => by
    intro h
    rcases List.mem_append.1 h with h | h
    · exact (exposesCall_of_mem h).of_part (by simp)
    · exact (exposesCall_of_mem h).of_part (by simp)
  | .var _ | .int _ | .float _ | .bool _ | .len _ | .bare => nofun

/-- Every call of some arguments is exposed by one of them. -/
theorem exists_exposesCall_of_mem {c : String × Nat} :
    ∀ {es : List Exp}, c ∈ callsArgs es → ∃ e ∈ es, e.ExposesCall c
  | [] => nofun
  | e :: es => by
    intro h
    rcases List.mem_append.1 h with h | h
    · exact ⟨e, List.mem_cons_self, exposesCall_of_mem h⟩
    · obtain ⟨e', he, hx⟩ := exists_exposesCall_of_mem h
      exact ⟨e', List.mem_cons_of_mem _ he, hx⟩

end

/-- The calls of an expression are those of its exposed parts. -/
theorem mem_calls_iff {e : Exp} {c : String × Nat} : c ∈ e.calls ↔ e.ExposesCall c := by
  refine ⟨exposesCall_of_mem, fun ⟨parameters, body, args, hx, hl⟩ => ?_⟩
  have hsubset : ∀ {part : Exp}, e.Exposes part → part.calls ⊆ e.calls := by
    intro part h
    induction h with
    | self => exact fun _ hc => hc
    | operand _ hp ih => exact List.Subset.trans (calls_subset_of_operand hp) ih
  refine hsubset hx ?_
  rw [calls, hl]
  exact List.mem_cons_self

end Exp

/-! ## Names and numbers of parameters -/

/-- What a call of the predicate has to be: its name, and as many actuals as it has parameters. -/
def Predicate.signature (p : Predicate) : String × Nat := (p.name, p.parameters.length)

/-- The names of definitions with their numbers of parameters, in the order of definition. -/
def Definitions.signatures (ds : Definitions) : List (String × Nat) :=
  ds.entries.map fun entry => (entry.1, entry.2.formals.length)

/-- The definitions are those of the accepted predicates. -/
theorem Defined.signatures {ps : List Predicate} {ds : Definitions} (h : Defined ps ds) :
    ds.signatures = (ps.map Predicate.signature).reverse := by
  rw [← List.map_reverse, Definitions.signatures, eq_comm, ← List.forall₂_eq_eq_eq,
    List.forall₂_map_left_iff, List.forall₂_map_right_iff]
  refine h.entered.imp fun p entry he => ?_
  have hl := he.formals.length_eq
  rw [Definition.formalTerms, List.length_map] at hl
  exact Prod.ext he.name.symm hl

/-- What is found is one of the definitions. -/
theorem Definitions.mem_signatures {ds : Definitions} {name : String} {d : Definition}
    (h : ds.lookup? name = some d) : (name, d.formals.length) ∈ ds.signatures := by
  obtain ⟨entry, he, rfl⟩ := Option.map_eq_some_iff.1 h
  have hname : entry.1 = name := by simpa using List.find?_some he
  exact List.mem_map.2 ⟨entry, List.mem_of_find?_eq_some he, by rw [hname]⟩

/-- The calls of an expression that is encoded are of definitions. -/
theorem Defined.calls_subset {ps : List Predicate} {ds : Definitions} (h : Defined ps ds) {e : Exp}
    {t : Term} (he : e.encode ds = .ok t) : e.calls ⊆ ps.map Predicate.signature := by
  intro c hc
  obtain ⟨parameters, body, args, hx, hl⟩ := Exp.mem_calls_iff.1 hc
  obtain ⟨s, hs⟩ := hx.hasSort (h.wellSorted.hasSort_of_encode he)
  cases hs with
  | @call _ d _ _ _ hd ha =>
    have hmem := Definitions.mem_signatures hd
    rw [h.signatures, List.mem_reverse, ← ha.length_eq, hl] at hmem
    exact hmem

/-! ## The order -/

namespace Predicate

/-- Predicates, the latest first, none of which has the name of an earlier one or calls others than
earlier ones. -/
inductive Ordered : List Predicate → Prop
  | nil : Ordered []
  | cons (h : Ordered ps) (hname : p.name ∉ ps.map Predicate.name)
      (hcalls : p.body.calls ⊆ ps.map signature) : Ordered (p :: ps)

/-- One of the predicates calls another one. -/
def CallsIn (ps : List Predicate) (p q : Predicate) : Prop :=
  p ∈ ps ∧ q ∈ ps ∧ ∃ n, (q.name, n) ∈ p.body.calls

/-- The name of a signature is the name of a predicate. -/
theorem name_mem_of_signature_mem {ps : List Predicate} {c : String × Nat}
    (h : c ∈ ps.map signature) : c.1 ∈ ps.map Predicate.name := by
  obtain ⟨p, hp, rfl⟩ := List.mem_map.1 h
  exact List.mem_map_of_mem hp

namespace Ordered

variable {ps : List Predicate} {p q : Predicate}

/-- Predicates in order have different names. -/
theorem nodup (h : Ordered ps) : (ps.map Predicate.name).Nodup := by
  induction h with
  | nil => exact .nil
  | cons _ hname _ ih => exact List.nodup_cons.2 ⟨hname, ih⟩

/-- The bodies call none but the predicates. -/
theorem calls_subset (h : Ordered ps) (hp : p ∈ ps) : p.body.calls ⊆ ps.map signature := by
  induction h with
  | nil => cases hp
  | cons _ _ hcalls ih =>
    intro c hc
    rcases List.mem_cons.1 hp with rfl | hp
    · exact List.mem_cons_of_mem _ (hcalls hc)
    · exact List.mem_cons_of_mem _ (ih hp hc)

/-- In the order of definition, a call is of a predicate at a smaller position. -/
theorem getElem?_reverse (h : Ordered ps) {i : Nat} (hi : ps.reverse[i]? = some p) :
    ∀ c ∈ p.body.calls, ∃ j < i, (ps.reverse[j]?).map signature = some c := by
  induction h generalizing i with
  | nil => cases hi
  | @cons ps p' h _ hcalls ih =>
    rw [List.reverse_cons] at hi ⊢
    have hearlier {j : Nat} (hj : j < ps.length) :
        (ps.reverse ++ [p'])[j]? = ps.reverse[j]? :=
      List.getElem?_append_left (by simpa using hj)
    rcases Nat.lt_trichotomy i ps.length with hlt | rfl | hlt
    · intro c hc
      obtain ⟨j, hj, hq⟩ := ih (hearlier hlt ▸ hi) c hc
      exact ⟨j, hj, by rw [hearlier (hj.trans hlt), hq]⟩
    · intro c hc
      have hp : p' = p := by simpa using hi
      obtain ⟨j, hj, hq⟩ := List.getElem_of_mem (List.mem_reverse.2 (hcalls (hp ▸ hc)))
      have hj : j < ps.length := by simpa using hj
      refine ⟨j, hj, ?_⟩
      rw [hearlier hj, ← List.getElem?_map, List.map_reverse, ← hq]
      exact List.getElem?_eq_getElem _
    · have hlen : (ps.reverse ++ [p']).length ≤ i := by simpa using Nat.succ_le_of_lt hlt
      rw [List.getElem?_eq_none hlen] at hi
      cases hi

/-- A call leads away from the latest predicate. -/
theorem idxOf_lt (h : Ordered ps) (hpq : CallsIn ps p q) :
    (ps.map Predicate.name).idxOf p.name < (ps.map Predicate.name).idxOf q.name := by
  obtain ⟨hp, hq, n, hn⟩ := hpq
  induction h with
  | nil => cases hp
  | @cons ps p' h hname hcalls ih =>
    have hqname : q.name ∈ ps.map Predicate.name := by
      rcases List.mem_cons.1 hp with rfl | hp
      · exact name_mem_of_signature_mem (hcalls hn)
      · exact name_mem_of_signature_mem (h.calls_subset hp hn)
    have hne : p'.name ≠ q.name := fun heq => hname (heq ▸ hqname)
    rw [List.map_cons, List.idxOf_cons_ne _ hne]
    rcases List.mem_cons.1 hp with rfl | hp
    · rw [List.idxOf_cons_self]
      exact Nat.succ_pos _
    · have hp' : p'.name ≠ p.name := fun heq => hname (heq ▸ List.mem_map_of_mem hp)
      have hq : q ∈ ps := by
        rcases List.mem_cons.1 hq with rfl | hq
        · exact absurd rfl hne
        · exact hq
      rw [List.idxOf_cons_ne _ hp']
      exact Nat.succ_lt_succ (ih hp hq)

/-- No predicate leads back to itself by calls. -/
theorem acyclic (h : Ordered ps) (p : Predicate) : ¬ Relation.TransGen (CallsIn ps) p p := by
  intro hcycle
  have hlt := hcycle.lift (fun q => (ps.map Predicate.name).idxOf q.name) fun _ _ => h.idxOf_lt
  rw [Relation.transGen_eq_self] at hlt
  exact lt_irrefl _ hlt

end Ordered

end Predicate

/-- Whatever was attempted to be defined, accepted predicates call only earlier ones. -/
theorem Defined.ordered {ps : List Predicate} {ds : Definitions} (h : Defined ps ds) :
    Predicate.Ordered ps := by
  induction h with
  | empty => exact .nil
  | @accept ps ds p ds' h hp ih =>
    obtain ⟨hnew, fs, body, -, hb, -, -⟩ := Definitions.define_eq_ok hp
    refine .cons ih (fun hname => ?_) (h.calls_subset hb)
    have hentry : p.name ∈ ds.entries.map Prod.fst := by
      have := congrArg (List.map Prod.fst) h.signatures
      simp only [Definitions.signatures, List.map_map, List.map_reverse] at this
      rw [show ds.entries.map Prod.fst = _ from this, List.mem_reverse]
      exact hname
    obtain ⟨entry, he, heq⟩ := List.mem_map.1 hentry
    rw [Definitions.lookup?, Option.map_eq_none_iff, List.find?_eq_none] at hnew
    exact hnew entry he (by simp [heq])
  | refuse _ _ ih => exact ih

end Discharge
