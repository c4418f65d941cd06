import Mathlib.Data.List.Forall2
import Mathlib.Data.List.TakeWhile
import Discharge.Proofs.Encoding.Sorts

/-!
# What definitions hold

`Definitions.Invariant named ps ds` relates definitions to the predicates `ps` that were accepted,
the latest first: one entry for each, in order, with a closed formula as its body and a constant for
each parameter; and terms over them are closed and well sorted. This holds whatever was attempted
to be defined (`Defined.invariant`).

`named` gives the name of a parameter's constant. It is not the parameter's own name where that
holds a null character.
-/

namespace Discharge

open Term (Sorted)

/-- The term is the constant of the variable's sort, which is atomic, and of the name `named` gives
for the variable's. -/
def Variable.Carried (named : String → String) (v : Variable) (t : Term) : Prop :=
  ∃ s : BasicSort, v.type.sort? = .ok (.basic s) ∧ t = .const (named v.name) (.basic s)

/-- The entry of an accepted predicate. -/
structure Predicate.Entered (named : String → String) (p : Predicate)
    (entry : String × Definition) : Prop where
  name : entry.1 = p.name
  body : Sorted 0 entry.2.body .bool
  formals : List.Forall₂ (Variable.Carried named) p.parameters entry.2.formalTerms

/-- The entries are those of the predicates, and what is encoded over them is closed and well
sorted. -/
structure Definitions.Invariant (named : String → String) (ps : List Predicate)
    (ds : Definitions) : Prop where
  entries : List.Forall₂ (Predicate.Entered named) ps.reverse ds.entries
  terms : ∀ {e : Exp} {t : Term}, e.encode ds = .ok t → ∃ s, Sorted 0 t s

/-- A name without a null character is that of its constant. -/
theorem constantName_eq_self {name : String} (h : '\x00' ∉ name.toList) :
    constantName name = name := by
  rw [constantName, List.takeWhile_eq_self_iff.2, String.ofList_toList]
  intro c hc
  exact bne_iff_ne.2 fun (heq : c = _) => h (heq ▸ hc)

/-- The formals of an accepted predicate are constants of its parameters. -/
theorem Definitions.formals_carried {predicate : String} (body : Term) :
    ∀ {vs : List Variable} {fs : List (String × BasicSort)}, formals predicate vs = .ok fs →
      List.Forall₂ (Variable.Carried constantName) vs (Definition.formalTerms ⟨body, fs⟩)
  | [], _, h => by cases h; exact .nil
  | v :: vs, _, h => by
    simp only [formals] at h
    split at h
    · cases h
    · next s hs =>
      obtain ⟨rest, hrest, h⟩ := bind_eq_ok.1 h
      cases h
      have hsort := Ty.hasSort_iff.1 (Ty.basicSort?_eq_some_iff.1 hs)
      exact .cons ⟨s, hsort, rfl⟩ (formals_carried body hrest)

/-- Accepted predicates have their entries, in order. -/
theorem Defined.entered {ps : List Predicate} {ds : Definitions} (h : Defined ps ds) :
    List.Forall₂ (Predicate.Entered constantName) ps.reverse ds.entries := by
  induction h with
  | empty => exact .nil
  | accept h hp ih =>
    obtain ⟨-, fs, body, hfs, hb, hs, rfl⟩ := Definitions.define_eq_ok hp
    have hbody : Sorted 0 body .bool := .of_sortOf (h.wellSorted.encode hb) hs
    rw [List.reverse_cons]
    exact List.rel_append ih (.cons ⟨rfl, hbody, Definitions.formals_carried body hfs⟩ .nil)
  | refuse _ _ ih => exact ih

/-- Whatever was attempted to be defined, the entries are those of the accepted predicates and terms
are closed and well sorted. The constants of parameters have their names, up to a null character. -/
theorem Defined.invariant {ps : List Predicate} {ds : Definitions} (h : Defined ps ds) :
    ds.Invariant constantName ps ∧
      ∀ name : String, '\x00' ∉ name.toList → constantName name = name :=
  ⟨⟨h.entered, h.wellSorted.encode⟩, fun _ => constantName_eq_self⟩

/-- A predicate with two parameters, one of whose names is cut short. -/
theorem invariant_of_null :
    let p : Predicate := ⟨"P", [.plain "x" .float, .plain "a\x00b" .int], .bin .gt
      (.var (.plain "x" .float)) (.var (.plain "a\x00b" .int))⟩
    ∃ ds, Definitions.empty.define p = .ok ds ∧ ds.Invariant constantName [p] :=
  ⟨_, rfl, (Defined.invariant (.accept .empty rfl)).1⟩

/-- A null character in a parameter's name is not in that of its constant. -/
theorem Defined.not_invariant_of_names :
    ¬ ∀ ps ds, Defined ps ds → ds.Invariant (fun name => name) ps := by
  intro h
  let p : Predicate := ⟨"P", [.plain "a\x00b" .int], .bool true⟩
  have hp : Defined [p] ⟨[("P", ⟨.bool true, [("a", .int)]⟩)]⟩ := .accept .empty rfl
  cases (h _ _ hp).entries with
  | cons hentry _ =>
    cases hentry.formals with
    | cons hcarried _ =>
      obtain ⟨s, -, ht⟩ := hcarried
      injection ht with hname
      exact absurd hname (by decide)

end Discharge
