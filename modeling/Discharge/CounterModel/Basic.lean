/-!
# Counterexamples

A `CounterModel` holds the values, as text, that falsify a condition. If the condition was not
decided, it holds a reason, and is then no refutation. Equality and hash do not look at the order of the
pairs; a set of models looks at both.
-/

namespace Discharge

/-! ## Assignments

Finite maps from names to texts that remember the order in which names were first put.

Main facts: `get?_put_self` and `get?_put_of_ne` describe `put` through `get?`, and
`mem_iff_get?` says that the pairs of a map are exactly what it looks up.
-/

/-- An ordered map from names to texts; no name occurs twice. -/
structure Assignments where
  entries : List (String × String)
  nodup : (entries.map Prod.fst).Nodup := by decide
deriving DecidableEq

namespace Assignments

/-- Replaces the value of a name in place, or adds the name at the end. -/
def putEntry (key value : String) : List (String × String) → List (String × String)
  | [] => [(key, value)]
  | (k, v) :: rest => if k = key then (k, value) :: rest else (k, v) :: putEntry key value rest

/-- Putting a name leaves the names and their order, but for a new one at the end. -/
theorem keys_putEntry (key value : String) (l : List (String × String)) :
    (putEntry key value l).map Prod.fst =
      if key ∈ l.map Prod.fst then l.map Prod.fst else l.map Prod.fst ++ [key] := by
  induction l with
  | nil => simp [putEntry]
  | cons p rest ih =>
    obtain ⟨k, v⟩ := p
    by_cases h : k = key
    · simp [putEntry, h]
    · have h' : ¬ key = k := fun e => h e.symm
      simp only [putEntry, h, if_false, List.map_cons, ih, List.mem_cons, h', false_or]
      split <;> simp

/-- Putting a name makes no name occur twice. -/
theorem nodup_putEntry {key value : String} {l : List (String × String)}
    (h : (l.map Prod.fst).Nodup) : ((putEntry key value l).map Prod.fst).Nodup := by
  rw [keys_putEntry]
  split
  · exact h
  · next hk => exact List.nodup_append.2 ⟨h, by simp, by
      intro a ha b hb e
      simp only [List.mem_singleton] at hb
      exact hk (hb ▸ e ▸ ha)⟩

/-- No names. -/
def empty : Assignments := ⟨[], by simp⟩

/-- The map with a name's value replaced, or with the name added at the end. -/
def put (a : Assignments) (key value : String) : Assignments :=
  ⟨putEntry key value a.entries, nodup_putEntry a.nodup⟩

/-- The map without a name. -/
def erase (a : Assignments) (key : String) : Assignments :=
  ⟨a.entries.filter fun p => p.1 != key, a.nodup.sublist (List.filter_sublist.map _)⟩

/-- The map of a list of pairs; of pairs with one name the last value counts, at the first place. -/
def ofList (pairs : List (String × String)) : Assignments :=
  pairs.foldl (fun a p => a.put p.1 p.2) empty

/-- The names, in order. -/
def keys (a : Assignments) : List String := a.entries.map Prod.fst

/-- The number of names. -/
def size (a : Assignments) : Nat := a.entries.length

/-- The value of a name. -/
def get? (a : Assignments) (key : String) : Option String :=
  (a.entries.find? (fun p => p.1 == key)).map Prod.snd

/-- Whether the name has a value. -/
def contains (a : Assignments) (key : String) : Bool := (a.get? key).isSome

/-- Equality as maps: the same names with the same values, in any order. -/
def same (a b : Assignments) : Bool :=
  a.size == b.size && a.entries.all (fun p => b.entries.contains p)

/-- A name that is put is found with its value. -/
theorem find?_putEntry_self (key value : String) (l : List (String × String)) :
    ((putEntry key value l).find? (fun p => p.1 == key)).map Prod.snd = some value := by
  induction l with
  | nil => simp [putEntry]
  | cons p rest ih =>
    obtain ⟨k, v⟩ := p
    by_cases h : k = key
    · simp [putEntry, h]
    · simp [putEntry, h, ih]

/-- Putting a name does not change what is found under another. -/
theorem find?_putEntry_of_ne {key other value : String} (h : key ≠ other)
    (l : List (String × String)) :
    (putEntry key value l).find? (fun p => p.1 == other) = l.find? (fun p => p.1 == other) := by
  induction l with
  | nil => simp [putEntry, h]
  | cons p rest ih =>
    obtain ⟨k, v⟩ := p
    by_cases hk : k = key
    · subst hk; simp [putEntry, h]
    · by_cases ho : k = other
      · subst ho; simp [putEntry, hk]
      · simp [putEntry, hk, ho, ih]

/-- A name has the value that was put last. -/
theorem get?_put_self (a : Assignments) (key value : String) :
    (a.put key value).get? key = some value :=
  find?_putEntry_self key value a.entries

/-- Putting a name leaves the others. -/
theorem get?_put_of_ne (a : Assignments) {key other : String} (value : String) (h : key ≠ other) :
    (a.put key value).get? other = a.get? other := by
  simp [get?, put, find?_putEntry_of_ne h]

/-- Where no name occurs twice, the pairs are just those that are found. -/
theorem mem_iff_find? {l : List (String × String)} (h : (l.map Prod.fst).Nodup) (k v : String) :
    (k, v) ∈ l ↔ (l.find? (fun p => p.1 == k)).map Prod.snd = some v := by
  induction l with
  | nil => simp
  | cons p rest ih =>
    obtain ⟨k', v'⟩ := p
    simp only [List.map_cons, List.nodup_cons] at h
    by_cases hk : k' = k
    · subst hk
      have hn : (k', v) ∉ rest := fun hm => h.1 (List.mem_map.2 ⟨_, hm, rfl⟩)
      simp [hn, eq_comm]
    · have : ¬ k = k' := fun e => hk e.symm
      simp [hk, this, ih h.2]

/-- The pairs of a map are what it looks up. -/
theorem mem_iff_get? (a : Assignments) (k v : String) :
    (k, v) ∈ a.entries ↔ a.get? k = some v :=
  mem_iff_find? a.nodup k v

end Assignments

/-! ## Falsifying assignments -/

/-- A falsifying assignment, or what was known of one when the search ended for some reason. -/
structure CounterModel where
  assignments : Assignments
  reason : Option String := none

namespace CounterModel

/-- Whether the assignments do falsify the condition. -/
def isRefutation (m : CounterModel) : Bool := m.reason.isNone

/-- Equality: the same pairs in any order, and the same reason. -/
instance : BEq CounterModel where
  beq m n := m.assignments.same n.assignments && m.reason == n.reason

/-- The hash of one pair. -/
def hashEntry (p : String × String) : UInt64 := mixHash (hash p.1) (hash p.2)

/-- The hash of a model. The pairs are added up, so their order has no part in it. -/
instance : Hashable CounterModel where
  hash m := mixHash ((m.assignments.entries.map hashEntry).foldr (· + ·) 0) (hash m.reason)

/-- A set of models with one more: it joins them unless a member with its hash is equal to it. -/
def join (members : List CounterModel) (m : CounterModel) : List CounterModel :=
  if members.any fun n => hash n == hash m && n == m then members else members ++ [m]

/-- The number of members of the set of some models. -/
def countDistinct (models : List CounterModel) : Nat := (models.foldl join []).length

end CounterModel

/-- What an attempt to write to a model, or to read or remove a missing name, ends in. -/
inductive CounterModel.AccessError where
  | missingKey
  | readOnlyAssignments
  | frozenField
deriving DecidableEq

end Discharge
