import Discharge.CounterModel.Basic

/-!
# Collections of counterexamples

Maps that models are made from can be changed later, so a collection is kept in a memory in which each
map has a place of its own. A model that is made copies its source to a new place and holds a view of
the copy, through which nothing can be written; its fields cannot be written either. What is written to
a source goes to the source's place, and is seen by whatever views that place.
-/

namespace Discharge

namespace CounterModel

/-- What a model of a collection is made from: a map of its own, and a reason. -/
structure Entry where ofSource ::
  source : Assignments
  reason : Option String

/-- What the models of a collection are made from. -/
abbrev Collection := List Entry

/-- The fields of a model. -/
inductive Field where
  | assignments
  | reason

/-- What is done with models and their sources. Models are numbered in the order in which they are
made. -/
inductive Query where
  /-- Makes a model from a new map. -/
  | make (source : Assignments) (reason : Option String)
  /-- Makes a further model from the source of a model. -/
  | makeAlso (i : Nat) (reason : Option String)
  | size (i : Nat)
  | truthy (i : Nat)
  | keys (i : Nat)
  | items (i : Nat)
  | contains (i : Nat) (key : String)
  | item (i : Nat) (key : String)
  | get (i : Nat) (key : String) (default : Option String)
  | refutation (i : Nat)
  | reason (i : Nat)
  | equal (i j : Nat)
  | sameHash (i j : Nat)
  | equalsSource (i : Nat)
  | distinct (is : List Nat)
  | put (i : Nat) (key value : String)
  | erase (i : Nat) (key : String)
  | merge (i : Nat) (pairs : Assignments)
  | setReason (i : Nat) (reason : Option String)
  | setAssignments (i : Nat) (pairs : Assignments)
  | deleteField (i : Nat) (field : Field)
  | putSource (i : Nat) (key value : String)
  | eraseSource (i : Nat) (key : String)

/-- Answers to queries. -/
inductive Answer where
  | count (n : Nat)
  | flag (b : Bool)
  | names (keys : List String)
  | pairs (items : List (String × String))
  | text (value : Option String)
  | nothing
  | refused (e : AccessError)
  | noSuchModel

/-- A model in memory: the place of its source, the place that it views, and its reason. -/
structure Handle where
  source : Nat
  view : Nat
  reason : Option String

/-- Maps at their places, and the models that have been made. -/
structure Memory where
  maps : List Assignments
  models : List Handle

namespace Memory

/-- Nothing has been made. -/
def empty : Memory := ⟨[], []⟩

/-- The model of a number, as it reads now. -/
def modelAt? (mem : Memory) (i : Nat) : Option CounterModel := do
  let h ← mem.models[i]?
  let pairs ← mem.maps[h.view]?
  some ⟨pairs, h.reason⟩

/-- The source of a model, as it is now. -/
def sourceAt? (mem : Memory) (i : Nat) : Option Assignments := do
  let h ← mem.models[i]?
  mem.maps[h.source]?

/-- Makes a model from the map at a place: the map is copied to a new place. -/
def makeFrom (mem : Memory) (source : Nat) (reason : Option String) : Memory :=
  match mem.maps[source]? with
  | some pairs => ⟨mem.maps ++ [pairs], mem.models ++ [⟨source, mem.maps.length, reason⟩]⟩
  | none => mem

/-- Changes the source of a model at its place. -/
def changeSource (mem : Memory) (i : Nat) (f : Assignments → Assignments) : Memory :=
  match mem.models[i]? with
  | some h => { mem with maps := mem.maps.modify h.source f }
  | none => mem

/-- The memory after a query: only making models and writing to sources change it. -/
def after (mem : Memory) : Query → Memory
  | .make source reason =>
    { mem with maps := mem.maps ++ [source] }.makeFrom mem.maps.length reason
  | .makeAlso i reason =>
    match mem.models[i]? with
    | some h => mem.makeFrom h.source reason
    | none => mem
  | .putSource i key value => mem.changeSource i fun source => source.put key value
  | .eraseSource i key => mem.changeSource i fun source => source.erase key
  | _ => mem

/-- The memory after several queries. -/
def run (mem : Memory) (qs : List Query) : Memory := qs.foldl after mem

/-- Answers with the model of a number. -/
def withModel (mem : Memory) (i : Nat) (f : CounterModel → Answer) : Answer :=
  match mem.modelAt? i with
  | some m => f m
  | none => .noSuchModel

/-- The answer to a query. -/
def answer (mem : Memory) : Query → Answer
  | .make _ _ => .nothing
  | .makeAlso i _ => mem.withModel i fun _ => .nothing
  | .size i => mem.withModel i fun m => .count m.assignments.size
  | .truthy i => mem.withModel i fun m => .flag (m.assignments.size != 0)
  | .keys i => mem.withModel i fun m => .names m.assignments.keys
  | .items i => mem.withModel i fun m => .pairs m.assignments.entries
  | .contains i key => mem.withModel i fun m => .flag (m.assignments.contains key)
  | .item i key => mem.withModel i fun m =>
    match m.assignments.get? key with
    | some value => .text (some value)
    | none => .refused .missingKey
  | .get i key default => mem.withModel i fun m =>
    match m.assignments.get? key with
    | some value => .text (some value)
    | none => .text default
  | .refutation i => mem.withModel i fun m => .flag m.isRefutation
  | .reason i => mem.withModel i fun m => .text m.reason
  | .equal i j => mem.withModel i fun m => mem.withModel j fun n => .flag (m == n)
  | .sameHash i j => mem.withModel i fun m => mem.withModel j fun n => .flag (hash m == hash n)
  | .equalsSource i => mem.withModel i fun _ => .flag false
  | .distinct is =>
    match is.mapM mem.modelAt? with
    | some models => .count (countDistinct models)
    | none => .noSuchModel
  | .put i _ _ => mem.withModel i fun _ => .refused .readOnlyAssignments
  | .erase i _ => mem.withModel i fun _ => .refused .readOnlyAssignments
  | .merge i _ => mem.withModel i fun _ => .refused .readOnlyAssignments
  | .setReason i _ => mem.withModel i fun _ => .refused .frozenField
  | .setAssignments i _ => mem.withModel i fun _ => .refused .frozenField
  | .deleteField i _ => mem.withModel i fun _ => .refused .frozenField
  | .putSource i _ _ => mem.withModel i fun _ => .nothing
  | .eraseSource i key => mem.withModel i fun _ =>
    match mem.sourceAt? i with
    | some source => if source.contains key then .nothing else .refused .missingKey
    | none => .noSuchModel

/-- The answers to queries that are asked one after the other. -/
def answers (mem : Memory) : List Query → List Answer
  | [] => []
  | q :: qs => mem.answer q :: (mem.after q).answers qs

end Memory

namespace Collection

/-- The memory in which the models of a collection have been made. -/
def made (c : Collection) : Memory := Memory.empty.run (c.map fun e => .make e.source e.reason)

/-- The answers to queries that are asked one after the other. -/
def answers (c : Collection) (qs : List Query) : List Answer := c.made.answers qs

end Collection

end CounterModel

end Discharge
