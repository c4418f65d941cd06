import Discharge.CounterModel.Collection
import Discharge.Proofs.CounterModel.Equality

/-!
# Counterexamples are sealed values

Where a model views a map, nothing writes: sources and views are apart (`Memory.Apart`), since a model
views a copy at a place that was new when it was made. So each query keeps every model as it is
(`Memory.Apart.after`), and so does every run (`Memory.Apart.run`). `Memory.Holds` collects what a model
that is kept answers; at the end this is said of all models that are made in a run, together with when
they are equal and what their sets count.
-/

namespace Discharge

namespace CounterModel

variable {i : Nat} {m : CounterModel} {mem mem' mem'' : Memory} {source pairs : Assignments}
  {reason : Option String}

/-- The query tries to write to the assignments or to the fields of a model. -/
inductive Query.Writes (i : Nat) : Query → Prop
  | put (key value : String) : Writes i (.put i key value)
  | erase (key : String) : Writes i (.erase i key)
  | merge (pairs : Assignments) : Writes i (.merge i pairs)
  | setReason (reason : Option String) : Writes i (.setReason i reason)
  | setAssignments (pairs : Assignments) : Writes i (.setAssignments i pairs)
  | deleteField (field : Field) : Writes i (.deleteField i field)

namespace Memory

/-- What the model of a number is: the map that it views, and its reason. -/
theorem modelAt?_eq_some : mem.modelAt? i = some m ↔ ∃ h, mem.models[i]? = some h ∧
    mem.maps[h.view]? = some m.assignments ∧ h.reason = m.reason := by
  simp only [modelAt?, Option.bind_eq_bind, Option.bind_eq_some_iff, Option.some.injEq]
  constructor
  · rintro ⟨h, hh, a, ha, rfl⟩
    exact ⟨h, hh, ha, rfl⟩
  · rintro ⟨h, hh, ha, hr⟩
    exact ⟨h, hh, _, ha, by rw [hr]⟩

/-- A query about a model that there is answers from it. -/
theorem withModel_eq {f : CounterModel → Answer} (h : mem.modelAt? i = some m) :
    mem.withModel i f = f m := by
  rw [withModel, h]

/-- Each query is answered by the memory that those before it leave. -/
theorem getElem?_answers (mem : Memory) (qs : List Query) (k : Nat) :
    (mem.answers qs)[k]? = qs[k]?.map (mem.run (qs.take k)).answer := by
  induction qs generalizing mem k with
  | nil => rfl
  | cons q qs ih =>
    cases k with
    | zero => rfl
    | succ k => exact ih (mem.after q) k

/-! ## Making models -/

/-- A model that is made from a source views a new copy of it. -/
theorem makeFrom_eq {place : Nat} (h : mem.maps[place]? = some pairs) (reason : Option String) :
    mem.makeFrom place reason =
      ⟨mem.maps ++ [pairs], mem.models ++ [⟨place, mem.maps.length, reason⟩]⟩ := by
  rw [makeFrom, h]

/-- A model holds what is at its source's place when it is made. -/
theorem modelAt?_makeFrom {place : Nat} (h : mem.maps[place]? = some pairs)
    (reason : Option String) :
    (mem.makeFrom place reason).modelAt? mem.models.length = some ⟨pairs, reason⟩ := by
  rw [makeFrom_eq h]
  exact modelAt?_eq_some.2 ⟨_, List.getElem?_concat_length, List.getElem?_concat_length, rfl⟩

/-- A new model has the pairs of its source, and its reason. -/
theorem modelAt?_make (mem : Memory) (source : Assignments) (reason : Option String) :
    (mem.after (.make source reason)).modelAt? mem.models.length = some ⟨source, reason⟩ :=
  modelAt?_makeFrom List.getElem?_concat_length reason

/-- Another model of a source has the pairs that the source has then. -/
theorem modelAt?_makeAlso (h : mem.sourceAt? i = some source) (reason : Option String) :
    (mem.after (.makeAlso i reason)).modelAt? mem.models.length = some ⟨source, reason⟩ := by
  obtain ⟨g, hg, hsource⟩ := Option.bind_eq_some_iff.1 h
  simp only [after, hg]
  exact modelAt?_makeFrom hsource reason

/-! ## Sources and views -/

/-- No place is both the source of a model and viewed by one, and all of them are in use. -/
structure Apart (mem : Memory) : Prop where
  ne : ∀ g ∈ mem.models, ∀ h ∈ mem.models, g.source ≠ h.view
  source_lt : ∀ h ∈ mem.models, h.source < mem.maps.length
  view_lt : ∀ h ∈ mem.models, h.view < mem.maps.length

/-- Sources and views are still apart, and no model has changed. -/
structure Keeps (mem mem' : Memory) : Prop where
  apart : mem'.Apart
  model : ∀ {i m}, mem.modelAt? i = some m → mem'.modelAt? i = some m

/-- Where there is no model, sources and views are apart. -/
theorem apart_empty : empty.Apart := ⟨nofun, nofun, nofun⟩

/-- Where nothing is done, sources and views stay apart. -/
theorem Apart.keeps (h : mem.Apart) : mem.Keeps mem := ⟨h, id⟩

/-- What is kept in one stretch and in the next is kept in both together. -/
theorem Keeps.trans (h : mem.Keeps mem') (h' : mem'.Keeps mem'') : mem.Keeps mem'' :=
  ⟨h'.apart, h'.model ∘ h.model⟩

/-- A model is the same in a memory with more maps and models. -/
theorem modelAt?_append (maps : List Assignments) (models : List Handle)
    (h : mem.modelAt? i = some m) :
    Memory.modelAt? ⟨mem.maps ++ maps, mem.models ++ models⟩ i = some m := by
  obtain ⟨g, hg, ha, hr⟩ := modelAt?_eq_some.1 h
  have hglt := (List.getElem?_eq_some_iff.1 hg).1
  have halt := (List.getElem?_eq_some_iff.1 ha).1
  refine modelAt?_eq_some.2 ⟨g, ?_, ?_, hr⟩
  · exact (List.getElem?_append_left hglt).trans hg
  · exact (List.getElem?_append_left halt).trans ha

/-- A new map keeps all models as they are. -/
theorem Apart.addMap (h : mem.Apart) (a : Assignments) :
    mem.Keeps { mem with maps := mem.maps ++ [a] } where
  apart := by
    refine ⟨h.ne, fun g hg => ?_, fun g hg => ?_⟩
    all_goals rw [List.length_append]
    · exact Nat.lt_add_right _ (h.source_lt g hg)
    · exact Nat.lt_add_right _ (h.view_lt g hg)
  model hm := by
    have happend := modelAt?_append [a] [] hm
    rwa [List.append_nil] at happend

/-- A model can be made from any place that no model views. -/
theorem Apart.makeFrom (h : mem.Apart) {place : Nat} (hplace : ∀ g ∈ mem.models, place ≠ g.view)
    (reason : Option String) : mem.Keeps (mem.makeFrom place reason) := by
  cases hp : mem.maps[place]? with
  | none =>
    rw [Memory.makeFrom, hp]
    exact h.keeps
  | some pairs =>
    rw [makeFrom_eq hp]
    have hlt : place < mem.maps.length := (List.getElem?_eq_some_iff.1 hp).1
    refine ⟨⟨?_, ?_, ?_⟩, modelAt?_append _ _⟩
    · simp only [List.forall_mem_append, List.forall_mem_singleton]
      exact ⟨fun g hg => ⟨h.ne g hg, (h.source_lt g hg).ne⟩, hplace, hlt.ne⟩
    all_goals
      simp only [List.forall_mem_append, List.forall_mem_singleton, List.length_append,
        List.length_singleton]
    · exact ⟨fun g hg => Nat.lt_add_right _ (h.source_lt g hg), Nat.lt_add_right _ hlt⟩
    · exact ⟨fun g hg => Nat.lt_add_right _ (h.view_lt g hg), Nat.lt_add_one _⟩

/-- What is written to a source is not seen by any model. -/
theorem Apart.changeSource (h : mem.Apart) (i : Nat) (f : Assignments → Assignments) :
    mem.Keeps (mem.changeSource i f) := by
  cases hi : mem.models[i]? with
  | none =>
    rw [Memory.changeSource, hi]
    exact h.keeps
  | some g =>
    rw [Memory.changeSource, hi]
    refine ⟨⟨h.ne, ?_, ?_⟩, fun hm => ?_⟩
    · rw [List.length_modify]
      exact h.source_lt
    · rw [List.length_modify]
      exact h.view_lt
    · obtain ⟨k, hk, ha, hr⟩ := modelAt?_eq_some.1 hm
      have hne : g.source ≠ k.view := h.ne g (List.mem_of_getElem? hi) k (List.mem_of_getElem? hk)
      refine modelAt?_eq_some.2 ⟨k, hk, ?_, hr⟩
      rw [List.getElem?_modify, ha]
      simp [hne]

/-- One query keeps all models. -/
theorem Apart.after (h : mem.Apart) (q : Query) : mem.Keeps (mem.after q) := by
  cases q with
  | make source reason =>
    have hadd := h.addMap source
    exact hadd.trans (hadd.apart.makeFrom (fun g hg => (h.view_lt g hg).ne') reason)
  | makeAlso i reason =>
    cases hi : mem.models[i]? with
    | none =>
      simp only [Memory.after, hi]
      exact h.keeps
    | some g =>
      simp only [Memory.after, hi]
      exact h.makeFrom (h.ne g (List.mem_of_getElem? hi)) reason
  | putSource i key value => exact h.changeSource i _
  | eraseSource i key => exact h.changeSource i _
  | _ => exact h.keeps

/-- Every run of queries keeps all models. -/
theorem Apart.run (h : mem.Apart) (qs : List Query) : mem.Keeps (mem.run qs) := by
  induction qs generalizing mem with
  | nil => exact h.keeps
  | cons q qs ih =>
    have hq := h.after q
    exact hq.trans (ih hq.apart)

/-- What is written to a source is there. -/
theorem sourceAt?_changeSource (h : mem.sourceAt? i = some source) (f : Assignments → Assignments) :
    (mem.changeSource i f).sourceAt? i = some (f source) := by
  obtain ⟨g, hg, hsource⟩ := Option.bind_eq_some_iff.1 h
  simp [changeSource, sourceAt?, hg, List.getElem?_modify, hsource]

/-! ## What a model answers -/

/-- What the model of a number answers if it is `m`: the number of its names, each of which has its
value and no other name has one, its pairs in order, and its reason; and it refuses whatever is written. -/
structure Holds (mem : Memory) (i : Nat) (m : CounterModel) : Prop where
  size : mem.answer (.size i) = .count m.assignments.keys.length
  keys : mem.answer (.keys i) = .names m.assignments.keys
  items : mem.answer (.items i) = .pairs m.assignments.entries
  reason : mem.answer (.reason i) = .text m.reason
  item : ∀ p ∈ m.assignments.entries, mem.answer (.item i p.1) = .text (some p.2)
  missing : ∀ key ∉ m.assignments.keys, mem.answer (.item i key) = .refused .missingKey
  write : ∀ q : Query, q.Writes i → (∃ e, mem.answer q = .refused e) ∧ mem.after q = mem

/-- What there is of a model is what it answers. -/
theorem holds_of_modelAt? (h : mem.modelAt? i = some m) : mem.Holds i m where
  size := by
    rw [answer, withModel_eq h, Assignments.size, Assignments.keys, List.length_map]
  keys := by rw [answer, withModel_eq h]
  items := by rw [answer, withModel_eq h]
  reason := by rw [answer, withModel_eq h]
  item p hp := by
    rw [answer, withModel_eq h, (m.assignments.mem_iff_get? p.1 p.2).1 hp]
  missing key hkey := by
    have hnone : m.assignments.get? key = none := by
      by_contra hsome
      obtain ⟨value, hvalue⟩ := Option.ne_none_iff_exists'.1 hsome
      exact hkey (List.mem_map.2 ⟨(key, value), (m.assignments.mem_iff_get? _ _).2 hvalue, rfl⟩)
    rw [answer, withModel_eq h, hnone]
  write q hq := by
    cases hq with
    | put | erase | merge | setReason | setAssignments | deleteField =>
      exact ⟨⟨_, by rw [answer, withModel_eq h]⟩, rfl⟩

/-- Two models are equal if they have the same reason and the same pairs, and have then one hash. -/
theorem answer_equal {j : Nat} {n : CounterModel} (hm : mem.modelAt? i = some m)
    (hn : mem.modelAt? j = some n) : ∃ b, mem.answer (.equal i j) = .flag b ∧
      (b = true ↔ m.reason = n.reason ∧ ∀ p, p ∈ m.assignments.entries ↔ p ∈ n.assignments.entries) ∧
      (b = true → mem.answer (.sameHash i j) = .flag true) := by
  refine ⟨m == n, by rw [answer, withModel_eq hm, withModel_eq hn], beq_iff, fun h => ?_⟩
  rw [answer, withModel_eq hm, withModel_eq hn, hash_eq_of_beq h, beq_self_eq_true]

/-- A set of models has as many members as there are different combinations of pairs and reason. -/
theorem answer_distinct {is : List Nat} {ms : List CounterModel} (h : is.mapM mem.modelAt? = some ms) :
    mem.answer (.distinct is) = .count (ms.map combination).toFinset.card := by
  rw [answer, h, ← countDistinct_eq_card]

end Memory

namespace Collection

open Memory

/-- Models that have been made one after the other have sources and views apart. -/
theorem apart_made (es : Collection) : es.made.Apart := (apart_empty.run _).apart

/-- Of models made one after the other each has the pairs of its source then, and its reason. -/
theorem modelAt?_run_make (h : mem.Apart) {es : Collection} {k : Nat} {e : Entry}
    (he : es[k]? = some e) :
    (mem.run (es.map fun e => .make e.source e.reason)).modelAt? (mem.models.length + k) =
      some ⟨e.source, e.reason⟩ := by
  induction es generalizing mem k with
  | nil => cases he
  | cons d es ih =>
    have hd := h.after (.make d.source d.reason)
    cases k with
    | zero =>
      cases he
      exact (hd.apart.run _).model (modelAt?_make mem _ _)
    | succ k =>
      have hlength : (mem.after (.make d.source d.reason)).models.length = mem.models.length + 1 := by
        rw [after, makeFrom_eq List.getElem?_concat_length, List.length_append]
        rfl
      have hrest := ih hd.apart he
      rwa [hlength, Nat.add_assoc, Nat.add_comm 1] at hrest

/-- The models of a collection are what they are made from. -/
theorem modelAt?_made {es : Collection} {e : Entry} (he : es[i]? = some e) :
    es.made.modelAt? i = some ⟨e.source, e.reason⟩ := by
  have hmake := modelAt?_run_make apart_empty he
  rwa [show empty.models.length = 0 from rfl, Nat.zero_add] at hmake

/-- Models are sealed. After any history of a collection, in which further models are made, sources are
changed, and models are read and written to, each model holds the pairs of its source in their order and
its reason as they were when it was made, refuses every write, and looks up its own names alone, although
what is written to sources is there. Of such models, two are equal exactly if they have the same pairs and
reason, and have then one hash; and a set of models has one member for each combination of pairs and
reason. -/
theorem sealed (es : Collection) (history : List Query) :
    let mem := es.made.run history
    (∀ i e, es[i]? = some e → mem.Holds i ⟨e.source, e.reason⟩) ∧
    (∀ source reason later,
      ((mem.after (.make source reason)).run later).Holds mem.models.length ⟨source, reason⟩) ∧
    (∀ i source reason later, mem.sourceAt? i = some source →
      ((mem.after (.makeAlso i reason)).run later).Holds mem.models.length ⟨source, reason⟩) ∧
    (∀ i source key value, mem.sourceAt? i = some source →
      (mem.after (.putSource i key value)).sourceAt? i = some (source.put key value) ∧
      (mem.after (.eraseSource i key)).sourceAt? i = some (source.erase key)) ∧
    (∀ i j m n, mem.modelAt? i = some m → mem.modelAt? j = some n →
      ∃ b, mem.answer (.equal i j) = .flag b ∧
        (b = true ↔ m.reason = n.reason ∧
          ∀ p, p ∈ m.assignments.entries ↔ p ∈ n.assignments.entries) ∧
        (b = true → mem.answer (.sameHash i j) = .flag true)) ∧
    ∀ is ms, is.mapM mem.modelAt? = some ms →
      mem.answer (.distinct is) = .count (ms.map combination).toFinset.card := by
  intro mem
  have hkeeps : es.made.Keeps mem := (apart_made es).run history
  refine ⟨fun i e he => ?_, fun source reason later => ?_, fun i source reason later hs => ?_,
    fun i source key value hs => ⟨?_, ?_⟩, fun i j m n => answer_equal, fun is ms => answer_distinct⟩
  · exact holds_of_modelAt? (hkeeps.model (modelAt?_made he))
  · have hmade := hkeeps.apart.after (.make source reason)
    exact holds_of_modelAt? ((hmade.apart.run later).model (modelAt?_make mem source reason))
  · have hmade := hkeeps.apart.after (.makeAlso i reason)
    exact holds_of_modelAt? ((hmade.apart.run later).model (modelAt?_makeAlso hs reason))
  · exact sourceAt?_changeSource hs fun s => s.put key value
  · exact sourceAt?_changeSource hs fun s => s.erase key

/-- A model and a further one of the same source are as they were when they were made, although the
source is not, and so is what is made of it then. -/
theorem sealed_shared_source :
    let a : Assignments := ⟨[("x", "0")], by decide⟩
    let b : Assignments := ⟨[("x", "1")], by decide⟩
    let mem := (made [.ofSource a none]).run [.makeAlso 0 (some "timeout"), .putSource 0 "x" "1"]
    mem.sourceAt? 0 = some b ∧ mem.Holds 0 ⟨a, none⟩ ∧
      (mem.after (.makeAlso 0 none)).Holds 2 ⟨b, none⟩ ∧
      (∃ e, mem.answer (.put 0 "x" "2") = .refused e) ∧
      mem.answer (.distinct [0, 1, 0]) = .count 2 := by
  intro a b mem
  obtain ⟨hfirst, -, halso, -, -, hdistinct⟩ := sealed [.ofSource a none]
    [.makeAlso 0 (some "timeout"), .putSource 0 "x" "1"]
  have hbefore : ((made [.ofSource a none]).run [.makeAlso 0 (some "timeout")]).sourceAt? 0 =
    some a := rfl
  have hsource : mem.sourceAt? 0 = some b := sourceAt?_changeSource hbefore fun s => s.put "x" "1"
  have hholds := hfirst 0 _ rfl
  refine ⟨hsource, hholds, halso 0 b none [] hsource, (hholds.write _ (.put "x" "2")).1, ?_⟩
  exact (hdistinct [0, 1, 0] _ rfl).trans (by rfl)

end Collection

end CounterModel

end Discharge
