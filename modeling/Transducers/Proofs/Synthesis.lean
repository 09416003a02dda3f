import Transducers.Proofs.FirstOccurrences
import Transducers.Proofs.FreshId

/-!
# Interning keeps the maps of a synthesis in step

A synthesis holds three maps and a log.  All of them can be read off the entries
of `pairs`, oldest first.

* `Coherent`: the outputs, the splits, the ids and the log agree with the pairs;
* `coherent_intern`: interning keeps them so;
* `Grows`: what was interned between two states of the work;
* `grows_intern`, `Grows.trans`: one request, and one piece of work after another.
-/

namespace Transducers

/-! ## The invariant -/

/-- The pair and the id that a report of a new Moore state names. -/
def ConversionEvent.synthesis? : ConversionEvent → Option ((String × String) × String)
  | synthesized id state output => some ((state, output), id)
  | neverEntered _ _ => none

namespace Synthesis

/-- The outputs, the splits, the ids and the log agree with the pairs. -/
structure Coherent (k : Synthesis) : Prop where
  /-- Each id has the output of its pair. -/
  outputs_entries : k.outputs.entries = k.pairs.entries.map fun e => (e.2, e.1.2)
  /-- A state is split into the ids of its pairs. -/
  splits_eq : ∀ state,
    k.splits state = (k.pairs.entries.filter fun e => e.1.1 = state).map Prod.snd
  /-- Only the states of pairs are split. -/
  mem_derived : ∀ state, state ∈ k.derived.keys ↔ state ∈ k.pairs.keys.map Prod.fst
  /-- Each id is the name of its pair, with no more apostrophes than needed. -/
  named : ∀ i (h : i < k.pairs.entries.length),
    LeastPrimed ((k.pairs.entries.take i).map Prod.snd)
      (k.pairs.entries[i].1.1 ++ "_" ++ k.pairs.entries[i].1.2) k.pairs.entries[i].2
  /-- Each new Moore state was reported once. -/
  reported : k.events.filterMap ConversionEvent.synthesis? = k.pairs.entries

/-! ## Reading the maps -/

namespace Coherent

variable {k : Synthesis}

theorem keys_outputs (h : k.Coherent) : k.outputs.keys = k.pairs.entries.map Prod.snd := by
  simp [OrderedMap.keys, h.outputs_entries]

/-- Different pairs have different ids. -/
theorem nodup_ids (h : k.Coherent) : (k.pairs.entries.map Prod.snd).Nodup := by
  rw [← h.keys_outputs]
  exact k.outputs.keys_nodup

theorem pair_unique (h : k.Coherent) {p q : String × String} {id : String}
    (hp : k.pairs.get? p = some id) (hq : k.pairs.get? q = some id) : p = q := by
  have hpe := OrderedMap.mem_entries_iff.mpr hp
  have hqe := OrderedMap.mem_entries_iff.mpr hq
  have heq := List.inj_on_of_nodup_map h.nodup_ids hpe hqe rfl
  exact congrArg Prod.fst heq

theorem get?_outputs (h : k.Coherent) {p : String × String} {id : String}
    (hp : k.pairs.get? p = some id) : k.outputs.get? id = some p.2 := by
  rw [← OrderedMap.mem_entries_iff, h.outputs_entries]
  exact List.mem_map.mpr ⟨(p, id), OrderedMap.mem_entries_iff.mpr hp, rfl⟩

theorem mem_keys_outputs (h : k.Coherent) {id : String} :
    id ∈ k.outputs.keys ↔ ∃ p, k.pairs.get? p = some id := by
  rw [h.keys_outputs, List.mem_map]
  constructor
  · rintro ⟨⟨p, _⟩, he, rfl⟩
    exact ⟨p, OrderedMap.mem_entries_iff.mp he⟩
  · rintro ⟨p, hp⟩
    exact ⟨(p, id), OrderedMap.mem_entries_iff.mpr hp, rfl⟩

theorem mem_splits (h : k.Coherent) {state id : String} :
    id ∈ k.splits state ↔ ∃ output, k.pairs.get? (state, output) = some id := by
  rw [h.splits_eq, List.mem_map]
  constructor
  · rintro ⟨⟨⟨s, o⟩, _⟩, he, rfl⟩
    obtain ⟨he, hs⟩ := List.mem_filter.mp he
    have hs : s = state := by simpa using hs
    exact ⟨o, hs ▸ OrderedMap.mem_entries_iff.mp he⟩
  · rintro ⟨o, ho⟩
    exact ⟨((state, o), id),
      List.mem_filter.mpr ⟨OrderedMap.mem_entries_iff.mpr ho, by simp⟩, rfl⟩

theorem contains_derived (h : k.Coherent) {state : String} :
    k.derived.contains state = true ↔ state ∈ k.pairs.keys.map Prod.fst := by
  rw [OrderedMap.contains_iff, h.mem_derived]

theorem mem_events (h : k.Coherent) {state output id : String} :
    .synthesized id state output ∈ k.events ↔ k.pairs.get? (state, output) = some id := by
  rw [← OrderedMap.mem_entries_iff, ← h.reported, List.mem_filterMap]
  constructor
  · intro he
    exact ⟨_, he, rfl⟩
  · rintro ⟨event, he, hs⟩
    cases event with
    | synthesized i s o => simp only [ConversionEvent.synthesis?] at hs; cases hs; exact he
    | neverEntered s o => cases hs

end Coherent

/-! ## One request -/

theorem coherent_empty : Coherent empty where
  outputs_entries := rfl
  splits_eq _ := rfl
  mem_derived _ := by simp [empty, OrderedMap.keys, OrderedMap.empty]
  named i h := absurd h (Nat.not_lt_zero i)
  reported := rfl

theorem intern_of_mem {k : Synthesis} {state output : String}
    (h : (state, output) ∈ k.pairs.keys) : k.intern state output = k := by
  obtain ⟨id, hid⟩ := OrderedMap.mem_keys_iff_exists.mp h
  exact intern_of_known hid

theorem intern_of_new {k : Synthesis} {state output : String}
    (h : (state, output) ∉ k.pairs.keys) :
    k.intern state output =
      { pairs := k.pairs.insert (state, output) (k.idOf state output)
        outputs := k.outputs.insert (k.idOf state output) output
        derived := k.derived.insert state (k.splits state ++ [k.idOf state output])
        events := k.events ++ [.synthesized (k.idOf state output) state output] } := by
  rw [← OrderedMap.get?_eq_none_iff] at h
  simp [intern, idOf, h]

theorem leastPrimed_idOf {k : Synthesis} {state output : String}
    (h : (state, output) ∉ k.pairs.keys) :
    LeastPrimed k.outputs.keys (state ++ "_" ++ output) (k.idOf state output) := by
  rw [← OrderedMap.get?_eq_none_iff] at h
  simp only [idOf, h, Option.getD_none]
  exact leastPrimed_freshId _ _

theorem entries_pairs_intern {k : Synthesis} {state output : String}
    (h : (state, output) ∉ k.pairs.keys) :
    (k.intern state output).pairs.entries =
      k.pairs.entries ++ [((state, output), k.idOf state output)] := by
  rw [intern_of_new h]
  exact OrderedMap.entries_insert _ h

theorem keys_pairs_intern {k : Synthesis} {state output : String}
    (h : (state, output) ∉ k.pairs.keys) :
    (k.intern state output).pairs.keys = k.pairs.keys ++ [(state, output)] := by
  simp only [OrderedMap.keys, entries_pairs_intern h, List.map_append, List.map_cons, List.map_nil]

/-- **Interning keeps the maps in step.** -/
theorem coherent_intern {k : Synthesis} (hk : k.Coherent) (state output : String) :
    (k.intern state output).Coherent := by
  by_cases hp : (state, output) ∈ k.pairs.keys
  · rw [intern_of_mem hp]
    exact hk
  have hpairs := entries_pairs_intern hp
  have hid := leastPrimed_idOf hp
  constructor
  case outputs_entries =>
    rw [hpairs, List.map_append, ← hk.outputs_entries, intern_of_new hp]
    exact OrderedMap.entries_insert _ hid.notMem
  case splits_eq =>
    intro s
    rw [hpairs, List.filter_append, List.map_append, ← hk.splits_eq, intern_of_new hp]
    simp only [splits, OrderedMap.get?_insert]
    by_cases hs : state = s
    · simp [hs]
    · simp [hs]
  case mem_derived =>
    intro s
    rw [keys_pairs_intern hp, List.map_append, List.mem_append, ← hk.mem_derived, intern_of_new hp]
    simp only [OrderedMap.keys_insert]
    split
    · rename_i hmem
      constructor
      · exact Or.inl
      · rintro (hs | hs)
        · exact hs
        · have hs : s = state := by simpa using hs
          exact hs ▸ hmem
    · simp
  case named =>
    intro i hi
    simp only [hpairs] at hi ⊢
    rw [List.length_append, List.length_singleton] at hi
    by_cases hlt : i < k.pairs.entries.length
    · rw [List.take_append_of_le_length (Nat.le_of_lt hlt), List.getElem_append_left hlt]
      exact hk.named i hlt
    · have hi : i = k.pairs.entries.length := by omega
      subst hi
      rw [List.take_left', List.getElem_append_right (Nat.le_refl _)]
      · simpa [← hk.keys_outputs] using hid
      · rfl
  case reported =>
    rw [hpairs, intern_of_new hp]
    simp [List.filterMap_append, hk.reported, ConversionEvent.synthesis?]

theorem coherent_report {k : Synthesis} (hk : k.Coherent) (state output : String) :
    (k.report (.neverEntered state output)).Coherent where
  outputs_entries := hk.outputs_entries
  splits_eq := hk.splits_eq
  mem_derived := hk.mem_derived
  named := hk.named
  reported := by
    simp [report, List.filterMap_append, hk.reported, ConversionEvent.synthesis?]

/-! ## Many requests -/

/-- Between `k` and `k'` these pairs were interned, in this order. -/
structure Grows (k : Synthesis) (pairs : List (String × String)) (k' : Synthesis) : Prop where
  coherent : k'.Coherent
  keys : k'.pairs.keys = (k.pairs.keys ++ pairs).eraseDups
  /-- Ids given before stay. -/
  entries : k.pairs.entries <+: k'.pairs.entries

theorem grows_refl {k : Synthesis} (hk : k.Coherent) : Grows k [] k where
  coherent := hk
  keys := by rw [List.append_nil, eraseDups_of_nodup k.pairs.keys_nodup]
  entries := List.prefix_refl _

theorem Grows.trans {k k' k'' : Synthesis} {ps qs : List (String × String)}
    (h : Grows k ps k') (h' : Grows k' qs k'') : Grows k (ps ++ qs) k'' where
  coherent := h'.coherent
  keys := by rw [h'.keys, h.keys, eraseDups_append_left, List.append_assoc]
  entries := h.entries.trans h'.entries

theorem Grows.get? {k k' : Synthesis} {ps : List (String × String)} (h : Grows k ps k')
    {p : String × String} {id : String} (hp : k.pairs.get? p = some id) :
    k'.pairs.get? p = some id := by
  rw [← OrderedMap.mem_entries_iff] at hp ⊢
  exact h.entries.subset hp

theorem grows_report {k : Synthesis} (hk : k.Coherent) (state output : String) :
    Grows k [] (k.report (.neverEntered state output)) where
  coherent := coherent_report hk state output
  keys := (grows_refl hk).keys
  entries := List.prefix_refl _

/-- The states that have a pair are those that had one and those of the new pairs. -/
theorem Grows.mem_states {k k' : Synthesis} {ps : List (String × String)} (h : Grows k ps k')
    {state : String} : state ∈ k'.pairs.keys.map Prod.fst ↔
      state ∈ k.pairs.keys.map Prod.fst ∨ state ∈ ps.map Prod.fst := by
  rw [h.keys, ← List.mem_append, ← List.map_append]
  simp only [List.mem_map, List.mem_eraseDups]

theorem grows_intern {k : Synthesis} (hk : k.Coherent) (state output : String) :
    Grows k [(state, output)] (k.intern state output) where
  coherent := coherent_intern hk state output
  keys := by
    by_cases hp : (state, output) ∈ k.pairs.keys
    · rw [intern_of_mem hp, eraseDups_concat_of_mem k.pairs.keys_nodup hp]
    · rw [eraseDups_concat_of_notMem k.pairs.keys_nodup hp, keys_pairs_intern hp]
  entries := by
    by_cases hp : (state, output) ∈ k.pairs.keys
    · rw [intern_of_mem hp]
    · rw [entries_pairs_intern hp]
      exact List.prefix_append _ _

end Synthesis

end Transducers
