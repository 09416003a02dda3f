import Transducers.Proofs.Synthesis

/-!
# The pairs that need a Moore state

Which Moore states a Mealy machine needs can be said without doing the work:
one for each pair of a state and an output in `Mealy.splitPairs`.

* `Mealy.splitPairs`: the pairs of the declared transitions, then that of the
  initial state, then those of the states that nothing enters;
* `finished_of_ofMealy`: work that succeeds has interned exactly these pairs, in
  this order;
* `exists_finished`, `ofMealy_of_missing`, `ofMealy_of_initial_unmapped`,
  `ofMealy_of_unmapped`: when the work succeeds, and the three ways in which it fails.
-/

namespace Transducers

namespace Mealy

/-- The destination and the output of each of these transitions. -/
def targets (m : Mealy) (ps : List (String × String)) : List (String × String) :=
  ps.filterMap fun p => (m.transitions.cell? p.1 p.2).map fun t => (t.next, t.output)

/-- The pairs of the declared transitions. -/
def enteredPairs (m : Mealy) : List (String × String) := m.targets m.declaredPairs

/-- The pair of the initial state: with the initial output if that is set, else
with the output of its hint if no declared transition enters it. -/
def initialPairs (m : Mealy) : List (String × String) :=
  match m.initialOutput with
  | some output => [(m.initialState, output)]
  | none =>
    if m.initialState ∈ m.enteredPairs.map Prod.fst then []
    else ((m.stateOutputs.get? m.initialState).map fun output => (m.initialState, output)).toList

def begunPairs (m : Mealy) : List (String × String) := m.enteredPairs ++ m.initialPairs

/-- The pairs, by their hints, of those of the states that are not mapped yet. -/
def hintedPairs (m : Mealy) (mapped states : List String) : List (String × String) :=
  (states.filter (· ∉ mapped)).filterMap fun state =>
    (m.stateOutputs.get? state).map fun output => (state, output)

/-- The pairs that need a Moore state, each at its first occurrence. -/
def splitPairs (m : Mealy) : List (String × String) :=
  (m.begunPairs ++ m.hintedPairs (m.begunPairs.map Prod.fst) m.states).eraseDups

/-! ## What can be missing -/

/-- The first declared state and symbol without a transition. -/
def firstMissing? (m : Mealy) : Option (String × String) :=
  m.declaredPairs.find? fun p => m.transitions.cell? p.1 p.2 = none

/-- The first declared state that has neither a pair nor a hint. -/
def firstUnmapped? (m : Mealy) : Option String :=
  m.states.find? fun state =>
    state ∉ m.begunPairs.map Prod.fst ∧ m.stateOutputs.get? state = none

theorem mem_targets {m : Mealy} {ps : List (String × String)} {q : String × String} :
    q ∈ m.targets ps ↔ ∃ p ∈ ps, ∃ t, m.transitions.cell? p.1 p.2 = some t ∧
      (t.next, t.output) = q := by
  simp [targets, Option.map_eq_some_iff]

theorem mem_enteredPairs {m : Mealy} {p : String × String} :
    p ∈ m.enteredPairs ↔ ∃ state ∈ m.states, ∃ symbol ∈ m.inputSymbols,
      m.transitions.cell? state symbol = some ⟨p.1, p.2⟩ := by
  rw [enteredPairs, mem_targets]
  constructor
  · rintro ⟨⟨s, x⟩, hsx, t, ht, rfl⟩
    obtain ⟨hs, hx⟩ := mem_declaredPairs.mp hsx
    exact ⟨s, hs, x, hx, ht⟩
  · rintro ⟨s, hs, x, hx, ht⟩
    exact ⟨(s, x), mem_declaredPairs.mpr ⟨hs, hx⟩, _, ht, rfl⟩

/-- The destination of a declared transition and its output are among the pairs. -/
theorem target_mem_splitPairs {m : Mealy} {state symbol : String} {t : Transition}
    (hs : state ∈ m.states) (hx : symbol ∈ m.inputSymbols)
    (ht : m.transitions.cell? state symbol = some t) : (t.next, t.output) ∈ m.splitPairs := by
  rw [splitPairs, List.mem_eraseDups, begunPairs]
  have hmem : (t.next, t.output) ∈ m.enteredPairs := mem_enteredPairs.mpr ⟨_, hs, _, hx, ht⟩
  exact List.mem_append_left _ (List.mem_append_left _ hmem)

theorem fst_of_mem_initialPairs {m : Mealy} {p : String × String} (h : p ∈ m.initialPairs) :
    p.1 = m.initialState := by
  unfold initialPairs at h
  cases ho : m.initialOutput with
  | some output =>
    rw [ho, List.mem_singleton] at h
    rw [h]
  | none =>
    rw [ho] at h
    simp only at h
    split at h
    · cases h
    · rw [Option.mem_toList, Option.map_eq_some_iff] at h
      obtain ⟨output, -, rfl⟩ := h
      rfl

theorem outputHint_of_ne {m : Mealy} {state : String} (h : state ≠ m.initialState) :
    m.outputHint state = m.stateOutputs.get? state := by
  simp [outputHint, h]

theorem mem_hintedPairs {m : Mealy} {mapped states : List String} {p : String × String} :
    p ∈ m.hintedPairs mapped states ↔
      p.1 ∈ states ∧ p.1 ∉ mapped ∧ m.stateOutputs.get? p.1 = some p.2 := by
  obtain ⟨s, o⟩ := p
  simp only [hintedPairs, List.mem_filterMap, List.mem_filter, decide_eq_true_eq,
    Option.map_eq_some_iff, Prod.mk.injEq]
  constructor
  · rintro ⟨s', ⟨hs, hm⟩, o', ho, rfl, rfl⟩
    exact ⟨hs, hm, ho⟩
  · rintro ⟨hs, hm, ho⟩
    exact ⟨s, ⟨hs, hm⟩, o, ho, rfl, rfl⟩

/-- Once a state is mapped, its own pair is all that its later occurrences add. -/
theorem hintedPairs_concat {m : Mealy} {state output : String}
    (h : m.stateOutputs.get? state = some output) (mapped states : List String) :
    m.hintedPairs (mapped ++ [state]) states =
      (m.hintedPairs mapped states).filter fun p => !p == (state, output) := by
  induction states with
  | nil => rfl
  | cons s states ih =>
    simp only [hintedPairs] at ih ⊢
    by_cases hm : s ∈ mapped
    · simpa [List.filter_cons, hm] using ih
    · by_cases hs : s = state
      · subst hs
        simpa [List.filter_cons, hm, h] using ih
      · cases ho : m.stateOutputs.get? s with
        | none => simpa [List.filter_cons, hm, hs, ho] using ih
        | some o => simpa [List.filter_cons, hm, hs, ho] using ih

/-- The Moore state to start in. -/
def startIn? (m : Mealy) (k : Synthesis) : Option String :=
  match m.initialOutput with
  | some output => k.pairs.get? (m.initialState, output)
  | none => (k.splits m.initialState).head?

end Mealy

namespace Synthesis

theorem Grows.splits {k k' : Synthesis} {ps : List (String × String)} (hk : k.Coherent)
    (h : Grows k ps k') (state : String) : k.splits state <+: k'.splits state := by
  rw [hk.splits_eq, h.coherent.splits_eq]
  exact (h.entries.filter _).map _

theorem Grows.startIn? {m : Mealy} {k k' : Synthesis} {ps : List (String × String)}
    (hk : k.Coherent) (h : Grows k ps k') {start : String} (hs : m.startIn? k = some start) :
    m.startIn? k' = some start := by
  unfold Mealy.startIn? at hs ⊢
  cases ho : m.initialOutput with
  | some output =>
    rw [ho] at hs
    exact h.get? hs
  | none =>
    rw [ho] at hs
    obtain ⟨rest, hrest⟩ := h.splits hk m.initialState
    simp only at hs ⊢
    rw [← hrest, List.head?_append, hs, Option.some_or]

/-! ## The phases -/

theorem enter_eq_ok {m : Mealy} {k : Synthesis} {ps : List (String × String)} (hk : k.Coherent)
    (h : ∀ p ∈ ps, m.transitions.cell? p.1 p.2 ≠ none) :
    ∃ k', enter m k ps = .ok k' ∧ Grows k (m.targets ps) k' := by
  induction ps generalizing k with
  | nil => exact ⟨k, rfl, grows_refl hk⟩
  | cons p ps ih =>
    obtain ⟨s, x⟩ := p
    obtain ⟨t, ht⟩ := Option.ne_none_iff_exists'.mp (h _ List.mem_cons_self)
    obtain ⟨k', hk', hg⟩ := ih (coherent_intern hk t.next t.output)
      fun p hp => h p (List.mem_cons_of_mem _ hp)
    refine ⟨k', by rw [enter, Mealy.transition_eq_ok_iff.mpr ht]; exact hk', ?_⟩
    have htargets : m.targets ((s, x) :: ps) = [(t.next, t.output)] ++ m.targets ps := by
      simp [Mealy.targets, show m.transitions.cell? s x = some t from ht]
    rw [htargets]
    exact (grows_intern hk t.next t.output).trans hg

theorem enter_eq_error {m : Mealy} {k : Synthesis} {ps : List (String × String)}
    {p : String × String} (h : ps.find? (fun p => m.transitions.cell? p.1 p.2 = none) = some p) :
    ∃ events, enter m k ps = .error ⟨.missingTransition p.1 p.2, events⟩ := by
  induction ps generalizing k with
  | nil => cases h
  | cons q ps ih =>
    obtain ⟨s, x⟩ := q
    cases hc : m.transitions.cell? s x with
    | none =>
      have hp : (s, x) = p := by simpa [List.find?_cons, hc] using h
      subst hp
      exact ⟨k.events, by rw [enter, Mealy.transition_of_none hc]; rfl⟩
    | some t =>
      have h' : ps.find? (fun p => m.transitions.cell? p.1 p.2 = none) = some p := by
        simpa [List.find?_cons, hc] using h
      obtain ⟨events, he⟩ := ih (k := k.intern t.next t.output) h'
      exact ⟨events, by rw [enter, Mealy.transition_eq_ok_iff.mpr hc]; exact he⟩

theorem startIn?_intern {m : Mealy} {k : Synthesis} (hk : k.Coherent) {output : String}
    (h : m.initialOutput = some output ∨ m.initialOutput = none ∧ k.splits m.initialState = []) :
    m.startIn? (k.intern m.initialState output) = some (k.idOf m.initialState output) := by
  have hid := get?_pairs_intern k m.initialState output
  unfold Mealy.startIn?
  rcases h with ho | ⟨ho, hs⟩
  · rw [ho]
    exact hid
  · rw [ho]
    have hnew : (m.initialState, output) ∉ k.pairs.keys := by
      rw [OrderedMap.mem_keys_iff_exists]
      rintro ⟨id, hid⟩
      have := hk.mem_splits.mpr ⟨output, hid⟩
      rw [hs] at this
      cases this
    rw [intern_of_new hnew]
    simp [splits, OrderedMap.get?_insert, show (k.derived.get? m.initialState).getD [] = [] from hs]

/-- The initial state is entered exactly if it was split in the first phase. -/
theorem splits_eq_nil_iff {m : Mealy} {k : Synthesis} (h : Grows empty m.enteredPairs k) :
    k.splits m.initialState = [] ↔ m.initialState ∉ m.enteredPairs.map Prod.fst := by
  have hkeys : ∀ p, p ∈ k.pairs.keys ↔ p ∈ m.enteredPairs := by
    intro p
    rw [h.keys]
    simp [empty]
  rw [List.eq_nil_iff_forall_not_mem]
  constructor
  · intro hnil hmem
    obtain ⟨⟨s, o⟩, hp, rfl⟩ := List.mem_map.mp hmem
    obtain ⟨id, hid⟩ := OrderedMap.mem_keys_iff_exists.mp ((hkeys _).mpr hp)
    exact hnil id (h.coherent.mem_splits.mpr ⟨o, hid⟩)
  · intro hmem id hid
    obtain ⟨o, ho⟩ := h.coherent.mem_splits.mp hid
    have hp := OrderedMap.mem_keys_iff_exists.mpr ⟨id, ho⟩
    exact hmem (List.mem_map.mpr ⟨_, (hkeys _).mp hp, rfl⟩)

/-- The second phase makes at most one request, and that is for the initial state. -/
theorem begin_cases {m : Mealy} {k k' : Synthesis} {start : String}
    (h : begin m k = .ok (k', start)) :
    k' = k ∨ ∃ output, k' = k.intern m.initialState output := by
  unfold begin at h
  cases ho : m.initialOutput with
  | some output =>
    simp only [ho, Except.ok.injEq, Prod.mk.injEq] at h
    exact .inr ⟨output, h.1.symm⟩
  | none =>
    cases hs : k.splits m.initialState with
    | cons id ids =>
      simp only [ho, hs, Except.ok.injEq, Prod.mk.injEq] at h
      exact .inl h.1.symm
    | nil =>
      cases hg : m.stateOutputs.get? m.initialState with
      | some output =>
        simp only [ho, hs, hg, Except.ok.injEq, Prod.mk.injEq] at h
        exact .inr ⟨output, h.1.symm⟩
      | none => simp [ho, hs, hg, abandon] at h

theorem begin_eq_ok {m : Mealy} {k : Synthesis} (h : Grows empty m.enteredPairs k)
    (hi : m.initialState ∈ m.begunPairs.map Prod.fst) :
    ∃ k' start, begin m k = .ok (k', start) ∧ Grows k m.initialPairs k' ∧
      m.startIn? k' = some start := by
  have hk := h.coherent
  unfold begin
  cases ho : m.initialOutput with
  | some output =>
    refine ⟨_, _, rfl, ?_, startIn?_intern hk (Or.inl ho)⟩
    simpa only [Mealy.initialPairs, ho] using grows_intern hk m.initialState output
  | none =>
    cases hs : k.splits m.initialState with
    | cons id ids =>
      refine ⟨k, id, by simp [hs], ?_, by simp [Mealy.startIn?, ho, hs]⟩
      have hmem : m.initialState ∈ m.enteredPairs.map Prod.fst := by
        by_contra hmem
        rw [(splits_eq_nil_iff h).mpr hmem] at hs
        cases hs
      simpa only [Mealy.initialPairs, ho, if_pos hmem] using grows_refl hk
    | nil =>
      have hmem := (splits_eq_nil_iff h).mp hs
      cases hg : m.stateOutputs.get? m.initialState with
      | some output =>
        refine ⟨k.intern m.initialState output, k.idOf m.initialState output, by simp [hs, hg], ?_,
          startIn?_intern hk (Or.inr ⟨ho, hs⟩)⟩
        simpa only [Mealy.initialPairs, ho, if_neg hmem, hg, Option.map_some, Option.toList_some]
          using grows_intern hk m.initialState output
      | none =>
        rw [Mealy.begunPairs, List.map_append, List.mem_append] at hi
        rcases hi with hi | hi
        · exact absurd hi hmem
        · simp [Mealy.initialPairs, ho, hg] at hi

theorem begin_eq_error {m : Mealy} {k : Synthesis} (h : Grows empty m.enteredPairs k)
    (hi : m.initialState ∉ m.begunPairs.map Prod.fst) :
    begin m k = .error ⟨.unmappedInitialState m.initialState, k.events⟩ := by
  rw [Mealy.begunPairs, List.map_append, List.mem_append, not_or] at hi
  obtain ⟨hentered, hi⟩ := hi
  have hs := (splits_eq_nil_iff h).mpr hentered
  have ho : m.initialOutput = none := by
    cases ho : m.initialOutput with
    | none => rfl
    | some output => simp [Mealy.initialPairs, ho] at hi
  have hg : m.stateOutputs.get? m.initialState = none := by
    cases hg : m.stateOutputs.get? m.initialState with
    | none => rfl
    | some output => simp [Mealy.initialPairs, ho, if_neg hentered, hg] at hi
  simp [begin, ho, hs, hg, abandon]

/-- Interning the pair of an unmapped state and then the hints of the states after it
is interning the hints of them all. -/
theorem Grows.cons_hinted {m : Mealy} {k k' k'' : Synthesis} {state output : String}
    {states : List String} (hn : state ∉ k.pairs.keys.map Prod.fst)
    (ho : m.stateOutputs.get? state = some output) (h : Grows k [(state, output)] k')
    (h' : Grows k' (m.hintedPairs (k'.pairs.keys.map Prod.fst) states) k'') :
    Grows k (m.hintedPairs (k.pairs.keys.map Prod.fst) (state :: states)) k'' where
  coherent := h'.coherent
  entries := h.entries.trans h'.entries
  keys := by
    have hnew : (state, output) ∉ k.pairs.keys := fun hp => hn (List.mem_map.mpr ⟨_, hp, rfl⟩)
    have hkeys : k'.pairs.keys = k.pairs.keys ++ [(state, output)] := by
      rw [h.keys, eraseDups_concat_of_notMem k.pairs.keys_nodup hnew]
    have hhead : m.hintedPairs (k.pairs.keys.map Prod.fst) (state :: states) =
        (state, output) :: m.hintedPairs (k.pairs.keys.map Prod.fst) states := by
      simp only [Mealy.hintedPairs, List.filter_cons, hn, not_false_eq_true, decide_true,
        ↓reduceIte, List.filterMap_cons, ho, Option.map_some]
    rw [h'.keys, hkeys, List.map_append, List.map_singleton, Mealy.hintedPairs_concat ho,
      List.append_assoc, List.singleton_append, eraseDups_filter_ne, hhead]

/-- The third phase, when every state is mapped or has a hint. -/
theorem complete_eq_ok {m : Mealy} {k : Synthesis} {states : List String} (hk : k.Coherent)
    (hi : m.initialState ∈ k.pairs.keys.map Prod.fst)
    (h : ∀ s ∈ states, s ∉ k.pairs.keys.map Prod.fst → m.stateOutputs.get? s ≠ none) :
    ∃ k', complete m k states = .ok k' ∧
      Grows k (m.hintedPairs (k.pairs.keys.map Prod.fst) states) k' := by
  induction states generalizing k with
  | nil => exact ⟨k, rfl, grows_refl hk⟩
  | cons s states ih =>
    by_cases hs : s ∈ k.pairs.keys.map Prod.fst
    · obtain ⟨k', hk', hg⟩ := ih hk hi fun s' hs' => h s' (List.mem_cons_of_mem _ hs')
      refine ⟨k', by rw [complete, if_pos (hk.contains_derived.mpr hs)]; exact hk', ?_⟩
      have hskip : m.hintedPairs (k.pairs.keys.map Prod.fst) (s :: states) =
          m.hintedPairs (k.pairs.keys.map Prod.fst) states := by
        simp only [Mealy.hintedPairs, List.filter_cons, hs, not_true_eq_false, decide_false,
          Bool.false_eq_true, ↓reduceIte]
      rw [hskip]
      exact hg
    · obtain ⟨output, ho⟩ := Option.ne_none_iff_exists'.mp (h s List.mem_cons_self hs)
      have hne : s ≠ m.initialState := fun he => hs (he ▸ hi)
      have hg : Grows k [(s, output)] ((k.report (.neverEntered s output)).intern s output) :=
        (grows_report hk s output).trans (grows_intern (coherent_report hk s output) s output)
      obtain ⟨k', hk', hg'⟩ := ih hg.coherent (hg.mem_states.mpr (Or.inl hi)) fun s' hs' hn =>
        h s' (List.mem_cons_of_mem _ hs') fun hm => hn (hg.mem_states.mpr (Or.inl hm))
      refine ⟨k', ?_, hg.cons_hinted hs ho hg'⟩
      rw [complete, if_neg (fun hd => hs (hk.contains_derived.mp hd)),
        Mealy.outputHint_of_ne hne, ho]
      exact hk'

/-- The third phase stops at the first state that is neither mapped nor has a hint. -/
theorem complete_eq_error {m : Mealy} {k : Synthesis} {states : List String} (hk : k.Coherent)
    (hi : m.initialState ∈ k.pairs.keys.map Prod.fst) {state : String}
    (h : states.find? (fun s => s ∉ k.pairs.keys.map Prod.fst ∧ m.stateOutputs.get? s = none) =
      some state) :
    ∃ events, complete m k states = .error ⟨.unmappedState state, events⟩ := by
  induction states generalizing k with
  | nil => cases h
  | cons s states ih =>
    by_cases hs : s ∈ k.pairs.keys.map Prod.fst
    · obtain ⟨events, he⟩ := ih hk hi (by simpa only [List.find?_cons, hs, not_true_eq_false,
        false_and, decide_false] using h)
      exact ⟨events, by rw [complete, if_pos (hk.contains_derived.mpr hs)]; exact he⟩
    have hne : s ≠ m.initialState := fun he => hs (he ▸ hi)
    have hd : ¬ k.derived.contains s = true := fun hd => hs (hk.contains_derived.mp hd)
    cases ho : m.stateOutputs.get? s with
    | none =>
      have hstate : s = state := by
        simpa only [List.find?_cons, hs, ho, not_false_eq_true, true_and, decide_true,
          Option.some.injEq] using h
      subst hstate
      exact ⟨k.events, by rw [complete, if_neg hd, Mealy.outputHint_of_ne hne, ho]; rfl⟩
    | some output =>
      have hg : Grows k [(s, output)] ((k.report (.neverEntered s output)).intern s output) :=
        (grows_report hk s output).trans (grows_intern (coherent_report hk s output) s output)
      have hrest : states.find? (fun s => s ∉ k.pairs.keys.map Prod.fst ∧
          m.stateOutputs.get? s = none) = some state := by
        simpa only [List.find?_cons, hs, ho, not_false_eq_true, reduceCtorEq, and_false,
          decide_false] using h
      obtain ⟨events, he⟩ := ih hg.coherent (hg.mem_states.mpr (Or.inl hi)) (by
        rw [← hrest]
        congr 1
        funext s'
        rw [decide_eq_decide, hg.mem_states]
        by_cases hs' : s' = s
        · simp [hs', ho]
        · simp [hs'])
      refine ⟨events, ?_⟩
      rw [complete, if_neg hd, Mealy.outputHint_of_ne hne, ho]
      exact he

/-! ## The whole work -/

/-- What holds when the work is done and `start` is the Moore state to start in. -/
structure Finished (m : Mealy) (k : Synthesis) (start : String) : Prop where
  coherent : k.Coherent
  keys : k.pairs.keys = m.splitPairs
  total : m.firstMissing? = none
  /-- Every declared state was split. -/
  mapped : ∀ state ∈ m.states, state ∈ m.splitPairs.map Prod.fst
  start : m.startIn? k = some start

theorem Finished.exists_cell? {m : Mealy} {k : Synthesis} {start : String} (h : Finished m k start)
    {state symbol : String} (hs : state ∈ m.states) (hx : symbol ∈ m.inputSymbols) :
    ∃ t, m.transitions.cell? state symbol = some t := by
  have hcell := List.find?_eq_none.mp h.total (state, symbol)
    (Mealy.mem_declaredPairs.mpr ⟨hs, hx⟩)
  exact Option.ne_none_iff_exists'.mp (by simpa using hcell)

/-- The first two phases, on a machine without gaps. -/
theorem exists_begun {m : Mealy} (ht : m.firstMissing? = none)
    (hi : m.initialState ∈ m.begunPairs.map Prod.fst) :
    ∃ entered begun start, enter m empty m.declaredPairs = .ok entered ∧
      begin m entered = .ok (begun, start) ∧ Grows empty m.begunPairs begun ∧
      m.startIn? begun = some start := by
  have htotal : ∀ p ∈ m.declaredPairs, m.transitions.cell? p.1 p.2 ≠ none := by
    intro p hp
    simpa using List.find?_eq_none.mp ht p hp
  obtain ⟨entered, he, hg⟩ := enter_eq_ok coherent_empty htotal
  obtain ⟨begun, start, hb, hg', hs⟩ := begin_eq_ok hg hi
  exact ⟨entered, begun, start, he, hb, hg.trans hg', hs⟩

theorem keys_begun {m : Mealy} {k : Synthesis} (h : Grows empty m.begunPairs k) {state : String} :
    state ∈ k.pairs.keys.map Prod.fst ↔ state ∈ m.begunPairs.map Prod.fst := by
  rw [h.mem_states]
  simp [empty]

theorem exists_finished {m : Mealy} (ht : m.firstMissing? = none)
    (hi : m.initialState ∈ m.begunPairs.map Prod.fst) (hu : m.firstUnmapped? = none) :
    ∃ k start, ofMealy m = .ok (k, start) ∧ Finished m k start := by
  obtain ⟨entered, begun, start, he, hb, hg, hs⟩ := exists_begun ht hi
  have hhints : ∀ s ∈ m.states, s ∉ begun.pairs.keys.map Prod.fst →
      m.stateOutputs.get? s ≠ none := by
    intro s hs hn hnone
    rw [keys_begun hg] at hn
    have := List.find?_eq_none.mp hu s hs
    rw [decide_eq_true_eq] at this
    exact this ⟨hn, hnone⟩
  obtain ⟨k, hk, hg'⟩ := complete_eq_ok hg.coherent ((keys_begun hg).mpr hi) hhints
  have hmapped : m.hintedPairs (begun.pairs.keys.map Prod.fst) m.states =
      m.hintedPairs (m.begunPairs.map Prod.fst) m.states := by
    unfold Mealy.hintedPairs
    congr 1
    refine List.filter_congr fun s _ => ?_
    rw [decide_eq_decide, keys_begun hg]
  have hkeys : k.pairs.keys = m.splitPairs := by
    rw [hmapped] at hg'
    exact (hg.trans hg').keys
  refine ⟨k, start, ?_, hg'.coherent, hkeys, ht, ?_, hg'.startIn? hg.coherent hs⟩
  · simp only [ofMealy, he, hb, hk, bind, Except.bind]
    rfl
  · intro s hs
    rw [← hkeys, hg'.mem_states]
    by_cases hn : s ∈ begun.pairs.keys.map Prod.fst
    · exact Or.inl hn
    · obtain ⟨output, ho⟩ := Option.ne_none_iff_exists'.mp (hhints s hs hn)
      exact Or.inr (List.mem_map.mpr ⟨(s, output), Mealy.mem_hintedPairs.mpr ⟨hs, hn, ho⟩, rfl⟩)

theorem ofMealy_of_missing {m : Mealy} {p : String × String} (h : m.firstMissing? = some p) :
    ∃ events, ofMealy m = .error ⟨.missingTransition p.1 p.2, events⟩ := by
  obtain ⟨events, he⟩ := enter_eq_error (k := empty) h
  exact ⟨events, by simp only [ofMealy, he, bind, Except.bind]⟩

theorem ofMealy_of_initial_unmapped {m : Mealy} (ht : m.firstMissing? = none)
    (hi : m.initialState ∉ m.begunPairs.map Prod.fst) :
    ∃ events, ofMealy m = .error ⟨.unmappedInitialState m.initialState, events⟩ := by
  have htotal : ∀ p ∈ m.declaredPairs, m.transitions.cell? p.1 p.2 ≠ none := by
    intro p hp
    simpa using List.find?_eq_none.mp ht p hp
  obtain ⟨entered, he, hg⟩ := enter_eq_ok coherent_empty htotal
  exact ⟨entered.events, by simp only [ofMealy, he, begin_eq_error hg hi, bind, Except.bind]⟩

theorem ofMealy_of_unmapped {m : Mealy} (ht : m.firstMissing? = none)
    (hi : m.initialState ∈ m.begunPairs.map Prod.fst) {state : String}
    (hu : m.firstUnmapped? = some state) :
    ∃ events, ofMealy m = .error ⟨.unmappedState state, events⟩ := by
  obtain ⟨entered, begun, start, he, hb, hg, -⟩ := exists_begun ht hi
  have hfind : m.states.find? (fun s => s ∉ begun.pairs.keys.map Prod.fst ∧
      m.stateOutputs.get? s = none) = some state := by
    rw [← hu]
    unfold Mealy.firstUnmapped?
    congr 1
    funext s
    rw [decide_eq_decide, keys_begun hg]
  obtain ⟨events, hc⟩ := complete_eq_error hg.coherent ((keys_begun hg).mpr hi) hfind
  exact ⟨events, by simp only [ofMealy, he, hb, hc, bind, Except.bind]⟩

/-- **What the work leaves behind.**  It succeeds only on a machine without gaps,
and then has interned the pairs of `Mealy.splitPairs`. -/
theorem finished_of_ofMealy {m : Mealy} {k : Synthesis} {start : String}
    (h : ofMealy m = .ok (k, start)) : Finished m k start := by
  cases ht : m.firstMissing? with
  | some p =>
    obtain ⟨events, he⟩ := ofMealy_of_missing ht
    rw [h] at he
    cases he
  | none =>
    by_cases hi : m.initialState ∈ m.begunPairs.map Prod.fst
    · cases hu : m.firstUnmapped? with
      | some state =>
        obtain ⟨events, he⟩ := ofMealy_of_unmapped ht hi hu
        rw [h] at he
        cases he
      | none =>
        obtain ⟨k', start', hk, hf⟩ := exists_finished ht hi hu
        rw [h] at hk
        cases hk
        exact hf
    · obtain ⟨events, he⟩ := ofMealy_of_initial_unmapped ht hi
      rw [h] at he
      cases he

end Synthesis

end Transducers
