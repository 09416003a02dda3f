import Transducers.Proofs.MooreStates

/-!
# The form of the converted machine

The whole machine can be told from the list of the pairs that need a Moore state:
the Moore states are named after the pairs, one by one.

* `makes_iff_mem_zip`: the Moore state of a pair stands where the pair stands;
* `toMoore_form`: states, outputs, initial state and transitions of the machine.
-/

namespace Transducers

namespace Mealy

/-- The pair of the Moore state to start in. -/
def initialPair? (m : Mealy) : Option (String × String) :=
  match m.initialOutput with
  | some output => some (m.initialState, output)
  | none => m.splitPairs.find? fun p => p.1 = m.initialState

theorem states_toMoore_eq {m : Mealy} {k : Synthesis} {start : String}
    (h : Synthesis.ofMealy m = .ok (k, start)) :
    (k.toMoore m start).states = k.pairs.entries.map Prod.snd :=
  (Synthesis.finished_of_ofMealy h).coherent.keys_outputs

theorem splitPairs_eq {m : Mealy} {k : Synthesis} {start : String}
    (h : Synthesis.ofMealy m = .ok (k, start)) : m.splitPairs = k.pairs.entries.map Prod.fst :=
  (Synthesis.finished_of_ofMealy h).keys.symm

theorem zip_toMoore_eq {m : Mealy} {k : Synthesis} {start : String}
    (h : Synthesis.ofMealy m = .ok (k, start)) :
    m.splitPairs.zip (k.toMoore m start).states = k.pairs.entries := by
  rw [splitPairs_eq h, states_toMoore_eq h]
  exact (List.zip_of_prod rfl rfl).symm

theorem length_states_toMoore {m : Mealy} {M : Moore} (h : m.toMoore = .ok M) :
    M.states.length = m.splitPairs.length := by
  obtain ⟨k, start, hk, rfl⟩ := toMoore_eq_ok h
  rw [states_toMoore_eq hk, splitPairs_eq hk, List.length_map, List.length_map]

theorem leastPrimed_states_toMoore {m : Mealy} {M : Moore} (h : m.toMoore = .ok M) {i : Nat}
    (hp : i < m.splitPairs.length) (hi : i < M.states.length) :
    LeastPrimed (M.states.take i) (m.splitPairs[i].1 ++ "_" ++ m.splitPairs[i].2) M.states[i] := by
  obtain ⟨k, start, hk, rfl⟩ := toMoore_eq_ok h
  simp only [states_toMoore_eq hk, splitPairs_eq hk] at hp hi ⊢
  rw [List.length_map] at hi
  rw [← List.map_take, List.getElem_map, List.getElem_map]
  exact (Synthesis.finished_of_ofMealy hk).coherent.named i hi

theorem makes_iff_mem_zip {m : Mealy} {M : Moore} (h : m.toMoore = .ok M) {p : String × String}
    {id : String} : m.Makes p id ↔ (p, id) ∈ m.splitPairs.zip M.states := by
  obtain ⟨k, start, hk, rfl⟩ := toMoore_eq_ok h
  rw [makes_iff hk, zip_toMoore_eq hk, OrderedMap.mem_entries_iff]

theorem initialPair?_toMoore {m : Mealy} {M : Moore} (h : m.toMoore = .ok M) :
    ∃ p, m.initialPair? = some p ∧ m.Makes p M.initialState := by
  obtain ⟨k, start, hk, rfl⟩ := toMoore_eq_ok h
  have hf := Synthesis.finished_of_ofMealy hk
  have hs := hf.start
  unfold startIn? at hs
  simp only [initialPair?, makes_iff hk, Synthesis.toMoore]
  cases ho : m.initialOutput with
  | some output =>
    rw [ho] at hs
    exact ⟨_, rfl, hs⟩
  | none =>
    rw [ho] at hs
    simp only at hs ⊢
    -- the first id of the initial state is that of its first pair
    rw [hf.coherent.splits_eq, List.head?_map, List.head?_filter, Option.map_eq_some_iff] at hs
    obtain ⟨⟨p, id⟩, hfind, rfl⟩ := hs
    refine ⟨p, ?_, OrderedMap.mem_entries_iff.mp (List.mem_of_find?_eq_some hfind)⟩
    rw [splitPairs_eq hk, List.find?_map]
    exact Option.map_eq_some_iff.mpr ⟨_, hfind, rfl⟩

/-- Where the names of the pairs are different, no id needs an apostrophe. -/
theorem Makes.eq_name {m : Mealy} {M : Moore} (h : m.toMoore = .ok M)
    (hnames : ∀ p ∈ m.splitPairs, ∀ q ∈ m.splitPairs,
      p.1 ++ "_" ++ p.2 = q.1 ++ "_" ++ q.2 → p = q)
    {p : String × String} {id : String} (hp : m.Makes p id) : id = p.1 ++ "_" ++ p.2 := by
  have hplain : ∀ i (hp : i < m.splitPairs.length) (hi : i < M.states.length),
      M.states[i] = m.splitPairs[i].1 ++ "_" ++ m.splitPairs[i].2 := by
    intro i
    induction i using Nat.strong_induction_on with
    | _ i ih =>
      intro hp hi
      refine (leastPrimed_states_toMoore h hp hi).eq_name fun hmem => ?_
      -- an earlier id is the name of its own pair, and so not that of the `i`th
      obtain ⟨j, hj, hname⟩ := List.getElem_of_mem hmem
      rw [List.length_take] at hj
      have hji : j < i := by omega
      have hjp : j < m.splitPairs.length := by omega
      rw [List.getElem_take, ih j hji hjp (by omega)] at hname
      have heq := hnames _ (List.getElem_mem hjp) _ (List.getElem_mem hp) hname
      have := (List.Nodup.getElem_inj_iff (nodup_eraseDups _)).mp heq
      omega
  obtain ⟨i, hi, hzip⟩ := List.getElem_of_mem ((makes_iff_mem_zip h).mp hp)
  rw [List.length_zip] at hi
  rw [List.getElem_zip, Prod.mk.injEq] at hzip
  rw [← hzip.1, ← hzip.2]
  exact hplain i (by omega) (by omega)

/-- **The form of the converted machine.**  Its states are the ids of the pairs in
`splitPairs`, in that order: each the name of its pair with the least number of
apostrophes that makes it differ from the ids before it.  A Moore state has the
output of its pair, and on a declared symbol it goes, if its state is declared, to
the Moore state of the destination and the output there. -/
theorem toMoore_form {m : Mealy} {M : Moore} (h : m.toMoore = .ok M) :
    -- the list of pairs leaves nothing out
    (∀ s ∈ m.states, ∀ x ∈ m.inputSymbols, ∃ t, m.transition s x = .ok t) ∧
    m.initialState ∈ m.splitPairs.map Prod.fst ∧
    (∀ s ∈ m.states, s ∈ m.splitPairs.map Prod.fst) ∧
    -- states
    M.states.length = m.splitPairs.length ∧ M.states.Nodup ∧
    (∀ i (hp : i < m.splitPairs.length) (hi : i < M.states.length),
      LeastPrimed (M.states.take i) (m.splitPairs[i].1 ++ "_" ++ m.splitPairs[i].2) M.states[i]) ∧
    M.inputSymbols = m.inputSymbols ∧
    -- outputs
    M.outputs.entries = M.states.zip (m.splitPairs.map Prod.snd) ∧
    -- initial state
    (∃ p, m.initialPair? = some p ∧ (p, M.initialState) ∈ m.splitPairs.zip M.states) ∧
    -- transitions
    (∀ id x, (∃ next, M.transition id x = .ok next) ↔
      (∃ p, (p, id) ∈ m.splitPairs.zip M.states ∧ p.1 ∈ m.states) ∧ x ∈ m.inputSymbols) ∧
    (∀ p id x t, (p, id) ∈ m.splitPairs.zip M.states → p.1 ∈ m.states → x ∈ m.inputSymbols →
      m.transition p.1 x = .ok t → ∃ next, M.transition id x = .ok next ∧
        ((t.next, t.output), next) ∈ m.splitPairs.zip M.states) := by
  simp only [Moore.transition_eq_ok_iff, transition_eq_ok_iff, ← makes_iff_mem_zip h]
  refine ⟨fun s hs x hx => exists_cell? h hs hx, ?_, ?_, ?_, nodup_states_toMoore h, ?_,
    inputSymbols_toMoore h, ?_, initialPair?_toMoore h, ?_, ?_⟩
  · obtain ⟨o, hid⟩ := splitInto_initialState h
    exact List.mem_map.mpr ⟨_, (exists_makes_iff h).mp ⟨_, hid⟩, rfl⟩
  · intro s hs
    obtain ⟨id, o, hid⟩ := exists_splitInto h hs
    exact List.mem_map.mpr ⟨_, (exists_makes_iff h).mp ⟨_, hid⟩, rfl⟩
  · obtain ⟨k, start, hk, rfl⟩ := toMoore_eq_ok h
    rw [states_toMoore_eq hk, splitPairs_eq hk, List.length_map, List.length_map]
  · intro i hp hi
    exact leastPrimed_states_toMoore h hp hi
  · obtain ⟨k, start, hk, rfl⟩ := toMoore_eq_ok h
    rw [states_toMoore_eq hk, splitPairs_eq hk, List.map_map, List.zip_map']
    exact (Synthesis.finished_of_ofMealy hk).coherent.outputs_entries
  · intro id x
    constructor
    · rintro ⟨next, hn⟩
      obtain ⟨s, t, hs, hx, ⟨o, ho⟩, -, -⟩ := (cell?_toMoore h).mp hn
      exact ⟨⟨(s, o), ho, hs⟩, hx⟩
    · rintro ⟨⟨⟨s, o⟩, ho, hs⟩, hx⟩
      obtain ⟨t, ht⟩ := exists_cell? h hs hx
      obtain ⟨next, hn⟩ := exists_makes_target h hs hx ht
      exact ⟨next, (cell?_toMoore h).mpr ⟨s, t, hs, hx, ⟨o, ho⟩, ht, hn⟩⟩
  · rintro ⟨s, o⟩ id x t ho hs hx ht
    obtain ⟨next, hn⟩ := exists_makes_target h hs hx ht
    exact ⟨next, (cell?_toMoore h).mpr ⟨s, t, hs, hx, ⟨o, ho⟩, ht, hn⟩, hn⟩

/-- Nothing enters the initial state of this machine, or the state `D`; `A` is entered
with two outputs. -/
def hinted : Mealy :=
  (((((new "S").withInitialOutput "-").withStateOutput "D" "w").withTransition "S" "0" "A"
    "x").withTransition "A" "0" "A" "y").withTransition "D" "0" "A" "x"

theorem toMoore_form_hinted :
    ∃ M, hinted.toMoore = .ok M ∧
      hinted.splitPairs = [("A", "x"), ("A", "y"), ("S", "-"), ("D", "w")] ∧
      M.states.length = 4 ∧ ∃ next, M.transition "S_-" "0" = .ok next ∧
        (("A", "x"), next) ∈ hinted.splitPairs.zip M.states := by
  obtain ⟨-, -, -, hlength, -, -, -, -, -, -, htransition⟩ := toMoore_form (m := hinted) rfl
  exact ⟨_, rfl, by decide, hlength, htransition ("S", "-") "S_-" "0" ⟨"A", "x"⟩ (by decide)
    (by decide) (by decide) rfl⟩

end Mealy

end Transducers
