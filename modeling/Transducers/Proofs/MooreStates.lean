import Transducers.Proofs.SplitPairs

/-!
# The Moore machine that a conversion makes

What the finished machine does, said of the pair from which each Moore state was
made.  `m.Makes p id` says that the conversion reported the Moore state `id` for the
pair `p`; the lemmas after it are all that later proofs use of the work.

* `cell?_wire`: the transitions of a Moore state are those of its state;
* `toMoore_eq_error_iff`: when there is no such machine;
* `Makes.unique`, `Makes.id_unique`: a Moore state has one pair, a pair one Moore state;
* `cell?_toMoore`, `get?_outputs_toMoore`, `mem_states_toMoore`: the finished machine.
-/

namespace Transducers

/-! ## Wiring -/

namespace Synthesis

/-- The cells that wiring writes, in order. -/
def wiredCells (m : Mealy) (k : Synthesis) : List ((String × String) × String) :=
  m.declaredPairs.flatMap fun p =>
    match m.transition p.1 p.2 with
    | .ok t =>
      match k.pairs.get? (t.next, t.output) with
      | some next => (k.splits p.1).map fun id => ((id, p.2), next)
      | none => []
    | .error _ => []

theorem wire_eq_writeAll (m : Mealy) (k : Synthesis) :
    wire m k = Table.writeAll .empty (wiredCells m k) := by
  unfold wire Table.writeAll wiredCells
  rw [List.foldl_flatMap]
  congr 1
  funext table p
  cases m.transition p.1 p.2 with
  | error e => rfl
  | ok t =>
    cases hn : k.pairs.get? (t.next, t.output) with
    | none => simp only [hn, List.foldl_nil]
    | some next => simp only [hn, List.foldl_map]

theorem mem_wiredCells {m : Mealy} {k : Synthesis} {id symbol next : String} :
    ((id, symbol), next) ∈ wiredCells m k ↔ ∃ state t, state ∈ m.states ∧
      symbol ∈ m.inputSymbols ∧ id ∈ k.splits state ∧
      m.transitions.cell? state symbol = some t ∧ k.pairs.get? (t.next, t.output) = some next := by
  unfold wiredCells
  rw [List.mem_flatMap]
  constructor
  · rintro ⟨⟨s, x⟩, hp, hcell⟩
    obtain ⟨hs, hx⟩ := Mealy.mem_declaredPairs.mp hp
    cases ht : m.transition s x with
    | error e => simp [ht] at hcell
    | ok t =>
      cases hn : k.pairs.get? (t.next, t.output) with
      | none => simp [ht, hn] at hcell
      | some n =>
        simp only [ht, hn, List.mem_map, Prod.mk.injEq] at hcell
        obtain ⟨i, hi, ⟨rfl, rfl⟩, rfl⟩ := hcell
        exact ⟨s, t, hs, hx, hi, Mealy.transition_eq_ok_iff.mp ht, hn⟩
  · rintro ⟨s, t, hs, hx, hid, ht, hn⟩
    refine ⟨(s, symbol), Mealy.mem_declaredPairs.mpr ⟨hs, hx⟩, ?_⟩
    simp only [Mealy.transition_eq_ok_iff.mpr ht, hn, List.mem_map]
    exact ⟨id, hid, rfl⟩

/-- **Wiring.**  No write undoes another, since a Moore state is split from one state. -/
theorem cell?_wire {m : Mealy} {k : Synthesis} (hk : k.Coherent) {id symbol next : String} :
    (wire m k).cell? id symbol = some next ↔ ∃ state t, state ∈ m.states ∧
      symbol ∈ m.inputSymbols ∧ id ∈ k.splits state ∧
      m.transitions.cell? state symbol = some t ∧ k.pairs.get? (t.next, t.output) = some next := by
  have hone : ∀ c v w, (c, v) ∈ (wiredCells m k).reverse → (c, w) ∈ (wiredCells m k).reverse →
      v = w := by
    rintro ⟨i, x⟩ v w hv hw
    obtain ⟨s, t, -, -, hs, ht, hn⟩ := mem_wiredCells.mp (List.mem_reverse.mp hv)
    obtain ⟨s', t', -, -, hs', ht', hn'⟩ := mem_wiredCells.mp (List.mem_reverse.mp hw)
    obtain ⟨o, ho⟩ := hk.mem_splits.mp hs
    obtain ⟨o', ho'⟩ := hk.mem_splits.mp hs'
    have hpair := hk.pair_unique ho ho'
    simp only [Prod.mk.injEq] at hpair
    rw [← hpair.1, ht, Option.some.injEq] at ht'
    rw [← ht', hn, Option.some.injEq] at hn'
    exact hn'
  rw [wire_eq_writeAll, Table.cell?_writeAll, Table.cell?_empty, Option.or_none,
    Entries.find?_eq_some_iff hone, List.mem_reverse, mem_wiredCells]

end Synthesis

/-! ## Moore states and their pairs -/

namespace Mealy

/-- The conversion reports the Moore state `id` for the pair. -/
def Makes (m : Mealy) (p : String × String) (id : String) : Prop :=
  .synthesized id p.1 p.2 ∈ m.conversionEvents

/-- The Moore state is one of those into which the state is split. -/
def SplitInto (m : Mealy) (state id : String) : Prop := ∃ output, m.Makes (state, output) id

theorem toMoore_eq_ok {m : Mealy} {M : Moore} (h : m.toMoore = .ok M) :
    ∃ k start, Synthesis.ofMealy m = .ok (k, start) ∧ M = k.toMoore m start := by
  unfold toMoore at h
  cases hk : Synthesis.ofMealy m with
  | error stop =>
    rw [hk] at h
    cases h
  | ok r =>
    rw [hk] at h
    cases h
    exact ⟨r.1, r.2, rfl, rfl⟩

theorem toMoore_of_error {m : Mealy} {stop : Abandoned} (h : Synthesis.ofMealy m = .error stop) :
    m.toMoore = .error stop.error := by
  simp [toMoore, h]

/-- What stands in the way of a conversion: the first gap in the table, else the initial
state without an output, else the first other state without one. -/
def obstacle? (m : Mealy) : Option MachineError :=
  match m.firstMissing? with
  | some p => some (.missingTransition p.1 p.2)
  | none =>
    if m.initialState ∈ m.begunPairs.map Prod.fst then m.firstUnmapped?.map .unmappedState
    else some (.unmappedInitialState m.initialState)

/-- **When a conversion fails.** -/
theorem toMoore_eq_error_iff {m : Mealy} {e : MachineError} :
    m.toMoore = .error e ↔ m.obstacle? = some e := by
  unfold obstacle?
  cases ht : m.firstMissing? with
  | some p =>
    obtain ⟨events, he⟩ := Synthesis.ofMealy_of_missing ht
    simp [toMoore_of_error he]
  | none =>
    by_cases hi : m.initialState ∈ m.begunPairs.map Prod.fst
    · simp only [if_pos hi]
      cases hu : m.firstUnmapped? with
      | some state =>
        obtain ⟨events, he⟩ := Synthesis.ofMealy_of_unmapped ht hi hu
        simp [toMoore_of_error he]
      | none =>
        obtain ⟨k, start, hk, -⟩ := Synthesis.exists_finished ht hi hu
        simp [toMoore, hk]
    · simp only [if_neg hi]
      obtain ⟨events, he⟩ := Synthesis.ofMealy_of_initial_unmapped ht hi
      simp [toMoore_of_error he]

theorem makes_iff {m : Mealy} {k : Synthesis} {start : String}
    (h : Synthesis.ofMealy m = .ok (k, start)) {p : String × String} {id : String} :
    m.Makes p id ↔ k.pairs.get? p = some id := by
  have hevents : m.conversionEvents = k.events := by simp [conversionEvents, h]
  rw [Makes, hevents, (Synthesis.finished_of_ofMealy h).coherent.mem_events]

section Converted

variable {m : Mealy} {M : Moore} (h : m.toMoore = .ok M)
include h

theorem Makes.unique {p q : String × String} {id : String} (hp : m.Makes p id)
    (hq : m.Makes q id) : p = q := by
  obtain ⟨k, start, hk, -⟩ := toMoore_eq_ok h
  rw [makes_iff hk] at hp hq
  exact (Synthesis.finished_of_ofMealy hk).coherent.pair_unique hp hq

theorem Makes.id_unique {p : String × String} {id id' : String} (hp : m.Makes p id)
    (hp' : m.Makes p id') : id = id' := by
  obtain ⟨k, start, hk, -⟩ := toMoore_eq_ok h
  rw [makes_iff hk] at hp hp'
  rw [hp, Option.some.injEq] at hp'
  exact hp'

theorem exists_makes_iff {p : String × String} : (∃ id, m.Makes p id) ↔ p ∈ m.splitPairs := by
  obtain ⟨k, start, hk, -⟩ := toMoore_eq_ok h
  simp only [makes_iff hk]
  rw [← (Synthesis.finished_of_ofMealy hk).keys, OrderedMap.mem_keys_iff_exists]

theorem mem_states_toMoore {id : String} : id ∈ M.states ↔ ∃ p, m.Makes p id := by
  obtain ⟨k, start, hk, rfl⟩ := toMoore_eq_ok h
  simp only [makes_iff hk]
  exact (Synthesis.finished_of_ofMealy hk).coherent.mem_keys_outputs

theorem nodup_states_toMoore : M.states.Nodup := by
  obtain ⟨k, start, -, rfl⟩ := toMoore_eq_ok h
  exact k.outputs.keys_nodup

theorem inputSymbols_toMoore : M.inputSymbols = m.inputSymbols := by
  obtain ⟨k, start, -, rfl⟩ := toMoore_eq_ok h
  rfl

theorem get?_outputs_toMoore {p : String × String} {id : String} (hp : m.Makes p id) :
    M.outputs.get? id = some p.2 := by
  obtain ⟨k, start, hk, rfl⟩ := toMoore_eq_ok h
  rw [makes_iff hk] at hp
  exact (Synthesis.finished_of_ofMealy hk).coherent.get?_outputs hp

/-- **The transitions of a Moore state** are those of the state it was split from,
each leading to the Moore state of its destination and output. -/
theorem cell?_toMoore {id symbol next : String} :
    M.transitions.cell? id symbol = some next ↔ ∃ state t, state ∈ m.states ∧
      symbol ∈ m.inputSymbols ∧ m.SplitInto state id ∧
      m.transitions.cell? state symbol = some t ∧ m.Makes (t.next, t.output) next := by
  obtain ⟨k, start, hk, rfl⟩ := toMoore_eq_ok h
  have hc := (Synthesis.finished_of_ofMealy hk).coherent
  simp only [SplitInto, makes_iff hk, ← hc.mem_splits]
  exact Synthesis.cell?_wire hc

theorem exists_cell? {state symbol : String} (hs : state ∈ m.states)
    (hx : symbol ∈ m.inputSymbols) : ∃ t, m.transitions.cell? state symbol = some t := by
  obtain ⟨k, start, hk, -⟩ := toMoore_eq_ok h
  exact (Synthesis.finished_of_ofMealy hk).exists_cell? hs hx

/-- Every destination of a declared transition was made with its output. -/
theorem exists_makes_target {state symbol : String} {t : Transition} (hs : state ∈ m.states)
    (hx : symbol ∈ m.inputSymbols) (ht : m.transitions.cell? state symbol = some t) :
    ∃ id, m.Makes (t.next, t.output) id :=
  (exists_makes_iff h).mpr (target_mem_splitPairs hs hx ht)

theorem exists_splitInto {state : String} (hs : state ∈ m.states) :
    ∃ id, m.SplitInto state id := by
  obtain ⟨k, start, hk, -⟩ := toMoore_eq_ok h
  obtain ⟨⟨s, o⟩, hp, rfl⟩ :=
    List.mem_map.mp ((Synthesis.finished_of_ofMealy hk).mapped state hs)
  obtain ⟨id, hid⟩ := (exists_makes_iff h).mpr hp
  exact ⟨id, o, hid⟩

theorem splitInto_initialState : m.SplitInto m.initialState M.initialState := by
  obtain ⟨k, start, hk, rfl⟩ := toMoore_eq_ok h
  have hf := Synthesis.finished_of_ofMealy hk
  have hs := hf.start
  unfold startIn? at hs
  simp only [SplitInto, makes_iff hk, ← hf.coherent.mem_splits, Synthesis.toMoore]
  cases ho : m.initialOutput with
  | some output =>
    rw [ho] at hs
    exact hf.coherent.mem_splits.mpr ⟨output, hs⟩
  | none =>
    rw [ho] at hs
    exact List.mem_of_head? hs

end Converted

end Mealy

end Transducers
