import Transducers.Proofs.Simulation
import Transducers.Proofs.SynthesisSteps

/-!
# Lookups that cannot miss

The fourth phase of a conversion looks up what the first three have put into the maps.  Here
a lookup of what is not there ends the conversion at once; the conversion is the same.

* `OrderedMap.index`: a lookup that ends what is being done if the key is not there;
* `Synthesis.wireIndexed`, `Mealy.toMooreIndexed`: the fourth phase, and the whole
  conversion, with such lookups;
* `Finished.exists_derived`, `Finished.exists_target`: the keys are there;
* `wireIndexed_eq`, `toMooreIndexed_eq`: no lookup misses;
* `agrees_throughout`: the maps agree at every moment, and so nothing is missed in the end.
-/

namespace Transducers

/-! ## Lookups that can miss -/

/-- Why there is no machine: the conversion was refused, or a key was not there. -/
inductive Halt where
  | refused (error : MachineError)
  | missed
  deriving DecidableEq, Repr

/-- The value at a key that ought to be there. -/
def OrderedMap.index {κ α : Type} [DecidableEq κ] (m : OrderedMap κ α) (k : κ) : Except Halt α :=
  match m.get? k with
  | some v => .ok v
  | none => .error .missed

theorem OrderedMap.index_of_get? {κ α : Type} [DecidableEq κ] {m : OrderedMap κ α} {k : κ} {v : α}
    (h : m.get? k = some v) : m.index k = .ok v := by
  simp [index, h]

namespace Synthesis

/-- The transitions of the Moore states, by lookups that can miss. -/
def wireIndexed (m : Mealy) (k : Synthesis) : Except Halt (Table String) :=
  m.states.foldlM (fun table state => do
    -- also for a machine without symbols
    let ids ← k.derived.index state
    m.inputSymbols.foldlM (fun table symbol => do
      let t ← (m.transition state symbol).mapError .refused
      let next ← k.pairs.index (t.next, t.output)
      return ids.foldl (fun table id => table.write id symbol next) table) table) .empty

end Synthesis

/-- The conversion, by lookups that can miss. -/
def Mealy.toMooreIndexed (m : Mealy) : Except Halt Moore := do
  let (k, initialState) ← (Synthesis.ofMealy m).mapError fun stop => .refused stop.error
  let transitions ← k.wireIndexed m
  return {
    states := k.outputs.keys
    inputSymbols := m.inputSymbols
    transitions := transitions
    outputs := k.outputs
    initialState := initialState }

/-! ## Nothing is missed -/

/-- A loop of which no round fails. -/
theorem foldlM_eq_ok {ε α β : Type} {f : β → α → Except ε β} {g : β → α → β} {l : List α}
    (h : ∀ a ∈ l, ∀ b, f b a = .ok (g b a)) (b : β) : l.foldlM f b = .ok (l.foldl g b) := by
  induction l generalizing b with
  | nil => rfl
  | cons a l ih =>
    rw [List.forall_mem_cons] at h
    rw [List.foldlM_cons, h.1, List.foldl_cons]
    exact ih h.2 (g b a)

namespace Synthesis

section Finished

variable {m : Mealy} {k : Synthesis} {start : String} (h : Finished m k start)
include h

theorem Finished.exists_derived {state : String} (hs : state ∈ m.states) :
    ∃ ids, k.derived.get? state = some ids := by
  rw [← OrderedMap.mem_keys_iff_exists, h.coherent.mem_derived, h.keys]
  exact h.mapped state hs

theorem Finished.exists_target {state symbol : String} (hs : state ∈ m.states)
    (hx : symbol ∈ m.inputSymbols) : ∃ t id, m.transition state symbol = .ok t ∧
      k.pairs.get? (t.next, t.output) = some id := by
  obtain ⟨t, ht⟩ := h.exists_cell? hs hx
  have hpair : (t.next, t.output) ∈ k.pairs.keys := by
    rw [h.keys]
    exact Mealy.target_mem_splitPairs hs hx ht
  obtain ⟨id, hid⟩ := OrderedMap.mem_keys_iff_exists.mp hpair
  exact ⟨t, id, Mealy.transition_eq_ok_iff.mpr ht, hid⟩

theorem wireIndexed_eq : wireIndexed m k = .ok (wire m k) := by
  -- one loop over pairs is a loop over states and in it one over symbols
  rw [wire, Mealy.declaredPairs, statePairs, List.foldl_flatMap]
  refine foldlM_eq_ok (fun state hs table => ?_) _
  obtain ⟨ids, hids⟩ := h.exists_derived hs
  have hsplits : k.splits state = ids := by rw [splits, hids, Option.getD_some]
  rw [List.foldl_map, OrderedMap.index_of_get? hids]
  refine foldlM_eq_ok (fun symbol hx table => ?_) _
  obtain ⟨t, id, ht, hid⟩ := h.exists_target hs hx
  simp only [ht, hid, hsplits, Except.mapError, bind, Except.bind, OrderedMap.index_of_get? hid]
  rfl

end Finished

end Synthesis

/-- **The conversion is the same if its lookups can miss.** -/
theorem Mealy.toMooreIndexed_eq (m : Mealy) :
    m.toMooreIndexed = m.toMoore.mapError .refused := by
  unfold toMooreIndexed toMoore
  cases h : Synthesis.ofMealy m with
  | error stop => rfl
  | ok done =>
    obtain ⟨k, start⟩ := done
    have hwire := Synthesis.wireIndexed_eq (Synthesis.finished_of_ofMealy h)
    simp only [Except.mapError, bind, Except.bind, hwire]
    rfl

/-! ## The whole work -/

namespace Synthesis

theorem idOf_of_known {k : Synthesis} {state output id : String}
    (h : k.pairs.get? (state, output) = some id) : k.idOf state output = id := by
  simp [idOf, h]

theorem idOf_of_new {k : Synthesis} {state output : String}
    (h : k.pairs.get? (state, output) = none) :
    k.idOf state output = freshId k.outputs (state ++ "_" ++ output) := by
  simp [idOf, h]

/-- **The maps agree throughout, and no lookup misses.**  Whatever the machine declares, twice or
not at all, the three maps tell the same after each round of the work, so after each request.  A
pair that is known gets the id that it has, and nothing changes; for a new one the loop of
apostrophes ends.  When all Moore states are there, the last phase finds every key that it looks
up, and so the conversion never breaks off for want of one. -/
theorem agrees_throughout (m : Mealy) :
    -- the rounds are those of the conversion, whether it succeeds or not
    (∀ k start, Reached m (.wiring start) k ↔ ofMealy m = .ok (k, start)) ∧
    (∀ stop, (∃ stage k, Reached m stage k ∧ round m k stage = .error stop) ↔
      ofMealy m = .error stop) ∧
    (∀ stage k stage' k', round m k stage = .ok (stage', k') → Requests k k') ∧
    -- the maps, after every round
    (∀ stage k, Reached m stage k → k.MapsAgree) ∧
    -- one request
    (∀ (k : Synthesis) state output id, k.pairs.get? (state, output) = some id →
      k.idOf state output = id ∧ k.intern state output = k) ∧
    (∀ (k : Synthesis) state output, k.pairs.get? (state, output) = none →
      k.idOf state output = freshId k.outputs (state ++ "_" ++ output) ∧
      (k.intern state output).pairs.entries =
        k.pairs.entries ++ [((state, output), k.idOf state output)]) ∧
    -- the loop that makes an id
    (∀ taken name, ∃ rounds ≤ taken.size, ∀ n id,
      Suffixes taken name n id ↔ n = rounds ∧ id = freshId taken name) ∧
    -- the lookups of the last phase
    (∀ k start, Reached m (.wiring start) k →
      (∀ state ∈ m.states, ∃ ids, k.derived.get? state = some ids) ∧
      ∀ state ∈ m.states, ∀ symbol ∈ m.inputSymbols, ∃ t id,
        m.transition state symbol = .ok t ∧ k.pairs.get? (t.next, t.output) = some id) ∧
    m.toMooreIndexed = m.toMoore.mapError .refused := by
  refine ⟨fun _ _ => reached_wiring_iff, fun _ => exists_reached_stop_iff,
    fun _ _ _ _ hround => (round_eq_ok hround).1, fun _ _ hk => hk.coherent.mapsAgree, ?_, ?_,
    suffixes_freshId_iff, ?_, m.toMooreIndexed_eq⟩
  · intro k state output id hid
    exact ⟨idOf_of_known hid, intern_of_known hid⟩
  · intro k state output hnone
    exact ⟨idOf_of_new hnone, entries_pairs_intern (OrderedMap.get?_eq_none_iff.mp hnone)⟩
  · intro k start hk
    have hfinished := finished_of_ofMealy (reached_wiring_iff.mp hk)
    exact ⟨fun _ hs => hfinished.exists_derived hs,
      fun _ hs _ hx => hfinished.exists_target hs hx⟩

theorem agrees_throughout_colliding :
    ∃ k, Reached Mealy.colliding (.wiring "A_b_c'") k ∧ k.MapsAgree ∧
      k.outputs.keys = ["A_b_c", "A_b_c'"] ∧ k.idOf "A" "b_c" = "A_b_c'" ∧
      (∃ ids, k.derived.get? "A" = some ids) ∧
      Mealy.colliding.toMooreIndexed = Mealy.colliding.toMoore.mapError .refused := by
  obtain ⟨hrounds, -, -, hagree, hknown, -, -, hlookups, hsame⟩ := agrees_throughout Mealy.colliding
  have hend := (hrounds _ "A_b_c'").mpr rfl
  exact ⟨_, hend, hagree _ _ hend, rfl, (hknown _ "A" "b_c" "A_b_c'" rfl).1,
    (hlookups _ _ hend).1 "A" (by decide), hsame⟩

end Synthesis

end Transducers
