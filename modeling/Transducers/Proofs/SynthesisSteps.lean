import Transducers.Proofs.SplitPairs

/-!
# The work of a conversion, step by step

The phases of a conversion are loops.  Here they are cut into their rounds, so that something
can be said of every moment of the work, whether it succeeds in the end or not.

* `Stage`, `round`: how far the work is, and one round more;
* `Reached`: what the work comes to;
* `round_eq_ok`: a round makes at most one request;
* `reached_wiring_iff`, `exists_reached_stop_iff`: the rounds are the work of `ofMealy`;
* `MapsAgree`, `Coherent.mapsAgree`: the three maps tell the same;
* `Coherent.requests`, `Reached.coherent`: one round, and all of them by induction.
-/

namespace Transducers

namespace Synthesis

/-! ## Rounds -/

/-- The phase that the work is in, and what is left of it. -/
inductive Stage where
  | entering (rest : List (String × String))
  | beginning
  | completing (start : String) (rest : List String)
  /-- All Moore states are there. -/
  | wiring (start : String)
  deriving DecidableEq, Repr

/-- One round of a loop, or the way from one phase to the next. -/
def round (m : Mealy) (k : Synthesis) : Stage → Except Abandoned (Stage × Synthesis)
  | .entering [] => .ok (.beginning, k)
  | .entering ((state, symbol) :: rest) =>
    match m.transition state symbol with
    | .ok t => .ok (.entering rest, k.intern t.next t.output)
    | .error e => k.abandon e
  | .beginning => do
    let (begun, start) ← begin m k
    return (.completing start m.states, begun)
  | .completing start [] => .ok (.wiring start, k)
  | .completing start (state :: rest) =>
    if k.derived.contains state then
      .ok (.completing start rest, k)
    else
      match m.outputHint state with
      | some output =>
        .ok (.completing start rest, (k.report (.neverEntered state output)).intern state output)
      | none => k.abandon (.unmappedState state)
  | .wiring start => .ok (.wiring start, k)

/-- The rest of the work. -/
def workFrom (m : Mealy) (k : Synthesis) : Stage → Except Abandoned (Synthesis × String)
  | .entering rest => do
    let entered ← enter m k rest
    let (begun, start) ← begin m entered
    let done ← complete m begun m.states
    return (done, start)
  | .beginning => do
    let (begun, start) ← begin m k
    let done ← complete m begun m.states
    return (done, start)
  | .completing start rest => do
    let done ← complete m k rest
    return (done, start)
  | .wiring start => .ok (k, start)

/-- A round is the first of the rest of the work. -/
theorem workFrom_eq_round (m : Mealy) (k : Synthesis) (stage : Stage) :
    workFrom m k stage = (do let (stage', k') ← round m k stage; workFrom m k' stage') := by
  cases stage with
  | entering rest =>
    cases rest with
    | nil => rfl
    | cons p rest =>
      obtain ⟨state, symbol⟩ := p
      simp only [workFrom, round, enter]
      cases m.transition state symbol with
      | ok t => rfl
      | error e => rfl
  | beginning =>
    simp only [workFrom, round]
    cases begin m k with
    | ok begun => rfl
    | error stop => rfl
  | completing start rest =>
    cases rest with
    | nil => rfl
    | cons state rest =>
      simp only [workFrom, round, complete]
      split
      · rfl
      · cases m.outputHint state with
        | some output => rfl
        | none => rfl
  | wiring start => rfl

/-- The work on this machine comes to this stage, with these maps. -/
inductive Reached (m : Mealy) : Stage → Synthesis → Prop
  | start : Reached m (.entering m.declaredPairs) empty
  | next {stage stage' : Stage} {k k' : Synthesis} (h : Reached m stage k)
      (hs : round m k stage = .ok (stage', k')) : Reached m stage' k'

/-- The number of rounds that are left. -/
def Stage.left (m : Mealy) : Stage → Nat
  | entering rest => rest.length + m.states.length + 3
  | beginning => m.states.length + 2
  | completing _ rest => rest.length + 1
  | wiring _ => 0

/-- What a round does to the maps: nothing, or one request, with a notice before it or without. -/
inductive Requests (k : Synthesis) : Synthesis → Prop
  | nothing : Requests k k
  | intern (state output : String) : Requests k (k.intern state output)
  | noticed (state output : String) :
      Requests k ((k.report (.neverEntered state output)).intern state output)

variable {m : Mealy}

/-- **What a round does.**  It makes at most one request, and until all Moore states are there
less is left to do after it. -/
theorem round_eq_ok {k k' : Synthesis} {stage stage' : Stage}
    (h : round m k stage = .ok (stage', k')) :
    Requests k k' ∧ (stage.left m ≠ 0 → stage'.left m < stage.left m) := by
  cases stage with
  | entering rest =>
    cases rest with
    | nil =>
      cases h
      exact ⟨.nothing, fun _ => by simp [Stage.left]⟩
    | cons p rest =>
      obtain ⟨state, symbol⟩ := p
      rw [round] at h
      cases ht : m.transition state symbol with
      | error e => simp [ht, abandon] at h
      | ok t =>
        simp only [ht] at h
        cases h
        exact ⟨.intern t.next t.output, fun _ => by simp [Stage.left]⟩
  | beginning =>
    rw [round] at h
    cases hb : begin m k with
    | error stop => simp [hb, bind, Except.bind] at h
    | ok begun =>
      rw [hb] at h
      cases h
      refine ⟨?_, fun _ => by simp [Stage.left]⟩
      rcases begin_cases hb with hk | ⟨output, hk⟩
      · rw [hk]
        exact .nothing
      · rw [hk]
        exact .intern m.initialState output
  | completing start rest =>
    cases rest with
    | nil =>
      cases h
      exact ⟨.nothing, fun _ => by simp [Stage.left]⟩
    | cons state rest =>
      rw [round] at h
      split at h
      · cases h
        exact ⟨.nothing, fun _ => by simp [Stage.left]⟩
      · cases ho : m.outputHint state with
        | none => simp [ho, abandon] at h
        | some output =>
          simp only [ho] at h
          cases h
          exact ⟨.noticed state output, fun _ => by simp [Stage.left]⟩
  | wiring start =>
    cases h
    exact ⟨.nothing, fun hleft => absurd rfl hleft⟩

/-! ## The rounds are the work -/

theorem Reached.workFrom_eq {k : Synthesis} {stage : Stage} (h : Reached m stage k) :
    workFrom m k stage = ofMealy m := by
  induction h with
  | start => rfl
  | next _ hs ih =>
    rw [workFrom_eq_round, hs] at ih
    exact ih

/-- Round by round the work comes to its end or to a stop. -/
theorem Reached.exists_end {k : Synthesis} {stage : Stage} (h : Reached m stage k) :
    (∃ start k', Reached m (.wiring start) k') ∨
      ∃ stage' k' stop, Reached m stage' k' ∧ round m k' stage' = .error stop := by
  by_cases hleft : stage.left m = 0
  · -- no round is left only in the last stage
    cases stage with
    | wiring start => exact .inl ⟨start, k, h⟩
    | _ => simp [Stage.left] at hleft
  · cases hs : round m k stage with
    | error stop => exact .inr ⟨stage, k, stop, h, hs⟩
    | ok r =>
      have hless := (round_eq_ok hs).2 hleft
      exact (h.next hs).exists_end
termination_by stage.left m

/-- The work succeeds if it comes to its end. -/
theorem reached_wiring_iff {k : Synthesis} {start : String} :
    Reached m (.wiring start) k ↔ ofMealy m = .ok (k, start) := by
  constructor
  · intro h
    rw [← h.workFrom_eq]
    rfl
  · intro h
    rcases (Reached.start (m := m)).exists_end with ⟨start', k', hk⟩ | ⟨stage, k', stop, hk, hs⟩
    · have hend : ofMealy m = .ok (k', start') := hk.workFrom_eq.symm
      rw [h] at hend
      cases hend
      exact hk
    · have hstop := hk.workFrom_eq
      rw [workFrom_eq_round, hs, h] at hstop
      cases hstop

/-- The work fails if it comes to a round that does. -/
theorem exists_reached_stop_iff {stop : Abandoned} :
    (∃ stage k, Reached m stage k ∧ round m k stage = .error stop) ↔ ofMealy m = .error stop := by
  constructor
  · rintro ⟨stage, k, hk, hs⟩
    rw [← hk.workFrom_eq, workFrom_eq_round, hs]
    rfl
  · intro h
    rcases (Reached.start (m := m)).exists_end with ⟨start', k', hk⟩ | ⟨stage, k', stop', hk, hs⟩
    · rw [reached_wiring_iff.mp hk] at h
      cases h
    · have hstop := hk.workFrom_eq
      rw [workFrom_eq_round, hs, h] at hstop
      cases hstop
      exact ⟨stage, k', hk, hs⟩

/-! ## The maps -/

/-- The three maps tell the same. -/
structure MapsAgree (k : Synthesis) : Prop where
  /-- Different pairs have different ids. -/
  pairs_injective : ∀ p q id, k.pairs.get? p = some id → k.pairs.get? q = some id → p = q
  mem_ids_iff : ∀ id, (∃ p, k.pairs.get? p = some id) ↔ id ∈ k.outputs.keys
  output_eq : ∀ state output id, k.pairs.get? (state, output) = some id →
    k.outputs.get? id = some output
  /-- A state has a list if it has a pair, and then that of the ids of its pairs, oldest first. -/
  derived_iff : ∀ state ids, k.derived.get? state = some ids ↔
    ids ≠ [] ∧ ids = (k.pairs.entries.filter fun e => e.1.1 = state).map Prod.snd
  derived_nodup : ∀ state ids, k.derived.get? state = some ids → ids.Nodup
  derived_disjoint : ∀ state state' ids ids', k.derived.get? state = some ids →
    k.derived.get? state' = some ids' → state ≠ state' → List.Disjoint ids ids'
  mem_derived_iff : ∀ id,
    (∃ state ids, k.derived.get? state = some ids ∧ id ∈ ids) ↔ id ∈ k.outputs.keys

namespace Coherent

variable {k : Synthesis} (h : k.Coherent)
include h

theorem splits_ne_nil_iff {state : String} : k.splits state ≠ [] ↔ state ∈ k.derived.keys := by
  rw [h.mem_derived, h.splits_eq]
  simp [OrderedMap.keys]

theorem get?_derived_iff {state : String} {ids : List String} :
    k.derived.get? state = some ids ↔ ids ≠ [] ∧ ids = k.splits state := by
  constructor
  · intro hids
    have hsplits : k.splits state = ids := by rw [splits, hids, Option.getD_some]
    have hkey : state ∈ k.derived.keys := OrderedMap.mem_keys_iff_exists.mpr ⟨ids, hids⟩
    exact ⟨hsplits ▸ h.splits_ne_nil_iff.mpr hkey, hsplits.symm⟩
  · rintro ⟨hne, rfl⟩
    obtain ⟨ids, hids⟩ := OrderedMap.mem_keys_iff_exists.mp (h.splits_ne_nil_iff.mp hne)
    rw [splits, hids, Option.getD_some]

theorem mapsAgree : k.MapsAgree where
  pairs_injective _ _ _ hp hq := h.pair_unique hp hq
  mem_ids_iff _ := h.mem_keys_outputs.symm
  output_eq _ _ _ hid := h.get?_outputs hid
  derived_iff state ids := by rw [h.get?_derived_iff, h.splits_eq]
  derived_nodup state ids hids := by
    rw [(h.get?_derived_iff.mp hids).2, h.splits_eq]
    exact h.nodup_ids.sublist (List.filter_sublist.map _)
  derived_disjoint state state' ids ids' hids hids' hne id hid hid' := by
    rw [(h.get?_derived_iff.mp hids).2] at hid
    rw [(h.get?_derived_iff.mp hids').2] at hid'
    obtain ⟨output, hp⟩ := h.mem_splits.mp hid
    obtain ⟨output', hp'⟩ := h.mem_splits.mp hid'
    exact hne (congrArg Prod.fst (h.pair_unique hp hp'))
  mem_derived_iff id := by
    rw [h.mem_keys_outputs]
    constructor
    · rintro ⟨state, ids, hids, hid⟩
      rw [(h.get?_derived_iff.mp hids).2] at hid
      obtain ⟨output, hp⟩ := h.mem_splits.mp hid
      exact ⟨(state, output), hp⟩
    · rintro ⟨⟨state, output⟩, hp⟩
      have hid := h.mem_splits.mpr ⟨output, hp⟩
      exact ⟨state, _, h.get?_derived_iff.mpr ⟨List.ne_nil_of_mem hid, rfl⟩, hid⟩

theorem requests {k' : Synthesis} (hk : Requests k k') : k'.Coherent := by
  cases hk with
  | nothing => exact h
  | intern state output => exact coherent_intern h state output
  | noticed state output => exact coherent_intern (coherent_report h state output) state output

end Coherent

/-- **The maps are in step throughout the work.** -/
theorem Reached.coherent {k : Synthesis} {stage : Stage} (h : Reached m stage k) :
    k.Coherent := by
  induction h with
  | start => exact coherent_empty
  | next _ hs ih => exact ih.requests (round_eq_ok hs).1

end Synthesis

end Transducers
