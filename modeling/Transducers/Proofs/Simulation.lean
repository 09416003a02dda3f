import Mathlib.Data.List.Forall2
import Transducers.Proofs.MooreStates
import Transducers.Trace

/-!
# The converted machine simulates the machine it was made from

A Moore state simulates the state it was split from.  On a declared state and
symbol both machines step, to a state and one of its Moore states; on any other the
Moore machine has no transition, whatever the Mealy machine does there.

* `step_declared`, `step_undeclared`: one symbol;
* `stepsFrom_mirrors`, `stepsFrom_stops`: a word, by induction on it;
* `run_mirrors`, `run_stops`: the runs from the initial states;
* `run_toMoore`: what a run of the converted machine is, over any word.
-/

namespace Transducers

namespace Mealy

/-- The step leaves a declared state on a declared symbol. -/
def Declares (m : Mealy) (step : Step) : Prop :=
  step.state ∈ m.states ∧ step.symbol ∈ m.inputSymbols

/-- The Moore step `b` answers the Mealy step `a`: it reads and emits the same, and
goes from a Moore state of its state to the Moore state of its destination and output. -/
structure Mirrors (m : Mealy) (a b : Step) : Prop where
  symbol : b.symbol = a.symbol
  output : b.output = a.output
  state : m.SplitInto a.state b.state
  next : m.Makes (a.next, a.output) b.next

/-- The initial state and every destination of a declared transition are declared. -/
structure Closed (m : Mealy) : Prop where
  initial : m.initialState ∈ m.states
  next : ∀ state ∈ m.states, ∀ symbol ∈ m.inputSymbols, ∀ t,
    m.transitions.cell? state symbol = some t → t.next ∈ m.states

/-- The run from this state over this word succeeds and leaves only declared states
on declared symbols. -/
def Stays (m : Mealy) (state : String) (word : List String) : Prop :=
  ∃ steps, m.stepsFrom state word = .ok steps ∧ ∀ step ∈ steps, m.Declares step

theorem stepsFrom_cons_of_some {m : Mealy} {state symbol : String} {t : Transition}
    (ht : m.transitions.cell? state symbol = some t) (word : List String) :
    m.stepsFrom state (symbol :: word) = (do
      let steps ← m.stepsFrom t.next word
      return ⟨state, symbol, t.next, t.output⟩ :: steps) := by
  simp only [stepsFrom, transition_eq_ok_iff.mpr ht, bind, Except.bind]

theorem stays_cons {m : Mealy} {state symbol : String} {t : Transition} {word : List String}
    (ht : m.transitions.cell? state symbol = some t) (hs : state ∈ m.states)
    (hx : symbol ∈ m.inputSymbols) : m.Stays state (symbol :: word) ↔ m.Stays t.next word := by
  unfold Stays
  rw [stepsFrom_cons_of_some ht]
  constructor
  · rintro ⟨steps, hrun, hall⟩
    cases hw : m.stepsFrom t.next word with
    | error e =>
      rw [hw] at hrun
      cases hrun
    | ok rest =>
      rw [hw] at hrun
      cases hrun
      exact ⟨rest, rfl, fun step hstep => hall step (List.mem_cons_of_mem _ hstep)⟩
  · rintro ⟨rest, hw, hall⟩
    refine ⟨⟨state, symbol, t.next, t.output⟩ :: rest, by rw [hw]; rfl, ?_⟩
    intro step hstep
    rcases List.mem_cons.mp hstep with rfl | hstep
    · exact ⟨hs, hx⟩
    · exact hall step hstep

/-! ## One symbol -/

section Converted

variable {m : Mealy} {M : Moore} (h : m.toMoore = .ok M)
include h

theorem output_toMoore {p : String × String} {id : String} (hp : m.Makes p id) :
    M.output id = .ok p.2 :=
  Moore.output_eq_ok_iff.mpr (get?_outputs_toMoore h hp)

theorem step_declared {state symbol id : String} {t : Transition} (hid : m.SplitInto state id)
    (hs : state ∈ m.states) (hx : symbol ∈ m.inputSymbols)
    (ht : m.transitions.cell? state symbol = some t) :
    ∃ next, M.transition id symbol = .ok next ∧ m.Makes (t.next, t.output) next := by
  obtain ⟨next, hn⟩ := exists_makes_target h hs hx ht
  have hcell := (cell?_toMoore h).mpr ⟨state, t, hs, hx, hid, ht, hn⟩
  exact ⟨next, Moore.transition_eq_ok_iff.mpr hcell, hn⟩

theorem step_undeclared {state symbol id : String} (hid : m.SplitInto state id)
    (hn : ¬ (state ∈ m.states ∧ symbol ∈ m.inputSymbols)) :
    M.transition id symbol = .error (.missingTransition id symbol) := by
  unfold Moore.transition
  cases hc : M.transitions.cell? id symbol with
  | none => rfl
  | some next =>
    obtain ⟨s, t, hs, hx, ⟨o, ho⟩, -, -⟩ := (cell?_toMoore h).mp hc
    obtain ⟨o', ho'⟩ := hid
    -- a Moore state has one pair, so `s` is `state`
    have hpair := Makes.unique h ho ho'
    simp only [Prod.mk.injEq] at hpair
    exact absurd ⟨hpair.1 ▸ hs, hx⟩ hn

/-! ## A word -/

/-- Along steps that stay within what is declared, the Moore machine mirrors each. -/
theorem stepsFrom_mirrors {state id : String} {word : List String} {steps : List Step}
    (hid : m.SplitInto state id) (hrun : m.stepsFrom state word = .ok steps)
    (hall : ∀ step ∈ steps, m.Declares step) :
    ∃ steps', M.stepsFrom id word = .ok steps' ∧ List.Forall₂ m.Mirrors steps steps' := by
  induction word generalizing state id steps with
  | nil =>
    cases hrun
    exact ⟨[], rfl, List.Forall₂.nil⟩
  | cons x word ih =>
    cases ht : m.transitions.cell? state x with
    | none => simp [stepsFrom, transition_of_none ht, bind, Except.bind] at hrun
    | some t =>
      rw [stepsFrom_cons_of_some ht] at hrun
      cases hw : m.stepsFrom t.next word with
      | error e =>
        rw [hw] at hrun
        cases hrun
      | ok rest =>
        rw [hw] at hrun
        cases hrun
        obtain ⟨hs, hx⟩ := hall _ List.mem_cons_self
        obtain ⟨next, htr, hn⟩ := step_declared h hid hs hx ht
        obtain ⟨rest', hrest, hmirror⟩ := ih ⟨t.output, hn⟩ hw
          fun step hstep => hall step (List.mem_cons_of_mem _ hstep)
        refine ⟨⟨id, x, next, t.output⟩ :: rest', ?_, List.Forall₂.cons ⟨rfl, rfl, hid, hn⟩ hmirror⟩
        simp only [Moore.stepsFrom, htr, output_toMoore h hn, hrest, bind, Except.bind]
        rfl

/-- A run that does not stay within what is declared is stopped at the first step
out of it, and mirrored up to there. -/
theorem stepsFrom_stops {state id : String} {word : List String} (hid : m.SplitInto state id)
    (hout : ¬ m.Stays state word) :
    ∃ before symbol after steps steps', word = before ++ symbol :: after ∧
      m.stepsFrom state before = .ok steps ∧ (∀ step ∈ steps, m.Declares step) ∧
      ¬ (lastState state steps ∈ m.states ∧ symbol ∈ m.inputSymbols) ∧
      M.stepsFrom id before = .ok steps' ∧ List.Forall₂ m.Mirrors steps steps' ∧
      m.SplitInto (lastState state steps) (lastState id steps') ∧
      M.stepsFrom id word = .error (.missingTransition (lastState id steps') symbol) := by
  induction word generalizing state id with
  | nil => exact absurd ⟨[], rfl, by simp⟩ hout
  | cons x word ih =>
    by_cases hd : state ∈ m.states ∧ x ∈ m.inputSymbols
    · obtain ⟨hs, hx⟩ := hd
      obtain ⟨t, ht⟩ := exists_cell? h hs hx
      obtain ⟨next, htr, hn⟩ := step_declared h hid hs hx ht
      rw [stays_cons ht hs hx] at hout
      obtain ⟨before, y, after, steps, steps', rfl, hrun, hall, hy, hrun', hmirror, hlast, herr⟩ :=
        ih ⟨t.output, hn⟩ hout
      refine ⟨x :: before, y, after, ⟨state, x, t.next, t.output⟩ :: steps,
        ⟨id, x, next, t.output⟩ :: steps', rfl, ?_, ?_, ?_, ?_, ?_, ?_, ?_⟩
      · rw [stepsFrom_cons_of_some ht, hrun]
        rfl
      · intro step hstep
        rcases List.mem_cons.mp hstep with rfl | hstep
        · exact ⟨hs, hx⟩
        · exact hall step hstep
      · rw [lastState_cons]
        exact hy
      · simp only [Moore.stepsFrom, htr, output_toMoore h hn, hrun', bind, Except.bind]
        rfl
      · exact List.Forall₂.cons ⟨rfl, rfl, hid, hn⟩ hmirror
      · rw [lastState_cons, lastState_cons]
        exact hlast
      · rw [lastState_cons]
        simp only [Moore.stepsFrom, htr, output_toMoore h hn, herr, bind,
          Except.bind]
    · have herr := step_undeclared h hid hd
      refine ⟨[], x, word, [], [], rfl, rfl, by simp, hd, rfl, List.Forall₂.nil, hid, ?_⟩
      simp only [Moore.stepsFrom, herr, bind, Except.bind]
      rfl

omit h in
/-- Mirrored steps emit the same. -/
theorem outputs_of_mirrors {steps steps' : List Step} (hm : List.Forall₂ m.Mirrors steps steps') :
    steps'.map Step.output = steps.map Step.output := by
  induction hm with
  | nil => rfl
  | cons hstep _ ih => rw [List.map_cons, List.map_cons, hstep.output, ih]

end Converted

/-- On a closed machine without gaps, every word over the declared symbols stays
within what is declared. -/
theorem Closed.stays {m : Mealy} (hc : m.Closed) (ht : m.firstMissing? = none) {state : String}
    (hs : state ∈ m.states) {word : List String} (hw : ∀ x ∈ word, x ∈ m.inputSymbols) :
    m.Stays state word := by
  induction word generalizing state with
  | nil => exact ⟨[], rfl, by simp⟩
  | cons x word ih =>
    have hx := hw x List.mem_cons_self
    have hcell := List.find?_eq_none.mp ht (state, x) (mem_declaredPairs.mpr ⟨hs, hx⟩)
    obtain ⟨t, ht'⟩ := Option.ne_none_iff_exists'.mp (by simpa using hcell)
    exact (stays_cons ht' hs hx).mpr
      (ih (hc.next state hs x hx t ht') fun y hy => hw y (List.mem_cons_of_mem _ hy))

theorem run_eq_ok_iff {m : Mealy} {word : List String} {t : Trace} :
    m.run word = .ok t ↔ ∃ steps, m.stepsFrom m.initialState word = .ok steps ∧
      t = ⟨m.initialState, none, steps⟩ := by
  unfold run
  cases m.stepsFrom m.initialState word with
  | error e => simp [bind, Except.bind]
  | ok steps => simp [bind, Except.bind, pure, Except.pure, eq_comm]

theorem run_of_stays {m : Mealy} {word : List String} (h : m.Stays m.initialState word) :
    ∃ t, m.run word = .ok t ∧ ∀ step ∈ t.steps, m.Declares step := by
  obtain ⟨steps, hrun, hall⟩ := h
  exact ⟨_, run_eq_ok_iff.mpr ⟨steps, hrun, rfl⟩, hall⟩

/-- A run of the converted machine is a run from its initial state, which has an output. -/
theorem exists_run_toMoore {m : Mealy} {M : Moore} (h : m.toMoore = .ok M) (word : List String) :
    ∃ output, M.run word = (do
      let steps ← M.stepsFrom M.initialState word
      return ⟨M.initialState, some output, steps⟩) := by
  obtain ⟨output, ho⟩ := splitInto_initialState h
  exact ⟨output, by simp only [Moore.run, output_toMoore h ho, bind, Except.bind]⟩

theorem run_mirrors {m : Mealy} {M : Moore} (h : m.toMoore = .ok M) {word : List String}
    {t : Trace} (ht : m.run word = .ok t) (hall : ∀ step ∈ t.steps, m.Declares step) :
    ∃ t', M.run word = .ok t' ∧ List.Forall₂ m.Mirrors t.steps t'.steps := by
  obtain ⟨steps, hrun, rfl⟩ := run_eq_ok_iff.mp ht
  obtain ⟨steps', hrun', hm⟩ := stepsFrom_mirrors h (splitInto_initialState h) hrun hall
  obtain ⟨output, ho⟩ := exists_run_toMoore h word
  exact ⟨⟨M.initialState, some output, steps'⟩, by rw [ho, hrun']; rfl, hm⟩

/-- Over the declared symbols a closed machine and its Moore machine answer alike. -/
theorem Closed.run_toMoore_eq {m : Mealy} {M : Moore} (hc : m.Closed) (h : m.toMoore = .ok M)
    {word : List String} (hw : ∀ x ∈ word, x ∈ m.inputSymbols) :
    ∃ t t', m.run word = .ok t ∧ M.run word = .ok t' ∧ t'.outputs = t.outputs := by
  obtain ⟨k, start, hk, -⟩ := toMoore_eq_ok h
  have htotal := (Synthesis.finished_of_ofMealy hk).total
  obtain ⟨t, ht, hall⟩ := run_of_stays (hc.stays htotal hc.initial hw)
  obtain ⟨t', ht', hm⟩ := run_mirrors h ht hall
  exact ⟨t, t', ht, ht', outputs_of_mirrors hm⟩

/-- A run that does not stay within what is declared succeeds up to the first step
out of it, and is stopped there. -/
theorem run_stops {m : Mealy} {M : Moore} (h : m.toMoore = .ok M) {word : List String}
    (hout : ¬ m.Stays m.initialState word) :
    ∃ before symbol after t t', word = before ++ symbol :: after ∧
      m.run before = .ok t ∧ (∀ step ∈ t.steps, m.Declares step) ∧
      ¬ (t.finalState ∈ m.states ∧ symbol ∈ m.inputSymbols) ∧
      M.run before = .ok t' ∧ m.SplitInto t.finalState t'.finalState ∧
      M.run word = .error (.missingTransition t'.finalState symbol) := by
  obtain ⟨before, x, after, steps, steps', hword, hrun, hall, hx, hrun', -, hlast, herr⟩ :=
    stepsFrom_stops h (splitInto_initialState h) hout
  obtain ⟨output, ho⟩ := exists_run_toMoore h before
  obtain ⟨output', ho'⟩ := exists_run_toMoore h word
  refine ⟨before, x, after, ⟨m.initialState, none, steps⟩, ⟨M.initialState, some output, steps'⟩,
    hword, run_eq_ok_iff.mpr ⟨steps, hrun, rfl⟩, hall, hx, ?_, hlast, ?_⟩
  · rw [ho, hrun']
    rfl
  · rw [ho', herr]
    rfl

/-- The converted machine runs over the words on which nothing undeclared is met. -/
theorem exists_run_iff_stays {m : Mealy} {M : Moore} (h : m.toMoore = .ok M)
    {word : List String} : (∃ t', M.run word = .ok t') ↔ m.Stays m.initialState word := by
  constructor
  · rintro ⟨t', ht'⟩
    by_contra hout
    obtain ⟨_, _, _, _, _, -, -, -, -, -, -, herr⟩ := run_stops h hout
    rw [ht'] at herr
    cases herr
  · intro hstays
    obtain ⟨t, ht, hall⟩ := run_of_stays hstays
    obtain ⟨t', ht', -⟩ := run_mirrors h ht hall
    exact ⟨t', ht'⟩

/-- **A run of the converted machine.**  It succeeds exactly when the run of the
Mealy machine does and leaves only declared states on declared symbols, and then
mirrors it step by step; otherwise it is stopped at the first step out of what is
declared.  On a closed machine no word over the declared symbols is stopped. -/
theorem run_toMoore {m : Mealy} {M : Moore} (h : m.toMoore = .ok M) (word : List String) :
    ((∃ t', M.run word = .ok t') ↔
      ∃ t, m.run word = .ok t ∧ ∀ step ∈ t.steps, m.Declares step) ∧
    (∀ t t', m.run word = .ok t → M.run word = .ok t' →
      t'.outputs = t.outputs ∧ List.Forall₂ m.Mirrors t.steps t'.steps) ∧
    ((¬ ∃ t', M.run word = .ok t') →
      ∃ before symbol after t t', word = before ++ symbol :: after ∧
        m.run before = .ok t ∧ (∀ step ∈ t.steps, m.Declares step) ∧
        ¬ (t.finalState ∈ m.states ∧ symbol ∈ m.inputSymbols) ∧
        M.run before = .ok t' ∧ m.SplitInto t.finalState t'.finalState ∧
        M.run word = .error (.missingTransition t'.finalState symbol)) ∧
    (m.Closed → (∀ x ∈ word, x ∈ m.inputSymbols) →
      ∃ t t', m.run word = .ok t ∧ M.run word = .ok t' ∧ t'.outputs = t.outputs) := by
  have hiff : (∃ t', M.run word = .ok t') ↔ m.Stays m.initialState word :=
    exists_run_iff_stays h
  refine ⟨hiff.trans ⟨run_of_stays, ?_⟩, ?_, fun hno => run_stops h (mt hiff.mpr hno), ?_⟩
  · rintro ⟨t, ht, hall⟩
    obtain ⟨steps, hrun, rfl⟩ := run_eq_ok_iff.mp ht
    exact ⟨steps, hrun, hall⟩
  · intro t t' ht ht'
    obtain ⟨steps, hrun, hall⟩ := hiff.mp ⟨t', ht'⟩
    obtain ⟨steps₁, hrun₁, rfl⟩ := run_eq_ok_iff.mp ht
    rw [hrun] at hrun₁
    cases hrun₁
    obtain ⟨t₂, ht₂, hm⟩ := run_mirrors h ht hall
    rw [ht'] at ht₂
    cases ht₂
    exact ⟨outputs_of_mirrors hm, hm⟩
  · exact fun hc hw => hc.run_toMoore_eq h hw

/-- Two pairs of this machine have the same name, and so the second Moore state gets
an apostrophe. -/
def colliding : Mealy :=
  ((((Mealy.new "A").withTransition "A" "0" "A_b" "c").withTransition "A" "1" "A"
    "b_c").withTransition "A_b" "0" "A" "b_c").withTransition "A_b" "1" "A" "b_c"

theorem run_toMoore_colliding :
    ∃ M, colliding.toMoore = .ok M ∧ M.states = ["A_b_c", "A_b_c'"] ∧
      ∃ t t', colliding.run ["0", "1", "1"] = .ok t ∧ M.run ["0", "1", "1"] = .ok t' ∧
        t'.outputs = t.outputs := by
  refine ⟨_, rfl, rfl, (run_toMoore (m := colliding) rfl ["0", "1", "1"]).2.2.2 ?_ ?_⟩
  · exact ⟨by decide, by decide⟩
  · decide

end Mealy

end Transducers
