import Mathlib.Data.List.Chain
import Transducers.Machine

/-!
# Runs over words put together

A run keeps nothing but the state that it is in.  So a run over two words is a run over the
first and, from the state where that ends, a run over the second.  A Moore machine looks up the
output of its initial state, too, but the state where a run ends had its output looked up when
it was entered: to go on from there never fails for want of it.

* `Machine.step`, `Machine.stepsFrom_cons`: machines of both kinds go step by step;
* `ReadsFrom`, `Machine.readsFrom_of_stepsFrom`: the steps read the word, and each leaves the
  state that the one before it entered;
* `Machine.exists_opening_lastState`: a run ends in a state that has the output it needs;
* `Machine.run_append_eq`: a run over two words as one equation;
* `Machine.run_composes`: all of it.
-/

namespace Transducers

/-! ## Steps that read a word -/

/-- The steps read the word symbol by symbol.  The first one leaves the given state, and each
later one leaves the state that the one before it entered. -/
structure ReadsFrom (start : String) (word : List String) (steps : List Step) : Prop where
  symbols : steps.map Step.symbol = word
  first : ∀ step, steps.head? = some step → step.state = start
  linked : steps.IsChain fun step later => later.state = step.next

namespace ReadsFrom

theorem nil (start : String) : ReadsFrom start [] [] where
  symbols := rfl
  first _ h := by cases h
  linked := .nil

theorem cons {step : Step} {word : List String} {steps : List Step}
    (h : ReadsFrom step.next word steps) :
    ReadsFrom step.state (step.symbol :: word) (step :: steps) where
  symbols := by rw [List.map_cons, h.symbols]
  first s hs := by rw [Option.some.inj hs]
  linked := by
    cases steps with
    | nil => exact .singleton step
    | cons later rest => exact .cons_cons (h.first later rfl) h.linked

theorem length_eq {start : String} {word : List String} {steps : List Step}
    (h : ReadsFrom start word steps) : steps.length = word.length := by
  rw [← h.symbols, List.length_map]

end ReadsFrom

/-- A trace, and then the steps of another. -/
def Trace.before (t t' : Trace) : Trace := { t with steps := t.steps ++ t'.steps }

namespace Machine

/-! ## Machines of both kinds, step by step -/

def initialState : Machine → String
  | mealy m => m.initialState
  | moore m => m.initialState

/-- The machine with another initial state. -/
def startingIn : Machine → String → Machine
  | mealy m, state => mealy { m with initialState := state }
  | moore m, state => moore { m with initialState := state }

/-- One symbol read in a state. -/
def step : Machine → (state symbol : String) → Except MachineError Step
  | mealy m, state, symbol => do
    let t ← m.transition state symbol
    return ⟨state, symbol, t.next, t.output⟩
  | moore m, state, symbol => do
    let next ← m.transition state symbol
    let output ← m.output next
    return ⟨state, symbol, next, output⟩

/-- The steps over a word from a given state. -/
def stepsFrom : Machine → (state : String) → List String → Except MachineError (List Step)
  | mealy m, state, word => m.stepsFrom state word
  | moore m, state, word => m.stepsFrom state word

/-- What a run reports before it reads anything, if it starts in this state. -/
def opening : Machine → (state : String) → Except MachineError (Option String)
  | mealy _, _ => .ok none
  | moore m, state => do
    let output ← m.output state
    return some output

theorem stepsFrom_nil (m : Machine) (state : String) : m.stepsFrom state [] = .ok [] := by
  cases m <;> rfl

theorem stepsFrom_cons (m : Machine) (state symbol : String) (word : List String) :
    m.stepsFrom state (symbol :: word) = (do
      let step ← m.step state symbol
      let steps ← m.stepsFrom step.next word
      return step :: steps) := by
  cases m with
  | mealy m =>
    simp only [stepsFrom, step, Mealy.stepsFrom]
    cases m.transition state symbol <;> rfl
  | moore m =>
    simp only [stepsFrom, step, Moore.stepsFrom]
    cases m.transition state symbol with
    | error e => rfl
    | ok next =>
      simp only [bind, Except.bind]
      cases m.output next <;> rfl

theorem stepsFrom_append (m : Machine) (state : String) (u v : List String) :
    m.stepsFrom state (u ++ v) = (do
      let first ← m.stepsFrom state u
      let second ← m.stepsFrom (lastState state first) v
      return first ++ second) := by
  cases m with
  | mealy m => exact m.stepsFrom_append state u v
  | moore m => exact m.stepsFrom_append state u v

theorem run_eq (m : Machine) (word : List String) :
    m.run word = (do
      let output ← m.opening m.initialState
      let steps ← m.stepsFrom m.initialState word
      return ⟨m.initialState, output, steps⟩) := by
  cases m with
  | mealy m => rfl
  | moore m =>
    simp only [run, opening, initialState, stepsFrom, Moore.run]
    cases m.output m.initialState <;> rfl

/-- From a given state on, the initial state does not matter. -/
theorem stepsFrom_startingIn (m : Machine) (start state : String) (word : List String) :
    (m.startingIn start).stepsFrom state word = m.stepsFrom state word := by
  induction word generalizing state with
  | nil => rw [stepsFrom_nil, stepsFrom_nil]
  | cons x word ih =>
    have hstep : (m.startingIn start).step state x = m.step state x := by cases m <;> rfl
    simp only [stepsFrom_cons, hstep, ih]

theorem run_startingIn (m : Machine) (start : String) (word : List String) :
    (m.startingIn start).run word = (do
      let output ← m.opening start
      let steps ← m.stepsFrom start word
      return ⟨start, output, steps⟩) := by
  have hstart : (m.startingIn start).initialState = start := by cases m <;> rfl
  have hopening : (m.startingIn start).opening start = m.opening start := by cases m <;> rfl
  rw [run_eq, hstart, hopening, stepsFrom_startingIn]

/-! ## One step, and all of them -/

theorem step_eq_ok {m : Machine} {state symbol : String} {step : Step}
    (h : m.step state symbol = .ok step) :
    step.state = state ∧ step.symbol = symbol ∧ ∃ output, m.opening step.next = .ok output := by
  cases m with
  | mealy m =>
    simp only [Machine.step] at h
    cases ht : m.transition state symbol with
    | error e => simp [ht, bind, Except.bind] at h
    | ok t =>
      simp only [ht, bind, Except.bind, pure, Except.pure, Except.ok.injEq] at h
      subst h
      exact ⟨rfl, rfl, none, rfl⟩
  | moore m =>
    simp only [Machine.step] at h
    cases ht : m.transition state symbol with
    | error e => simp [ht, bind, Except.bind] at h
    | ok next =>
      cases ho : m.output next with
      | error e => simp [ht, ho, bind, Except.bind] at h
      | ok output =>
        simp only [ht, ho, bind, Except.bind, pure, Except.pure, Except.ok.injEq] at h
        subst h
        exact ⟨rfl, rfl, some output, by simp only [opening, ho, bind, Except.bind]; rfl⟩

/-- The first step of a run, and the run from the state that it enters. -/
theorem stepsFrom_cons_eq_ok {m : Machine} {state symbol : String} {word : List String}
    {steps : List Step} (h : m.stepsFrom state (symbol :: word) = .ok steps) :
    ∃ step rest, m.step state symbol = .ok step ∧ m.stepsFrom step.next word = .ok rest ∧
      steps = step :: rest := by
  rw [stepsFrom_cons] at h
  cases hstep : m.step state symbol with
  | error e => simp [hstep, bind, Except.bind] at h
  | ok step =>
    cases hrest : m.stepsFrom step.next word with
    | error e => simp [hstep, hrest, bind, Except.bind] at h
    | ok rest =>
      simp only [hstep, hrest, bind, Except.bind, pure, Except.pure, Except.ok.injEq] at h
      exact ⟨step, rest, rfl, hrest, h.symm⟩

theorem readsFrom_of_stepsFrom {m : Machine} {state : String} {word : List String}
    {steps : List Step} (h : m.stepsFrom state word = .ok steps) :
    ReadsFrom state word steps := by
  induction word generalizing state steps with
  | nil =>
    rw [stepsFrom_nil] at h
    cases h
    exact .nil state
  | cons x word ih =>
    obtain ⟨step, rest, hstep, hrest, rfl⟩ := stepsFrom_cons_eq_ok h
    obtain ⟨rfl, rfl, -⟩ := step_eq_ok hstep
    exact .cons (ih hrest)

/-- **A run ends where another can start.**  Every state that is entered has the output that
the machine needs of it. -/
theorem exists_opening_lastState {m : Machine} {state : String} {word : List String}
    {steps : List Step} {output : Option String} (ho : m.opening state = .ok output)
    (h : m.stepsFrom state word = .ok steps) :
    ∃ output', m.opening (lastState state steps) = .ok output' := by
  induction word generalizing state steps output with
  | nil =>
    rw [stepsFrom_nil] at h
    cases h
    exact ⟨output, ho⟩
  | cons x word ih =>
    obtain ⟨step, rest, hstep, hrest, rfl⟩ := stepsFrom_cons_eq_ok h
    obtain ⟨-, -, output', ho'⟩ := step_eq_ok hstep
    rw [lastState_cons]
    exact ih ho' hrest

/-! ## Runs over two words -/

theorem run_eq_ok_iff {m : Machine} {word : List String} {t : Trace} :
    m.run word = .ok t ↔ ∃ output steps, m.opening m.initialState = .ok output ∧
      m.stepsFrom m.initialState word = .ok steps ∧ t = ⟨m.initialState, output, steps⟩ := by
  rw [run_eq]
  cases m.opening m.initialState with
  | error e => simp [bind, Except.bind]
  | ok output =>
    cases m.stepsFrom m.initialState word with
    | error e => simp [bind, Except.bind]
    | ok steps => simp [bind, Except.bind, pure, Except.pure, eq_comm]

theorem run_append_eq (m : Machine) (u v : List String) :
    m.run (u ++ v) = (do
      let t ← m.run u
      let t' ← (m.startingIn t.finalState).run v
      return t.before t') := by
  rw [run_eq, run_eq, stepsFrom_append]
  cases ho : m.opening m.initialState with
  | error e => rfl
  | ok output =>
    cases hu : m.stepsFrom m.initialState u with
    | error e => rfl
    | ok first =>
      obtain ⟨output', ho'⟩ := exists_opening_lastState ho hu
      simp only [bind, Except.bind, pure, Except.pure, Trace.finalState, run_startingIn, ho']
      cases m.stepsFrom (lastState m.initialState first) v <;> rfl

/-- **Runs compose.**  A word on which a run fails makes every longer one fail in the same way.
After a word on which it succeeds a run goes on exactly as a run of the machine that starts
where it ended: it succeeds if that does, with the steps of both, and fails in the same way if
it fails.  The steps of every run read the word: there are as many, each with its symbol, the
first leaves the initial state and each later one the state that was entered before. -/
theorem run_composes (m : Machine) (u v : List String) :
    (∀ e, m.run u = .error e → m.run (u ++ v) = .error e) ∧
    (∀ t, m.run u = .ok t →
      ((∃ t', m.run (u ++ v) = .ok t') ↔ ∃ t', (m.startingIn t.finalState).run v = .ok t') ∧
      (∀ t', (m.startingIn t.finalState).run v = .ok t' →
        m.run (u ++ v) = .ok ⟨t.initialState, t.initialOutput, t.steps ++ t'.steps⟩) ∧
      (∀ e, (m.startingIn t.finalState).run v = .error e → m.run (u ++ v) = .error e)) ∧
    (∀ t, m.run u = .ok t → t.initialState = m.initialState ∧
      t.steps.length = u.length ∧ ReadsFrom m.initialState u t.steps) := by
  refine ⟨fun e he => ?_, fun t ht => ?_, fun t ht => ?_⟩
  · rw [run_append_eq, he]
    rfl
  · have hjoin : m.run (u ++ v) = ((m.startingIn t.finalState).run v).map t.before := by
      rw [run_append_eq, ht]
      simp only [bind, Except.bind]
      cases (m.startingIn t.finalState).run v <;> rfl
    rw [hjoin]
    cases (m.startingIn t.finalState).run v with
    | error e => simp [Except.map]
    | ok t' => simp [Except.map, Trace.before]
  · obtain ⟨output, steps, -, hsteps, rfl⟩ := run_eq_ok_iff.mp ht
    have hreads := readsFrom_of_stepsFrom hsteps
    exact ⟨rfl, hreads.length_eq, hreads⟩

/-- A machine that has no output for `C`, where `1` leads from `B`. -/
def fading : Moore where
  states := ["A", "B", "C"]
  inputSymbols := ["0", "1"]
  transitions := .ofList [("A", .ofList [("0", "B")]), ("B", .ofList [("0", "A"), ("1", "C")])]
  outputs := .ofList [("A", "x"), ("B", "y")]
  initialState := "A"

/-- A run that fails before, two that go on after `0`, and one that fails after it. -/
theorem run_composes_fading :
    (moore fading).run ["1", "0"] = .error (.missingTransition "A" "1") ∧
    (∃ t t', (moore fading).run ["0"] = .ok t ∧ t.finalState = "B" ∧
      ((moore fading).startingIn "B").run ["0", "0"] = .ok t' ∧
      (moore fading).run ["0", "0", "0"] = .ok ⟨"A", some "x", t.steps ++ t'.steps⟩ ∧
      ReadsFrom "A" ["0"] t.steps) ∧
    ((moore fading).startingIn "B").run ["1"] = .error (.missingOutput "C") ∧
    (moore fading).run ["0", "1"] = .error (.missingOutput "C") := by
  obtain ⟨hfails, -, -⟩ := run_composes (moore fading) ["1"] ["0"]
  obtain ⟨-, hgoesOn, hreads⟩ := run_composes (moore fading) ["0"] ["0", "0"]
  obtain ⟨-, hstops, -⟩ := run_composes (moore fading) ["0"] ["1"]
  refine ⟨hfails _ rfl, ⟨_, _, rfl, rfl, rfl, ?_, (hreads _ rfl).2.2⟩, rfl, ?_⟩
  · exact (hgoesOn _ rfl).2.1 _ rfl
  · exact (hstops _ rfl).2.2 _ rfl

end Machine

end Transducers
