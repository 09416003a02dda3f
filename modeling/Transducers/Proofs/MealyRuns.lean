import Transducers.Proofs.RoundTrip
import Transducers.Proofs.Simulation

/-!
# Runs of the Mealy machine that a conversion makes

The Mealy machine keeps the transitions of declared states on declared symbols and no
other.  As long as nothing else is met on the way, both machines go through the same
steps; the first pair that is not declared stops the Mealy machine, while the Moore
machine may have a row for it.

* `visited`: the states and symbols that are met on the way over a word;
* `exists_stepsFrom_iff_visited`: a run of a Mealy machine ends well exactly if all of
  them have a transition;
* `visited_declared_iff`: the two machines meet something undeclared on the same words;
* `run_toMealy`: what a run of the converted machine says about the Moore machine.
-/

namespace Transducers

/-! ## What is met on the way -/

/-- The states, each with the symbol read there, on the way over a word.  The last of
them is the first that has no next state. -/
def visited (next? : String → String → Option String) (state : String) :
    List String → List (String × String)
  | [] => []
  | symbol :: word =>
    (state, symbol) ::
      match next? state symbol with
      | some next => visited next? next word
      | none => []

/-- Nothing more is met after a pair without a next state. -/
theorem visited_cons_of_none {next? : String → String → Option String} {state symbol : String}
    (h : next? state symbol = none) (word : List String) :
    visited next? state (symbol :: word) = [(state, symbol)] := by
  simp [visited, h]

theorem visited_cons_of_some {next? : String → String → Option String}
    {state symbol next : String} (h : next? state symbol = some next) (word : List String) :
    visited next? state (symbol :: word) = (state, symbol) :: visited next? next word := by
  simp [visited, h]

namespace Mealy

/-- Where a transition of the table leads. -/
def next? (m : Mealy) (state symbol : String) : Option String :=
  (m.transitions.cell? state symbol).map Transition.next

/-- A run ends well exactly if everything that it meets has a transition. -/
theorem exists_stepsFrom_iff_visited {m : Mealy} {state : String} {word : List String} :
    (∃ steps, m.stepsFrom state word = .ok steps) ↔
      ∀ p ∈ visited m.next? state word, (m.next? p.1 p.2).isSome := by
  induction word generalizing state with
  | nil => simp [stepsFrom, visited]
  | cons x word ih =>
    cases ht : m.transitions.cell? state x with
    | none =>
      have hn : m.next? state x = none := by simp [next?, ht]
      rw [visited_cons_of_none hn]
      simp [stepsFrom, transition_of_none ht, hn, bind, Except.bind]
    | some t =>
      have hn : m.next? state x = some t.next := by simp [next?, ht]
      have hstep : (∃ steps, m.stepsFrom state (x :: word) = .ok steps) ↔
          ∃ steps, m.stepsFrom t.next word = .ok steps := by
        rw [stepsFrom_cons_of_some ht]
        cases m.stepsFrom t.next word <;> simp [bind, Except.bind, pure, Except.pure]
      rw [hstep, ih, visited_cons_of_some hn, List.forall_mem_cons]
      simp [hn]

theorem exists_run_iff {m : Mealy} {word : List String} :
    (∃ t, m.run word = .ok t) ↔ ∃ steps, m.stepsFrom m.initialState word = .ok steps := by
  constructor
  · rintro ⟨t, ht⟩
    obtain ⟨steps, hrun, -⟩ := run_eq_ok_iff.mp ht
    exact ⟨steps, hrun⟩
  · rintro ⟨steps, hrun⟩
    exact ⟨_, run_eq_ok_iff.mpr ⟨steps, hrun, rfl⟩⟩

end Mealy

namespace Moore

/-- Where the table leads. -/
def next? (m : Moore) (state symbol : String) : Option String := m.transitions.cell? state symbol

/-- A declared state and a declared symbol. -/
def Declares (m : Moore) (p : String × String) : Prop := p.1 ∈ m.states ∧ p.2 ∈ m.inputSymbols

/-- The initial state and every destination of a declared transition are declared. -/
structure Closed (m : Moore) : Prop where
  initial : m.initialState ∈ m.states
  next : ∀ state ∈ m.states, ∀ symbol ∈ m.inputSymbols, ∀ next,
    m.transition state symbol = .ok next → next ∈ m.states

/-! ## The two machines -/

section Converted

variable {m : Moore} {n : Mealy} (h : m.toMealy = .ok n)
include h

/-- On what is declared the converted machine goes where the Moore machine goes. -/
theorem next?_toMealy {state symbol : String} (hd : m.Declares (state, symbol)) :
    ∃ next, n.next? state symbol = some next ∧ m.next? state symbol = some next := by
  obtain ⟨hs, hx⟩ := hd
  obtain ⟨t, ht⟩ := exists_toMealy_iff.mp ⟨n, h⟩ state hs symbol hx
  have hcell := transitionTo_eq_ok_iff.mp ht
  have hn : n.transitions.cell? state symbol = some t :=
    (cell?_toMealy h).mpr ⟨hs, hx, hcell⟩
  exact ⟨t.next, by simp [Mealy.next?, hn], hcell.1⟩

/-- The converted machine has a transition exactly where one is declared. -/
theorem next?_isSome_iff {p : String × String} : (n.next? p.1 p.2).isSome ↔ m.Declares p := by
  constructor
  · intro hn
    obtain ⟨next, hn⟩ := Option.isSome_iff_exists.mp hn
    obtain ⟨t, ht, -⟩ := Option.map_eq_some_iff.mp hn
    obtain ⟨hs, hx, -, -⟩ := (cell?_toMealy h).mp ht
    exact ⟨hs, hx⟩
  · intro hd
    obtain ⟨next, hn, -⟩ := next?_toMealy h hd
    simp [hn]

/-- Whether all that is met is declared does not depend on which machine goes. -/
theorem visited_declared_iff {state : String} {word : List String} :
    (∀ p ∈ visited n.next? state word, m.Declares p) ↔
      ∀ p ∈ visited m.next? state word, m.Declares p := by
  induction word generalizing state with
  | nil => simp [visited]
  | cons x word ih =>
    by_cases hd : m.Declares (state, x)
    · obtain ⟨next, hn, hm⟩ := next?_toMealy h hd
      rw [visited_cons_of_some hn, visited_cons_of_some hm, List.forall_mem_cons,
        List.forall_mem_cons, ih]
    · -- both meet this pair first
      constructor
      · intro hall
        exact absurd (hall _ List.mem_cons_self) hd
      · intro hall
        exact absurd (hall _ List.mem_cons_self) hd

theorem exists_run_toMealy_iff {word : List String} :
    (∃ t, n.run word = .ok t) ↔ ∀ p ∈ visited n.next? n.initialState word, m.Declares p := by
  rw [Mealy.exists_run_iff, Mealy.exists_stepsFrom_iff_visited]
  exact forall₂_congr fun p _ => next?_isSome_iff h

/-- What the converted machine runs over, the Moore machine runs over in the same
steps, if it can be started. -/
theorem run_of_run_toMealy {word : List String} {t : Trace} {output : String}
    (ho : m.outputs.get? m.initialState = some output) (ht : n.run word = .ok t) :
    m.run word = .ok ⟨m.initialState, n.initialOutput, t.steps⟩ := by
  obtain ⟨steps, hrun, rfl⟩ := Mealy.run_eq_ok_iff.mp ht
  rw [initialState_toMealy h] at hrun
  have hsteps := stepsFrom_of_toMealy h hrun
  rw [initialOutput_toMealy h, ho]
  simp only [run, output_eq_ok_iff.mpr ho, hsteps, bind, Except.bind]
  rfl

theorem Closed.toMealy (hc : m.Closed) : n.Closed where
  initial := by
    rw [initialState_toMealy h, states_toMealy h]
    exact hc.initial
  next := by
    intro s _ x _ t ht
    obtain ⟨hs, hx, hcell, -⟩ := (cell?_toMealy h).mp ht
    rw [states_toMealy h]
    exact hc.next s hs x hx t.next (transition_eq_ok_iff.mpr hcell)

theorem Closed.exists_run_toMealy (hc : m.Closed) {word : List String}
    (hw : ∀ x ∈ word, x ∈ m.inputSymbols) : ∃ t, n.run word = .ok t := by
  have hn := hc.toMealy h
  have hwords : ∀ x ∈ word, x ∈ n.inputSymbols := by
    rw [inputSymbols_toMealy h]
    exact hw
  have hstays := hn.stays (firstMissing?_toMealy h) hn.initial hwords
  obtain ⟨t, ht, -⟩ := Mealy.run_of_stays hstays
  exact ⟨t, ht⟩

end Converted

/-- Without an output of its initial state a Moore machine runs over no word. -/
theorem run_of_silent {m : Moore} (ho : m.outputs.get? m.initialState = none)
    (word : List String) : m.run word = .error (.missingOutput m.initialState) := by
  simp only [run, output_eq_error_iff.mpr ho, bind, Except.bind]

/-- **A run of the converted machine.**  If the initial state has an output, the Moore
machine goes through the same steps, and reports first what the converted machine keeps
as its initial output; if it has none, the Moore machine runs over no word.  The
converted machine runs over the words on which only declared states and symbols are met,
whichever machine one follows, and so over all words if nothing leads out of them. -/
theorem run_toMealy {m : Moore} {n : Mealy} (h : m.toMealy = .ok n) (word : List String) :
    (∀ output t, m.outputs.get? m.initialState = some output → n.run word = .ok t →
      ∃ t', m.run word = .ok t' ∧ t'.steps = t.steps ∧ t'.initialState = t.initialState ∧
        t'.initialOutput = n.initialOutput) ∧
    (m.outputs.get? m.initialState = none →
      m.run word = .error (.missingOutput m.initialState)) ∧
    ((∃ t, n.run word = .ok t) ↔
      ∀ p ∈ visited n.next? n.initialState word, p.1 ∈ m.states ∧ p.2 ∈ m.inputSymbols) ∧
    ((∃ t, n.run word = .ok t) ↔
      ∀ p ∈ visited m.next? m.initialState word, p.1 ∈ m.states ∧ p.2 ∈ m.inputSymbols) ∧
    (m.Closed → (∀ x ∈ word, x ∈ m.inputSymbols) → ∃ t, n.run word = .ok t) := by
  refine ⟨?_, fun ho => run_of_silent ho word, exists_run_toMealy_iff h, ?_,
    fun hc hw => hc.exists_run_toMealy h hw⟩
  · intro output t ho ht
    refine ⟨_, run_of_run_toMealy h ho ht, rfl, ?_, rfl⟩
    obtain ⟨steps, -, rfl⟩ := Mealy.run_eq_ok_iff.mp ht
    exact (initialState_toMealy h).symm
  · rw [exists_run_toMealy_iff h, visited_declared_iff h, initialState_toMealy h]
    rfl

/-- The output `x` is shared by two states, and `U` has a row but is not declared. -/
def leaving : Moore where
  states := ["A", "B"]
  inputSymbols := ["0"]
  transitions := .ofList [("A", .ofList [("0", "B"), ("1", "A")]), ("B", .ofList [("0", "U")]),
    ("U", .ofList [("0", "A")])]
  outputs := .ofList [("A", "x"), ("B", "y"), ("U", "x")]
  initialState := "A"

/-- The same machine with all its states declared. -/
def staying : Moore := { leaving with states := ["A", "B", "U"] }

/-- The same machine without an output of its initial state. -/
def silenced : Moore := { leaving with outputs := .ofList [("B", "y"), ("U", "x")] }

/-- Two steps of the first machine are the same; at the third the converted machine has
left what is declared.  The second machine is never left, and the third never runs. -/
theorem run_toMealy_leaving :
    (∃ n, leaving.toMealy = .ok n ∧
      (∃ t t', n.run ["0", "0"] = .ok t ∧ leaving.run ["0", "0"] = .ok t' ∧
        t'.steps = t.steps ∧ t.steps.length = 2) ∧
      (∃ t', leaving.run ["0", "0", "0"] = .ok t') ∧ ¬ ∃ t, n.run ["0", "0", "0"] = .ok t) ∧
    (∃ n, staying.toMealy = .ok n ∧ ∃ t, n.run ["0", "0", "0"] = .ok t) ∧
    (∃ n, silenced.toMealy = .ok n) ∧ silenced.run ["0"] = .error (.missingOutput "A") := by
  refine ⟨⟨_, rfl, ?_, ⟨_, rfl⟩, ?_⟩, ⟨_, rfl, ?_⟩, ⟨_, rfl⟩, ?_⟩
  · obtain ⟨hsame, -, hiff, -, -⟩ := run_toMealy (m := leaving) rfl ["0", "0"]
    obtain ⟨t, ht⟩ := hiff.mpr (by decide)
    obtain ⟨t', ht', hsteps, -, -⟩ := hsame "x" t rfl ht
    refine ⟨t, t', ht, ht', hsteps, ?_⟩
    cases ht
    rfl
  · intro hrun
    obtain ⟨-, -, hiff, -, -⟩ := run_toMealy (m := leaving) rfl ["0", "0", "0"]
    exact absurd (hiff.mp hrun) (by decide)
  · obtain ⟨-, -, -, -, hruns⟩ := run_toMealy (m := staying) rfl ["0", "0", "0"]
    have hnext : ∀ s ∈ staying.states, ∀ x ∈ staying.inputSymbols,
        ∃ next ∈ staying.states, staying.transition s x = .ok next := by decide
    refine hruns ⟨by decide, fun s hs x hx next hn => ?_⟩ (by decide)
    obtain ⟨next', hnext', hn'⟩ := hnext s hs x hx
    rw [hn', Except.ok.injEq] at hn
    exact hn ▸ hnext'
  · exact (run_toMealy (m := silenced) rfl ["0"]).2.1 rfl

end Moore

end Transducers
