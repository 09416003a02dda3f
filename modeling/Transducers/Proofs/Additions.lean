import Mathlib.Data.List.Induction
import Mathlib.Data.List.Nodup
import Mathlib.Data.Prod.Basic
import Transducers.Moore
import Transducers.Proofs.FirstOccurrences

/-!
# Machines built by additions

A machine is begun with one state, and transitions and outputs are added to it one after
another.  What it holds in the end can be told from the list of additions: of two additions to
one place the last gives the value, and the first gives the position.

* `lastValue`: the last value that is given to a key;
* `Table.keys_writeAll`, `Table.get?_writeAll`, `Table.count_writeAll`: the rows of a table that
  is written cell by cell, what is in them, and how many cells there are;
* `Mealy.build`, `Moore.build`: one addition after another, from the machine with one state;
* `Assembled`: the parts of a machine are what these additions make;
* `Assembled.addTransition`, `Assembled.addOutput`: one addition;
* `Mealy.assembled_build`, `Moore.assembled_build`: all of them, by induction on their list;
* `build_keeps`: lookups find what was added last, and names stand where they came first.
-/

namespace Transducers

/-! ## Entries that are given one after another -/

section LastValue

variable {κ α : Type} [DecidableEq κ]

/-- The last value that is given to a key. -/
def lastValue (k : κ) (es : List (κ × α)) : Option α :=
  ((es.filter fun e => e.1 = k).map Prod.snd).getLast?

theorem find?_reverse (k : κ) (es : List (κ × α)) :
    Entries.find? k es.reverse = lastValue k es := by
  induction es using List.reverseRecOn with
  | nil => rfl
  | append_singleton es e ih =>
    obtain ⟨l, v⟩ := e
    rw [List.reverse_append, List.reverse_singleton, List.singleton_append, Entries.find?, ih]
    unfold lastValue
    by_cases hl : l = k
    · simp [List.filter_append, hl]
    · simp [List.filter_append, hl]

theorem lastValue_eq_none_iff {k : κ} {es : List (κ × α)} :
    lastValue k es = none ↔ k ∉ es.map Prod.fst := by
  rw [← find?_reverse, ← Option.not_isSome_iff_eq_none, ← Entries.mem_keys_iff, List.map_reverse,
    List.mem_reverse]

end LastValue

namespace Table

variable {α : Type}

theorem writeAll_concat (t : Table α) (cells : List ((String × String) × α))
    (c : (String × String) × α) :
    t.writeAll (cells ++ [c]) = (t.writeAll cells).write c.1.1 c.1.2 c.2 := by
  simp [writeAll, List.foldl_append]

theorem keys_write (t : Table α) (s x : String) (v : α) :
    (t.write s x v).keys = declare s t.keys :=
  OrderedMap.keys_insert ..

/-- The rows are in the order in which they were begun. -/
theorem keys_writeAll (cells : List ((String × String) × α)) :
    (writeAll .empty cells).keys = (cells.map fun c => c.1.1).eraseDups := by
  induction cells using List.reverseRecOn with
  | nil => rfl
  | append_singleton cells c ih =>
    rw [writeAll_concat, keys_write, ih, List.map_append, List.map_singleton, eraseDups_concat]

/-- A row holds the cells that were written for its state. -/
theorem get?_writeAll (cells : List ((String × String) × α)) (s : String) :
    ((writeAll .empty cells).get? s).getD .empty =
      .ofList ((cells.filter fun c => c.1.1 = s).map fun c => (c.1.2, c.2)) := by
  induction cells using List.reverseRecOn with
  | nil => rfl
  | append_singleton cells c ih =>
    obtain ⟨⟨s', x⟩, v⟩ := c
    rw [writeAll_concat, write, OrderedMap.get?_insert]
    by_cases hs : s' = s
    · subst hs
      rw [if_pos rfl, Option.getD_some, ih]
      simp [OrderedMap.ofList, List.filter_append]
    · rw [if_neg hs, ih]
      simp [List.filter_append, hs]

theorem keys_row_writeAll {cells : List ((String × String) × α)} {s : String} {row : Row α}
    (h : (writeAll .empty cells).get? s = some row) :
    row.keys = ((cells.filter fun c => c.1.1 = s).map fun c => c.1.2).eraseDups := by
  have hrow := get?_writeAll cells s
  rw [h, Option.getD_some] at hrow
  rw [hrow, keys_ofList, List.map_map]
  rfl

theorem cell?_writeAll_empty (cells : List ((String × String) × α)) (s x : String) :
    (writeAll .empty cells).cell? s x = lastValue (s, x) cells := by
  rw [cell?_writeAll, find?_reverse, cell?_empty, Option.or_none]

/-- No two cells of a table are in one place. -/
theorem nodup_places (t : Table α) : (t.cells.map fun c => (c.1, c.2.1)).Nodup := by
  have hplaces : (t.cells.map fun c => (c.1, c.2.1)) =
      t.entries.flatMap fun row => row.2.keys.map fun x => (row.1, x) := by
    simp [cells, OrderedMap.keys, List.map_flatMap, Function.comp_def]
  rw [hplaces, List.nodup_flatMap]
  constructor
  · intro row _
    exact row.2.keys_nodup.map (Prod.mk_right_injective row.1)
  · refine (List.pairwise_map.mp t.nodup_keys).imp fun {row row'} hne p hp hp' => ?_
    obtain ⟨x, -, rfl⟩ := List.mem_map.mp hp
    obtain ⟨x', -, heq⟩ := List.mem_map.mp hp'
    exact hne (congrArg Prod.fst heq).symm

/-- There is one cell for each place that was written. -/
theorem count_writeAll (cells : List ((String × String) × α)) :
    (writeAll .empty cells).count = (cells.map Prod.fst).eraseDups.length := by
  have hmem : ∀ p : String × String,
      p ∈ (writeAll .empty cells).cells.map (fun c => (c.1, c.2.1)) ↔ p ∈ cells.map Prod.fst := by
    rintro ⟨s, x⟩
    have hcell : (∃ v, (writeAll .empty cells).cell? s x = some v) ↔
        (s, x) ∈ cells.map Prod.fst := by
      rw [cell?_writeAll_empty, ← Option.ne_none_iff_exists', ne_eq, lastValue_eq_none_iff,
        not_not]
    simp only [← hcell, ← mem_cells_iff, List.mem_map, Prod.mk.injEq]
    constructor
    · rintro ⟨⟨s, x, v⟩, hc, rfl, rfl⟩
      exact ⟨v, hc⟩
    · rintro ⟨v, hc⟩
      exact ⟨_, hc, rfl, rfl⟩
  -- both lists hold the same places, each once
  rw [← length_cells, ← List.length_map (fun c => (c.1, c.2.1))]
  refine List.Perm.length_eq ((List.perm_ext_iff_of_nodup (nodup_places _)
    (nodup_eraseDups _)).mpr fun p => ?_)
  rw [hmem, List.mem_eraseDups]

end Table

/-! ## Additions -/

namespace Mealy

/-- What can be added to a Mealy machine. -/
inductive Addition where
  | transition (state symbol next output : String)
  | initialOutput (output : String)
  | stateOutput (state output : String)
  deriving DecidableEq, Repr

namespace Addition

/-- The states that an addition names, the source of a transition before its destination. -/
@[simp] def mentions : Addition → List String
  | transition state _ next _ => [state, next]
  | initialOutput _ => []
  | stateOutput state _ => [state]

/-- The cell that an addition writes. -/
@[simp] def cell? : Addition → Option ((String × String) × Transition)
  | transition state symbol next output => some ((state, symbol), ⟨next, output⟩)
  | _ => none

@[simp] def initialOutput? : Addition → Option String
  | initialOutput output => some output
  | _ => none

/-- The state that an addition sets the output of, and that output. -/
@[simp] def stateOutput? : Addition → Option (String × String)
  | stateOutput state output => some (state, output)
  | _ => none

end Addition

def add (m : Mealy) : Addition → Mealy
  | .transition state symbol next output => m.withTransition state symbol next output
  | .initialOutput output => m.withInitialOutput output
  | .stateOutput state output => m.withStateOutput state output

/-- The machine with one state, and these additions to it. -/
def build (initialState : String) (additions : List Addition) : Mealy :=
  additions.foldl add (new initialState)

theorem build_concat (initialState : String) (additions : List Addition) (a : Addition) :
    build initialState (additions ++ [a]) = (build initialState additions).add a := by
  simp [build, List.foldl_append]

end Mealy

namespace Moore

/-- What can be added to a Moore machine. -/
inductive Addition where
  | transition (state symbol next : String)
  | output (state output : String)
  deriving DecidableEq, Repr

namespace Addition

/-- The states that an addition names, the source of a transition before its destination. -/
@[simp] def mentions : Addition → List String
  | transition state _ next => [state, next]
  | output state _ => [state]

/-- The cell that an addition writes. -/
@[simp] def cell? : Addition → Option ((String × String) × String)
  | transition state symbol next => some ((state, symbol), next)
  | _ => none

/-- The state that an addition sets the output of, and that output. -/
@[simp] def output? : Addition → Option (String × String)
  | output s o => some (s, o)
  | _ => none

end Addition

def add (m : Moore) : Addition → Moore
  | .transition state symbol next => m.withTransition state symbol next
  | .output state output => m.withOutput state output

/-- The machine with one state, and these additions to it. -/
def build (initialState : String) (additions : List Addition) : Moore :=
  additions.foldl add (new initialState)

theorem build_concat (initialState : String) (additions : List Addition) (a : Addition) :
    build initialState (additions ++ [a]) = (build initialState additions).add a := by
  simp [build, List.foldl_append]

end Moore

/-! ## What additions make -/

/-- Names and places stand in the order in which they were first given. -/
structure InGivenOrder {α : Type} (initialState : String) (names : List String)
    (places : List (String × String)) (states symbols : List String) (transitions : Table α) :
    Prop where
  states_eq : states = (initialState :: names).eraseDups
  symbols_eq : symbols = (places.map Prod.snd).eraseDups
  rows_eq : transitions.keys = (places.map Prod.fst).eraseDups
  row_eq : ∀ state row, transitions.get? state = some row →
    row.keys = ((places.filter fun p => p.1 = state).map Prod.snd).eraseDups

/-- The parts of a machine of either kind are what these names, cells and outputs make, each in
the order in which they were given. -/
structure Assembled {α : Type} (initialState : String) (names : List String)
    (given : List ((String × String) × α)) (givenOutputs : List (String × String))
    (states symbols : List String) (transitions : Table α) (outputs : OrderedMap String String) :
    Prop where
  states_eq : states = (initialState :: names).eraseDups
  symbols_eq : symbols = (given.map fun c => c.1.2).eraseDups
  transitions_eq : transitions = .writeAll .empty given
  outputs_eq : outputs = .ofList givenOutputs

namespace Assembled

variable {α : Type} {initialState : String} {names : List String}
  {given : List ((String × String) × α)} {givenOutputs : List (String × String)}
  {states symbols : List String} {transitions : Table α} {outputs : OrderedMap String String}

theorem start (initialState : String) :
    Assembled (α := α) initialState [] [] [] [initialState] [] .empty .empty where
  states_eq := rfl
  symbols_eq := rfl
  transitions_eq := rfl
  outputs_eq := rfl

variable (h : Assembled initialState names given givenOutputs states symbols transitions outputs)
include h

theorem addTransition (state symbol next : String) (v : α) :
    Assembled initialState (names ++ [state, next]) (given ++ [((state, symbol), v)]) givenOutputs
      (declare next (declare state states)) (declare symbol symbols)
      (transitions.write state symbol v) outputs where
  states_eq := by
    rw [h.states_eq, ← eraseDups_concat, ← eraseDups_concat]
    simp
  symbols_eq := by rw [h.symbols_eq, List.map_append, List.map_singleton, eraseDups_concat]
  transitions_eq := by rw [h.transitions_eq, Table.writeAll_concat]
  outputs_eq := h.outputs_eq

theorem addOutput (state output : String) :
    Assembled initialState (names ++ [state]) given (givenOutputs ++ [(state, output)])
      (declare state states) symbols transitions (outputs.insert state output) where
  states_eq := by
    rw [h.states_eq, ← eraseDups_concat]
    rfl
  symbols_eq := h.symbols_eq
  transitions_eq := h.transitions_eq
  outputs_eq := by simp [h.outputs_eq, OrderedMap.ofList, List.foldl_append]

/-! What such a machine holds. -/

theorem inGivenOrder :
    InGivenOrder initialState names (given.map Prod.fst) states symbols transitions where
  states_eq := h.states_eq
  symbols_eq := by rw [h.symbols_eq, List.map_map]; rfl
  rows_eq := by rw [h.transitions_eq, Table.keys_writeAll, List.map_map]; rfl
  row_eq := by
    intro state row hrow
    rw [h.transitions_eq] at hrow
    rw [Table.keys_row_writeAll hrow, List.filter_map, List.map_map]
    rfl

theorem count_eq : transitions.count = (given.map Prod.fst).eraseDups.length := by
  rw [h.transitions_eq, Table.count_writeAll]

theorem cell?_eq (state symbol : String) :
    transitions.cell? state symbol = lastValue (state, symbol) given := by
  rw [h.transitions_eq, Table.cell?_writeAll_empty]

theorem get?_outputs_eq (state : String) : outputs.get? state = lastValue state givenOutputs := by
  rw [h.outputs_eq, OrderedMap.get?_ofList, find?_reverse]

end Assembled

theorem Mealy.assembled_build (initialState : String) (additions : List Addition) :
    Assembled initialState (additions.flatMap Addition.mentions)
      (additions.filterMap Addition.cell?) (additions.filterMap Addition.stateOutput?)
      (build initialState additions).states (build initialState additions).inputSymbols
      (build initialState additions).transitions (build initialState additions).stateOutputs := by
  induction additions using List.reverseRecOn with
  | nil => exact .start initialState
  | append_singleton additions a ih =>
    rw [build_concat, List.flatMap_append, List.filterMap_append, List.filterMap_append]
    cases a with
    | transition state symbol next output =>
      simpa [List.filterMap_cons, add, withTransition] using
        ih.addTransition state symbol next ⟨next, output⟩
    | initialOutput output => simpa [List.filterMap_cons, add, withInitialOutput] using ih
    | stateOutput state output =>
      simpa [List.filterMap_cons, add, withStateOutput] using ih.addOutput state output

/-- No addition takes another initial state. -/
theorem Mealy.initialState_build (initialState : String) (additions : List Addition) :
    (build initialState additions).initialState = initialState := by
  induction additions using List.reverseRecOn with
  | nil => rfl
  | append_singleton additions a ih =>
    rw [build_concat]
    cases a <;> exact ih

theorem Mealy.initialOutput_build (initialState : String) (additions : List Addition) :
    (build initialState additions).initialOutput =
      (additions.filterMap Addition.initialOutput?).getLast? := by
  induction additions using List.reverseRecOn with
  | nil => rfl
  | append_singleton additions a ih =>
    rw [build_concat, List.filterMap_append, List.getLast?_append, ← ih]
    cases a <;> rfl

theorem Moore.assembled_build (initialState : String) (additions : List Addition) :
    Assembled initialState (additions.flatMap Addition.mentions)
      (additions.filterMap Addition.cell?) (additions.filterMap Addition.output?)
      (build initialState additions).states (build initialState additions).inputSymbols
      (build initialState additions).transitions (build initialState additions).outputs := by
  induction additions using List.reverseRecOn with
  | nil => exact .start initialState
  | append_singleton additions a ih =>
    rw [build_concat, List.flatMap_append, List.filterMap_append, List.filterMap_append]
    cases a with
    | transition state symbol next =>
      simpa [List.filterMap_cons, add, withTransition] using ih.addTransition state symbol next next
    | output state output =>
      simpa [List.filterMap_cons, add, withOutput] using ih.addOutput state output

theorem Moore.initialState_build (initialState : String) (additions : List Addition) :
    (build initialState additions).initialState = initialState := by
  induction additions using List.reverseRecOn with
  | nil => rfl
  | append_singleton additions a ih =>
    rw [build_concat]
    cases a <;> exact ih

/-! ## What is kept of the additions -/

/-- What a Mealy machine keeps of the additions to it. -/
structure Mealy.Keeps (m : Mealy) (initialState : String) (additions : List Addition) : Prop where
  initialState_eq : m.initialState = initialState
  inGivenOrder : InGivenOrder initialState (additions.flatMap Addition.mentions)
    ((additions.filterMap Addition.cell?).map Prod.fst) m.states m.inputSymbols m.transitions
  /-- One transition for each state and symbol that were given one. -/
  transitionCount_eq : m.transitionCount =
    ((additions.filterMap Addition.cell?).map Prod.fst).eraseDups.length
  transition_eq_ok : ∀ state symbol t, m.transition state symbol = .ok t ↔
    lastValue (state, symbol) (additions.filterMap Addition.cell?) = some t
  transition_eq_error : ∀ state symbol,
    m.transition state symbol = .error (.missingTransition state symbol) ↔
      (state, symbol) ∉ (additions.filterMap Addition.cell?).map Prod.fst
  /-- The initial output comes before what was set for the initial state, and for no other. -/
  outputHint_eq : ∀ state, m.outputHint state =
    if state = initialState then
      (additions.filterMap Addition.initialOutput?).getLast?.or
        (lastValue state (additions.filterMap Addition.stateOutput?))
    else lastValue state (additions.filterMap Addition.stateOutput?)

/-- What a Moore machine keeps of the additions to it. -/
structure Moore.Keeps (m : Moore) (initialState : String) (additions : List Addition) : Prop where
  initialState_eq : m.initialState = initialState
  inGivenOrder : InGivenOrder initialState (additions.flatMap Addition.mentions)
    ((additions.filterMap Addition.cell?).map Prod.fst) m.states m.inputSymbols m.transitions
  /-- One transition for each state and symbol that were given one. -/
  transitionCount_eq : m.transitionCount =
    ((additions.filterMap Addition.cell?).map Prod.fst).eraseDups.length
  transition_eq_ok : ∀ state symbol next, m.transition state symbol = .ok next ↔
    lastValue (state, symbol) (additions.filterMap Addition.cell?) = some next
  transition_eq_error : ∀ state symbol,
    m.transition state symbol = .error (.missingTransition state symbol) ↔
      (state, symbol) ∉ (additions.filterMap Addition.cell?).map Prod.fst
  output_eq_ok : ∀ state output, m.output state = .ok output ↔
    lastValue state (additions.filterMap Addition.output?) = some output
  output_eq_error : ∀ state, m.output state = .error (.missingOutput state) ↔
    state ∉ (additions.filterMap Addition.output?).map Prod.fst

theorem Mealy.keeps_build (initialState : String) (additions : List Addition) :
    (build initialState additions).Keeps initialState additions := by
  have hbuilt := assembled_build initialState additions
  constructor
  case initialState_eq => exact initialState_build initialState additions
  case inGivenOrder => exact hbuilt.inGivenOrder
  case transitionCount_eq => exact hbuilt.count_eq
  case transition_eq_ok =>
    intro state symbol t
    rw [transition_eq_ok_iff, hbuilt.cell?_eq]
  case transition_eq_error =>
    intro state symbol
    rw [transition_eq_missing_iff, hbuilt.cell?_eq, lastValue_eq_none_iff]
  case outputHint_eq =>
    intro state
    rw [outputHint, initialState_build, initialOutput_build, hbuilt.get?_outputs_eq,
      Option.orElse_eq_or]

theorem Moore.keeps_build (initialState : String) (additions : List Addition) :
    (build initialState additions).Keeps initialState additions := by
  have hbuilt := assembled_build initialState additions
  constructor
  case initialState_eq => exact initialState_build initialState additions
  case inGivenOrder => exact hbuilt.inGivenOrder
  case transitionCount_eq => exact hbuilt.count_eq
  case transition_eq_ok =>
    intro state symbol next
    rw [transition_eq_ok_iff, hbuilt.cell?_eq]
  case transition_eq_error =>
    intro state symbol
    rw [transition_eq_missing_iff, hbuilt.cell?_eq, lastValue_eq_none_iff]
  case output_eq_ok =>
    intro state output
    rw [output_eq_ok_iff, hbuilt.get?_outputs_eq]
  case output_eq_error =>
    intro state
    rw [output_eq_error_iff, hbuilt.get?_outputs_eq, lastValue_eq_none_iff]

/-- **The last addition gives the value, the first one the place.**  However transitions and
outputs are added to a machine with one state, a lookup finds what was added last, and fails if
nothing was.  States, symbols, rows and the symbols in a row stand in the order in which they were
first mentioned, and additions that only set outputs count among those that mention a state. -/
theorem build_keeps (initialState : String) :
    (∀ additions : List Mealy.Addition,
      (Mealy.build initialState additions).Keeps initialState additions) ∧
    (∀ additions : List Moore.Addition,
      (Moore.build initialState additions).Keeps initialState additions) :=
  ⟨Mealy.keeps_build initialState, Moore.keeps_build initialState⟩

/-- The second transition from `S` on `1` takes the place of the first. -/
example :
    let m := Mealy.build "S" [.stateOutput "D" "w", .transition "S" "1" "A" "x",
      .transition "S" "0" "D" "y", .initialOutput "-", .transition "S" "1" "B" "z"]
    m.states = ["S", "D", "A", "B"] ∧ m.inputSymbols = ["1", "0"] ∧
      m.transitions.cells = [("S", "1", ⟨"B", "z"⟩), ("S", "0", ⟨"D", "y"⟩)] := by
  decide

end Transducers
