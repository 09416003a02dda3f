import Transducers.Machine
import Transducers.Proofs.MealyRows
import Transducers.Proofs.MooreStates

/-!
# Sessions

In a session a machine begins with one state, names are added to it, and it is
converted to the other kind and back.  Whatever is done, it never uses a name that it
does not declare.

* `NamesDeclared`: the names in a table, and of the states that have an output, are
  declared, and declared once;
* `NamesDeclared.addTransition`, `NamesDeclared.addOutput`: the additions keep this;
* `NamesDeclared.toMoore`, `NamesDeclared.toMealy`: the conversions keep this, each
  making a new table;
* `Machine.Tidy.edit`: one edit;
* `Machine.session_tidy`: a whole session, by induction on its edits.
-/

namespace Transducers

/-- These parts of a machine name only its states and symbols, each of which is declared
once.  A cell `v` of the table leads to the state `next v`. -/
structure NamesDeclared {α : Type} (states symbols : List String) (initialState : String)
    (next : α → String) (transitions : Table α) (outputs : OrderedMap String String) : Prop where
  nodup_states : states.Nodup
  nodup_symbols : symbols.Nodup
  initialState_mem : initialState ∈ states
  /-- Rows are of declared states, also those without cells. -/
  rows : ∀ state ∈ transitions.keys, state ∈ states
  cells : ∀ state symbol v, transitions.cell? state symbol = some v →
    symbol ∈ symbols ∧ next v ∈ states
  outputs : ∀ state ∈ outputs.keys, state ∈ states

namespace NamesDeclared

variable {α : Type} {states symbols : List String} {initialState : String} {next : α → String}
  {transitions : Table α} {outputs : OrderedMap String String}

theorem start (initialState : String) (next : α → String) :
    NamesDeclared [initialState] [] initialState next .empty .empty where
  nodup_states := List.nodup_singleton initialState
  nodup_symbols := List.nodup_nil
  initialState_mem := List.mem_singleton.mpr rfl
  rows := by simp
  cells := by simp
  outputs := by simp

variable (h : NamesDeclared states symbols initialState next transitions outputs)
include h

/-- A transition declares the names that it uses. -/
theorem addTransition (state symbol : String) (v : α) :
    NamesDeclared (declare (next v) (declare state states)) (declare symbol symbols) initialState
      next (transitions.write state symbol v) outputs where
  nodup_states := nodup_declare (nodup_declare h.nodup_states)
  nodup_symbols := nodup_declare h.nodup_symbols
  initialState_mem := by simp [h.initialState_mem]
  rows := by
    intro s hs
    rcases Table.mem_keys_write.mp hs with hs | rfl
    · simp [h.rows s hs]
    · simp
  cells := by
    intro s x w hw
    rw [Table.cell?_write] at hw
    split at hw
    · rename_i heq
      cases hw
      simp [heq.2]
    · obtain ⟨hx, hn⟩ := h.cells s x w hw
      simp [hx, hn]
  outputs := by
    intro s hs
    simp [h.outputs s hs]

/-- An output declares its state. -/
theorem addOutput (state output : String) :
    NamesDeclared (declare state states) symbols initialState next transitions
      (outputs.insert state output) where
  nodup_states := nodup_declare h.nodup_states
  nodup_symbols := h.nodup_symbols
  initialState_mem := by simp [h.initialState_mem]
  rows := by
    intro s hs
    simp [h.rows s hs]
  cells := by
    intro s x v hv
    obtain ⟨hx, hn⟩ := h.cells s x v hv
    exact ⟨hx, by simp [hn]⟩
  outputs := by
    intro s hs
    rw [OrderedMap.keys_insert] at hs
    split at hs
    · simp [h.outputs s hs]
    · rcases List.mem_append.mp hs with hs | hs
      · simp [h.outputs s hs]
      · simp [List.mem_singleton.mp hs]

end NamesDeclared

/-- All names that a machine uses are declared, and declared once. -/
def Mealy.Tidy (m : Mealy) : Prop :=
  NamesDeclared m.states m.inputSymbols m.initialState Transition.next m.transitions m.stateOutputs

/-- All names that a machine uses are declared, and declared once. -/
def Moore.Tidy (m : Moore) : Prop :=
  NamesDeclared m.states m.inputSymbols m.initialState id m.transitions m.outputs

/-! ## Conversions -/

/-- The Moore machine is made of Moore states, whatever the Mealy machine declares. -/
theorem Mealy.tidy_toMoore {m : Mealy} {M : Moore} (h : m.toMoore = .ok M)
    (hx : m.inputSymbols.Nodup) : M.Tidy where
  nodup_states := nodup_states_toMoore h
  nodup_symbols := by
    rw [inputSymbols_toMoore h]
    exact hx
  initialState_mem := by
    obtain ⟨o, ho⟩ := splitInto_initialState h
    exact (mem_states_toMoore h).mpr ⟨_, ho⟩
  rows := by
    intro id hid
    obtain ⟨x, next, hn⟩ : ∃ x next, M.transitions.cell? id x = some next := by
      obtain ⟨k, start, -, rfl⟩ := toMoore_eq_ok h
      simp only [Synthesis.toMoore, Synthesis.wire_eq_writeAll] at hid ⊢
      exact Table.exists_cell?_of_mem_keys hid
    obtain ⟨s, t, -, -, ⟨o, ho⟩, -, -⟩ := (cell?_toMoore h).mp hn
    exact (mem_states_toMoore h).mpr ⟨_, ho⟩
  cells := by
    intro id x next hn
    obtain ⟨s, t, -, hx, -, -, hmade⟩ := (cell?_toMoore h).mp hn
    rw [inputSymbols_toMoore h]
    exact ⟨hx, (mem_states_toMoore h).mpr ⟨_, hmade⟩⟩
  outputs := by
    obtain ⟨k, start, -, rfl⟩ := toMoore_eq_ok h
    exact fun _ hid => hid

theorem Moore.Tidy.toMealy {m : Moore} {n : Mealy} (hm : m.Tidy) (h : m.toMealy = .ok n) :
    n.Tidy where
  nodup_states := by
    rw [states_toMealy h]
    exact hm.nodup_states
  nodup_symbols := by
    rw [inputSymbols_toMealy h]
    exact hm.nodup_symbols
  initialState_mem := by
    rw [initialState_toMealy h, states_toMealy h]
    exact hm.initialState_mem
  rows := by
    intro s hs
    obtain ⟨row, hrow⟩ := OrderedMap.mem_keys_iff_exists.mp hs
    rw [states_toMealy h]
    obtain ⟨rows, hrows, rfl⟩ := toMealy_eq_ok h
    rw [mealyRows_eq_tabulate] at hrows
    exact ((get?_ofList_tabulate hrows).mp hrow).1
  cells := by
    intro s x t ht
    obtain ⟨-, hx, hn, -⟩ := (cell?_toMealy h).mp ht
    rw [states_toMealy h, inputSymbols_toMealy h]
    exact ⟨hx, (hm.cells s x t.next hn).2⟩
  outputs := by
    intro s hs
    obtain ⟨o, ho⟩ := OrderedMap.mem_keys_iff_exists.mp hs
    rw [states_toMealy h]
    exact ((get?_stateOutputs_toMealy h).mp ho).1

/-! ## Sessions -/

namespace Machine

/-- All names that a machine uses are declared, and declared once. -/
def Tidy : Machine → Prop
  | mealy m => m.Tidy
  | moore m => m.Tidy

theorem Tidy.convert {m m' : Machine} (hm : m.Tidy) (h : m.convert = .ok m') : m'.Tidy := by
  cases m with
  | mealy m =>
    simp only [Machine.convert] at h
    cases hM : m.toMoore with
    | error e =>
      rw [hM] at h
      cases h
    | ok M =>
      rw [hM] at h
      cases h
      exact Mealy.tidy_toMoore hM hm.nodup_symbols
  | moore m =>
    simp only [Machine.convert] at h
    cases hn : m.toMealy with
    | error e =>
      rw [hn] at h
      cases h
    | ok n =>
      rw [hn] at h
      cases h
      exact Moore.Tidy.toMealy hm hn

/-- **One edit.** -/
theorem Tidy.edit {m m' : Machine} (hm : m.Tidy) {e : Edit} (h : m.edit e = .ok m') : m'.Tidy := by
  cases e with
  | mealyTransition state symbol next output =>
    cases m with
    | mealy m =>
      cases h
      exact NamesDeclared.addTransition hm state symbol ⟨next, output⟩
    | moore m => cases h
  | initialOutput output =>
    cases m with
    | mealy m =>
      cases h
      exact hm
    | moore m => cases h
  | stateOutput state output =>
    cases m with
    | mealy m =>
      cases h
      exact NamesDeclared.addOutput hm state output
    | moore m => cases h
  | mooreTransition state symbol next =>
    cases m with
    | mealy m => cases h
    | moore m =>
      cases h
      exact NamesDeclared.addTransition hm state symbol next
  | mooreOutput state output =>
    cases m with
    | mealy m => cases h
    | moore m =>
      cases h
      exact NamesDeclared.addOutput hm state output
  | convert =>
    have hedit : m.edit .convert = m.convert.mapError .failed := by cases m <;> rfl
    rw [hedit] at h
    cases hc : m.convert with
    | error e =>
      rw [hc] at h
      cases h
    | ok m'' =>
      rw [hc] at h
      cases h
      exact hm.convert hc

/-- An edit that fails leaves the machine as it was, and so keeps it tidy. -/
theorem Tidy.session {m : Machine} (hm : m.Tidy) (edits : List Edit) : (m.session edits).Tidy := by
  induction edits generalizing m with
  | nil => exact hm
  | cons e edits ih =>
    refine ih (m := (m.edit e).toOption.getD m) ?_
    cases he : m.edit e with
    | error failure => exact hm
    | ok m' => exact hm.edit he

/-- **Sessions.**  However a session goes on from a new machine, whatever edits are
made and whichever conversions succeed, the machine uses no name that it does not
declare, and declares none twice. -/
theorem session_tidy (initialState : String) (edits : List Edit) :
    (session (.mealy (.new initialState)) edits).Tidy ∧
      (session (.moore (.new initialState)) edits).Tidy := by
  constructor
  · have hnew : Tidy (.mealy (.new initialState)) :=
      NamesDeclared.start initialState Transition.next
    exact hnew.session edits
  · have hnew : Tidy (.moore (.new initialState)) := NamesDeclared.start initialState id
    exact hnew.session edits

end Machine

end Transducers
