import Transducers.Mealy
import Transducers.Moore

/-!
# From Mealy to Moore

Every state of the Mealy machine is split into one Moore state for each output
with which it is entered.  The work has four phases: make a Moore state for each
destination and output of a declared transition, choose the initial state, give
every declared state that nothing enters a Moore state with the output its hint
names, and wire the transitions.

* `Synthesis.intern`: the Moore state of a pair, made at the first request;
* `get?_pairs_intern`: an interned pair is known afterwards;
* `intern_of_known`: interning a known pair changes nothing.
-/

namespace Transducers

/-! ## Ids -/

/-- A name followed by some apostrophes. -/
def primed (name : String) (count : Nat) : String :=
  name ++ String.ofList (List.replicate count '\x27')

/-- The name with the least number of apostrophes that makes it new. -/
def freshId (taken : OrderedMap String String) (name : String) : String :=
  primed name (((List.range (taken.size + 1)).find? fun n =>
    !taken.contains (primed name n)).getD 0)

/-! ## The state of the work -/

/-- What the conversion reports while it works. -/
inductive ConversionEvent where
  /-- A Moore state was made for a state of the Mealy machine and an output. -/
  | synthesized (id state output : String)
  /-- A declared state that nothing enters takes its output from a hint. -/
  | neverEntered (state output : String)
  deriving DecidableEq, Repr

def ConversionEvent.message : ConversionEvent → String
  | synthesized id state output => s!"Synthesized Moore state '{id}' for ({state}, {output})"
  | neverEntered state output => s!"State '{state}' is never entered; using output '{output}'"

/-- The Moore states made so far. -/
structure Synthesis where
  /-- The Moore state of a state and an output. -/
  pairs : OrderedMap (String × String) String
  /-- The output of each Moore state, in the order in which they were made. -/
  outputs : OrderedMap String String
  /-- The Moore states into which a state was split, oldest first. -/
  derived : OrderedMap String (List String)
  events : List ConversionEvent
  deriving DecidableEq, Repr

/-- A conversion that failed, with what it had reported by then. -/
structure Abandoned where
  error : MachineError
  events : List ConversionEvent
  deriving DecidableEq, Repr

namespace Synthesis

def empty : Synthesis := ⟨.empty, .empty, .empty, []⟩

def report (k : Synthesis) (event : ConversionEvent) : Synthesis :=
  { k with events := k.events ++ [event] }

def abandon {α : Type} (k : Synthesis) (error : MachineError) : Except Abandoned α :=
  .error ⟨error, k.events⟩

/-- The Moore states into which a state was split. -/
def splits (k : Synthesis) (state : String) : List String := (k.derived.get? state).getD []

/-- The id that the pair has, or would get. -/
def idOf (k : Synthesis) (state output : String) : String :=
  (k.pairs.get? (state, output)).getD (freshId k.outputs (state ++ "_" ++ output))

/-- Make the Moore state of a pair, unless it is there. -/
def intern (k : Synthesis) (state output : String) : Synthesis :=
  match k.pairs.get? (state, output) with
  | some _ => k
  | none =>
    let id := freshId k.outputs (state ++ "_" ++ output)
    { pairs := k.pairs.insert (state, output) id
      outputs := k.outputs.insert id output
      derived := k.derived.insert state (k.splits state ++ [id])
      events := k.events ++ [.synthesized id state output] }

/-! ## The phases -/

/-- One Moore state for each destination and output of these transitions. -/
def enter (m : Mealy) (k : Synthesis) : List (String × String) → Except Abandoned Synthesis
  | [] => .ok k
  | (state, symbol) :: rest =>
    match m.transition state symbol with
    | .ok t => enter m (k.intern t.next t.output) rest
    | .error e => k.abandon e

/-- The Moore state to start in: the one for the initial output if that is set,
else the first into which the initial state was split, else one for its hint. -/
def begin (m : Mealy) (k : Synthesis) : Except Abandoned (Synthesis × String) :=
  let state := m.initialState
  match m.initialOutput with
  | some output => .ok (k.intern state output, k.idOf state output)
  | none =>
    match k.splits state with
    | id :: _ => .ok (k, id)
    | [] =>
      match m.stateOutputs.get? state with
      | some output => .ok (k.intern state output, k.idOf state output)
      | none => k.abandon (.unmappedInitialState state)

/-- A Moore state for each of these states that has none, with the output of its hint. -/
def complete (m : Mealy) (k : Synthesis) : List String → Except Abandoned Synthesis
  | [] => .ok k
  | state :: rest =>
    if k.derived.contains state then
      complete m k rest
    else
      match m.outputHint state with
      | some output =>
        complete m ((k.report (.neverEntered state output)).intern state output) rest
      | none => k.abandon (.unmappedState state)

/-- Every Moore state made from a state gets the transitions of that state. -/
def wire (m : Mealy) (k : Synthesis) : Table String :=
  m.declaredPairs.foldl (fun table pair =>
    match m.transition pair.1 pair.2 with
    | .ok t =>
      match k.pairs.get? (t.next, t.output) with
      | some next => (k.splits pair.1).foldl (fun table id => table.write id pair.2 next) table
      | none => table
    | .error _ => table) .empty

/-- All Moore states, and the one to start in. -/
def ofMealy (m : Mealy) : Except Abandoned (Synthesis × String) := do
  let entered ← enter m empty m.declaredPairs
  let (begun, initialState) ← begin m entered
  let done ← complete m begun m.states
  return (done, initialState)

/-- The machine that was made. -/
def toMoore (m : Mealy) (k : Synthesis) (initialState : String) : Moore where
  states := k.outputs.keys
  inputSymbols := m.inputSymbols
  transitions := wire m k
  outputs := k.outputs
  initialState := initialState

end Synthesis

/-- The Moore machine that answers every word as this machine does. -/
def Mealy.toMoore (m : Mealy) : Except MachineError Moore :=
  match Synthesis.ofMealy m with
  | .ok (k, initialState) => .ok (k.toMoore m initialState)
  | .error stop => .error stop.error

/-- What the conversion reports, whether it succeeds or not. -/
def Mealy.conversionEvents (m : Mealy) : List ConversionEvent :=
  match Synthesis.ofMealy m with
  | .ok (k, _) => k.events
  | .error stop => stop.events

/-! ## Interning -/

namespace Synthesis

theorem intern_of_known {k : Synthesis} {state output id : String}
    (h : k.pairs.get? (state, output) = some id) : k.intern state output = k := by
  simp [intern, h]

theorem get?_pairs_intern (k : Synthesis) (state output : String) :
    (k.intern state output).pairs.get? (state, output) = some (k.idOf state output) := by
  cases h : k.pairs.get? (state, output) with
  | some id => simp [intern, idOf, h]
  | none => simp [intern, idOf, h, OrderedMap.get?_insert]

end Synthesis

end Transducers
