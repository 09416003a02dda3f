/-!
# Failures of lookups and conversions

One constructor for each cause; the wording is in `MachineError.message`.
-/

namespace Transducers

/-- Why a lookup, a run or a conversion cannot go on. -/
inductive MachineError where
  /-- The transition table has no cell for this state and symbol. -/
  | missingTransition (state symbol : String)
  /-- A Moore state has no output. -/
  | missingOutput (state : String)
  /-- Nothing gives the initial state of a Mealy machine an output. -/
  | unmappedInitialState (state : String)
  /-- Nothing gives another declared state of a Mealy machine an output. -/
  | unmappedState (state : String)
  deriving DecidableEq, Repr

def MachineError.message : MachineError → String
  | missingTransition state symbol =>
    s!"No transition defined for state '{state}' on input '{symbol}'"
  | missingOutput state => s!"No output registered for Moore state '{state}'"
  | unmappedInitialState state =>
    s!"No Moore state corresponds to the Mealy initial state '{state}'"
  | unmappedState state =>
    s!"No Moore state corresponds to Mealy state '{state}': " ++
      "it is never entered and has no entry in state_outputs"

end Transducers
