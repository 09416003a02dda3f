import Transducers.ToMoore
import Transducers.ToMealy
import Transducers.Trace

/-!
# Machines of either kind

* `Machine.convert`: the machine of the other kind;
* `Machine.chain`: that many conversions, each of the result before;
* `Machine.edit`: the additions that a machine of its kind allows.
-/

namespace Transducers

inductive Machine where
  | mealy (m : Mealy)
  | moore (m : Moore)
  deriving DecidableEq, Repr

namespace Machine

def transitionCount : Machine → Nat
  | mealy m => m.transitionCount
  | moore m => m.transitionCount

def run : Machine → List String → Except MachineError Trace
  | mealy m, word => m.run word
  | moore m, word => m.run word

/-- Equality that does not look at the order inside maps. -/
def same : Machine → Machine → Bool
  | mealy m, mealy n => m.same n
  | moore m, moore n => m.same n
  | _, _ => false

/-! ## Conversions -/

/-- The machine of the other kind. -/
def convert : Machine → Except MachineError Machine
  | mealy m => m.toMoore.map moore
  | moore m => m.toMealy.map mealy

/-- What a conversion of the machine reports. -/
def conversionEvents : Machine → List ConversionEvent
  | mealy m => m.conversionEvents
  | moore _ => []

/-- Convert that many times. -/
def chain : Nat → Machine → Except MachineError Machine
  | 0, m => .ok m
  | n + 1, m => do chain n (← m.convert)

/-- The machine after each of that many conversions, as far as they succeed, and
the failure that ends them. -/
def hops : Nat → Machine → List Machine × Option MachineError
  | 0, _ => ([], none)
  | n + 1, m =>
    match m.convert with
    | .ok next => ((next :: (hops n next).1), (hops n next).2)
    | .error e => ([], some e)

/-- All that the conversions of a chain report. -/
def chainEvents (n : Nat) (m : Machine) : List ConversionEvent :=
  ((m :: (hops n m).1).take n).flatMap conversionEvents

/-! ## Edits -/

/-- What can be added to a machine, or done to it as a whole. -/
inductive Edit where
  | mealyTransition (state symbol next output : String)
  | initialOutput (output : String)
  | stateOutput (state output : String)
  | mooreTransition (state symbol next : String)
  | mooreOutput (state output : String)
  /-- Go on with the machine of the other kind. -/
  | convert
  deriving DecidableEq, Repr

/-- Why an edit leaves the machine as it was. -/
inductive EditError where
  /-- The edit is for machines of the other kind. -/
  | wrongKind
  | failed (error : MachineError)
  deriving DecidableEq, Repr

def edit : Machine → Edit → Except EditError Machine
  | mealy m, .mealyTransition state symbol next output =>
    .ok (mealy (m.withTransition state symbol next output))
  | mealy m, .initialOutput output => .ok (mealy (m.withInitialOutput output))
  | mealy m, .stateOutput state output => .ok (mealy (m.withStateOutput state output))
  | moore m, .mooreTransition state symbol next =>
    .ok (moore (m.withTransition state symbol next))
  | moore m, .mooreOutput state output => .ok (moore (m.withOutput state output))
  | m, .convert => m.convert.mapError .failed
  | _, _ => .error .wrongKind

/-- A session: each edit in turn, one that fails leaving the machine as it was. -/
def session (m : Machine) (edits : List Edit) : Machine :=
  edits.foldl (fun m e => (m.edit e).toOption.getD m) m

end Machine

end Transducers
