import Transducers.Trace
import Transducers.Json.Printer
import Transducers.Json.Record

/-!
# Traces as JSON

* `Trace.text`: a trace on one line;
* `readTrace`: the trace that a text describes.
-/

namespace Transducers

open Json

/-! ## Printing -/

def Step.json (s : Step) : Value :=
  .object [("state", .text s.state), ("symbol", .text s.symbol), ("next", .text s.next),
    ("output", .text s.output)]

/-- A name, or null if there is none. -/
def optionalJson (name : Option String) : Value := (name.map Value.text).getD .null

def Trace.json (t : Trace) : Value :=
  .object [("initial_state", .text t.initialState),
    ("initial_output", optionalJson t.initialOutput),
    ("steps", .list (t.steps.map Step.json))]

def Trace.text (t : Trace) : String := t.json.compact

/-! ## Reading -/

/-- What is known of a step while it is read. -/
structure StepDraft where
  state : Option String := none
  symbol : Option String := none
  next : Option String := none
  output : Option String := none

def Step.record : Record StepDraft Step where
  name := "Step"
  fields := [
    .of "state" readText StepDraft.state fun d x => { d with state := some x },
    .of "symbol" readText StepDraft.symbol fun d x => { d with symbol := some x },
    .of "next" readText StepDraft.next fun d x => { d with next := some x },
    .of "output" readText StepDraft.output fun d x => { d with output := some x }]
  start := {}
  finish d := do
    return {
      state := ← require "state" d.state
      symbol := ← require "symbol" d.symbol
      next := ← require "next" d.next
      output := ← require "output" d.output }

/-- What is known of a trace while it is read. -/
structure TraceDraft where
  initialState : Option String := none
  initialOutput : Option (Option String) := none
  steps : Option (List Step) := none

def Trace.record : Record TraceDraft Trace where
  name := "Trace"
  fields := [
    .of "initial_state" readText TraceDraft.initialState fun d x => { d with initialState := some x },
    .of "initial_output" readOptionalText TraceDraft.initialOutput
      fun d x => { d with initialOutput := some x },
    .of "steps" (readList Step.record.read) TraceDraft.steps fun d x => { d with steps := some x }]
  start := {}
  finish d := do
    return {
      initialState := ← require "initial_state" d.initialState
      initialOutput := d.initialOutput.getD none
      steps := ← require "steps" d.steps }

/-- The trace that a text describes. -/
def readTrace (source : String) : Except Fault Trace := readAll Trace.record.read source

end Transducers
