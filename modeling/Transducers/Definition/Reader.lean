import Transducers.Definition.Printer
import Transducers.Json.Document
import Transducers.Json.Shape

/-!
# Reading machine definitions

A definition is an object with the kind of the machine anywhere among its members,
or a list of the kind and the parts in order.  The kind is looked at as soon as it
is met; the other parts wait until the object or the list has ended, since only
the kind says what they must be.  Then they are looked at in the order of the
text, and what is missing after that.  Members with other names do not matter.

* `readDefinition`: the machine that a text defines;
* `MealyDraft.put`, `MooreDraft.put`: what one member adds to what is known;
* `MealyDraft.finish`, `MooreDraft.finish`: the machine, once all members are known.
-/

namespace Transducers

open Json

/-! ## Parts of a machine -/

/-- A destination and an output, as a pair or as an object that names both once. -/
def Transition.ofJson : Value → Except Mismatch Transition
  | .list [.text next, .text output] => .ok ⟨next, output⟩
  | .object members =>
    match members.filter (·.1 = "next"), members.filter (·.1 = "output") with
    | [(_, .text next)], [(_, .text output)] => .ok ⟨next, output⟩
    | _, _ => .error (.noShape "TransitionRepr")
  | _ => .error (.noShape "TransitionRepr")

def tableOfJson {α : Type} (cell : Value → Except Mismatch α) : Value → Except Mismatch (Table α) :=
  Value.asMap (Value.asMap cell)

/-! ## Mealy machines -/

/-- What is known of a Mealy machine while its members are looked at. -/
structure MealyDraft where
  states : Option (List String) := none
  inputSymbols : Option (List String) := none
  transitions : Option (Table Transition) := none
  initialState : Option String := none
  initialOutput : Option (Option String) := none
  stateOutputs : Option (OrderedMap String String) := none

namespace MealyDraft

/-- The fields in order; the last two may be left out. -/
def fieldNames : List String :=
  ["states", "input_symbols", "transitions", "initial_state", "initial_output", "state_outputs"]

def put (d : MealyDraft) (name : String) (v : Value) : Except Mismatch MealyDraft :=
  match name with
  | "states" => (once name d.states v.asTexts).map fun x => { d with states := x }
  | "input_symbols" => (once name d.inputSymbols v.asTexts).map fun x => { d with inputSymbols := x }
  | "transitions" =>
    (once name d.transitions (tableOfJson Transition.ofJson v)).map fun x => { d with transitions := x }
  | "initial_state" => (once name d.initialState v.asText).map fun x => { d with initialState := x }
  | "initial_output" =>
    (once name d.initialOutput v.asOptionalText).map fun x => { d with initialOutput := x }
  | "state_outputs" =>
    (once name d.stateOutputs (v.asMap Value.asText)).map fun x => { d with stateOutputs := x }
  | _ => .ok d

def finish (d : MealyDraft) : Except Mismatch Mealy := do
  return {
    states := ← require "states" d.states
    inputSymbols := ← require "input_symbols" d.inputSymbols
    transitions := ← require "transitions" d.transitions
    initialState := ← require "initial_state" d.initialState
    initialOutput := d.initialOutput.getD none
    stateOutputs := d.stateOutputs.getD .empty }

end MealyDraft

/-! ## Moore machines -/

/-- What is known of a Moore machine while its members are looked at. -/
structure MooreDraft where
  states : Option (List String) := none
  inputSymbols : Option (List String) := none
  transitions : Option (Table String) := none
  outputs : Option (OrderedMap String String) := none
  initialState : Option String := none

namespace MooreDraft

/-- The fields in order; all are needed. -/
def fieldNames : List String :=
  ["states", "input_symbols", "transitions", "outputs", "initial_state"]

/-- The outputs have a second name. -/
def canonicalName (name : String) : String := if name = "output" then "outputs" else name

def put (d : MooreDraft) (name : String) (v : Value) : Except Mismatch MooreDraft :=
  match canonicalName name with
  | "states" => (once "states" d.states v.asTexts).map fun x => { d with states := x }
  | "input_symbols" =>
    (once "input_symbols" d.inputSymbols v.asTexts).map fun x => { d with inputSymbols := x }
  | "transitions" =>
    (once "transitions" d.transitions (tableOfJson Value.asText v)).map
      fun x => { d with transitions := x }
  | "outputs" => (once "outputs" d.outputs (v.asMap Value.asText)).map fun x => { d with outputs := x }
  | "initial_state" =>
    (once "initial_state" d.initialState v.asText).map fun x => { d with initialState := x }
  | _ => .ok d

def finish (d : MooreDraft) : Except Mismatch Moore := do
  return {
    states := ← require "states" d.states
    inputSymbols := ← require "input_symbols" d.inputSymbols
    transitions := ← require "transitions" d.transitions
    outputs := ← require "outputs" d.outputs
    initialState := ← require "initial_state" d.initialState }

end MooreDraft

/-! ## Machines -/

/-- The machine that the members of an object define. -/
def Machine.ofMembers (kind : MachineKind) (members : List (String × Value)) :
    Except Mismatch Machine :=
  match kind with
  | .mealy => do
    let draft ← members.foldlM (fun d e => d.put e.1 e.2) ({} : MealyDraft)
    return .mealy (← draft.finish)
  | .moore => do
    let draft ← members.foldlM (fun d e => d.put e.1 e.2) ({} : MooreDraft)
    return .moore (← draft.finish)

/-- The values of a list under the names of the fields in their order.  There must
be at least `least` of them and no more than there are names. -/
def nameItems (names : List String) (least : Nat) (type : String) (items : List Value) :
    List (String × Value) × Except Mismatch Unit :=
  (names.zip items,
    if items.length < least then
      .error (.wrongLength items.length s!"struct {type} with {names.length} elements")
    else if names.length < items.length then
      .error (.wrongLength items.length s!"{names.length} elements in sequence")
    else .ok ())

/-- The machine that the items of a list define. -/
def Machine.ofItems (kind : MachineKind) (items : List Value) : Except Mismatch Machine :=
  match kind with
  | .mealy => do
    let (members, check) := nameItems MealyDraft.fieldNames 4 "MealyMachine" items
    let draft ← members.foldlM (fun d e => d.put e.1 e.2) ({} : MealyDraft)
    check
    return .mealy (← draft.finish)
  | .moore => do
    let (members, check) := nameItems MooreDraft.fieldNames 5 "MooreMachine" items
    let draft ← members.foldlM (fun d e => d.put e.1 e.2) ({} : MooreDraft)
    check
    return .moore (← draft.finish)

/-! ## Texts -/

/-- The kind of a machine, as the next value. -/
def readKind : Reader MachineKind := fun s => do
  match ← readHead s with
  | (.text name, r) =>
    match MachineKind.ofName? name with
    | some kind => return (kind, r)
    | none => throw (.mismatch (.unknownVariant name MachineKind.names))
  | (h, _) => throw (.mismatch (.wrongType h "variant identifier"))

/-- What is known of an object while it is read: its kind, and all its other
members, the last one first. -/
structure TaggedMembers where
  kind : Option MachineKind
  reversed : List (String × Value)

namespace TaggedMembers

/-- The kind is read at once and only once, any other member is kept as it is. -/
def member (known : TaggedMembers) (name : String) : Except Mismatch (Reader TaggedMembers) :=
  if name = "kind" then
    if known.kind.isSome then .error (.duplicateField "kind")
    else .ok fun s => do
      let (kind, r) ← readKind s
      return ({ known with kind := some kind }, r)
  else .ok fun s => do
    let (v, r) ← readValue (maxDepth - 1) s
    return ({ known with reversed := (name, v) :: known.reversed }, r)

/-- The machine, when all members are known. -/
def machine (known : TaggedMembers) : Except Mismatch Machine := do
  let kind ← require "kind" known.kind
  Machine.ofMembers kind known.reversed.reverse

end TaggedMembers

/-- The machine that the next value defines. -/
def readMachine : Reader Machine := fun s => do
  match ← readHead s with
  | (.object, ⟨r, hr⟩) =>
    let (known, ⟨t, ht⟩) ← foldMembers readString TaggedMembers.member true ⟨none, []⟩ r
    let machine ← known.machine.mapError .mismatch
    return (machine, ⟨t, length_lt_trans hr ht⟩)
  | (.list, ⟨r, hr⟩) =>
    match ← next ']' true r with
    | .close _ => throw (.mismatch (.missingField "kind"))
    | .item ⟨t, ht⟩ =>
      let (kind, ⟨u, hu⟩) ← readKind t
      let (items, ⟨v, hv⟩) ← elements (readValue (maxDepth - 1)) false u
      let machine ← (Machine.ofItems kind items).mapError .mismatch
      return (machine, ⟨v, by omega⟩)
  | (h, _) => throw (.mismatch (.wrongType h "internally tagged enum MachineDefinition"))

/-- The machine that a text defines. -/
def readDefinition (source : String) : Except Fault Machine := readAll readMachine source

end Transducers
