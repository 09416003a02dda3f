import Mathlib.Data.List.Forall2
import Transducers.Definition.Reader
import Transducers.Proofs.JsonDocuments

/-!
# What the members of a definition say

What a value says is a relation here, so that it can be said without the order in which
the reader looks at things: a definition says a machine if each field is given at most
once and says its part.

* `SaysTexts`, `SaysMap`, `SaysTransition`, ...: what a value says, and that the readers of
  values find just that;
* `given`: the values of a field among the members of an object;
* `Adds`, `gathers_iff`: a field that may be given once, member by member;
* `Mealy.SaidBy`, `Moore.SaidBy`: the machine that members say;
* `ofMembers_eq_ok_iff`: the reader makes the machine that the members say.
-/

namespace Transducers

open Json

/-! ## Values -/

def SaysText (v : Value) (s : String) : Prop := v = .text s

def SaysTexts (v : Value) (names : List String) : Prop := v = .list (names.map .text)

/-- A text, or null for none. -/
def SaysOptionalText (v : Value) (x : Option String) : Prop :=
  (v = .null ∧ x = none) ∨ ∃ s, v = .text s ∧ x = some s

/-- An object whose members say the entries, one after another.  Of equal names the first
gives the position and the last the value. -/
def SaysMap {α : Type} (means : Value → α → Prop) (v : Value) (m : OrderedMap String α) : Prop :=
  ∃ members es, v = .object members ∧
    List.Forall₂ (fun e x => e.1 = x.1 ∧ means e.2 x.2) members es ∧ m = .ofList es

/-- The values that members give a field, which may have several names. -/
def given (names : List String) (members : List (String × Value)) : List Value :=
  (members.filter fun e => e.1 ∈ names).map Prod.snd

/-- A pair of a state and an output, or an object that names both once. -/
def SaysTransition (v : Value) (t : Transition) : Prop :=
  v = .list [.text t.next, .text t.output] ∨
    ∃ members, v = .object members ∧ given ["next"] members = [.text t.next] ∧
      given ["output"] members = [.text t.output]

theorem asText_eq_ok_iff {v : Value} {s : String} : v.asText = .ok s ↔ SaysText v s := by
  cases v <;> simp [Value.asText, SaysText]

theorem asTexts_eq_ok_iff {v : Value} {names : List String} :
    v.asTexts = .ok names ↔ SaysTexts v names := by
  have hitems (items : List Value) :
      items.mapM Value.asText = .ok names ↔ items = names.map .text := by
    induction items generalizing names with
    | nil => cases names <;> simp [pure, Except.pure]
    | cons item items ih =>
      rw [List.mapM_cons, bind_eq_ok_iff]
      constructor
      · rintro ⟨s, hs, h⟩
        obtain ⟨rest, hrest, h⟩ := bind_eq_ok_iff.mp h
        cases h
        rw [asText_eq_ok_iff] at hs
        rw [List.map_cons, ← ih.mp hrest, hs]
      · intro h
        cases names with
        | nil => cases h
        | cons s names =>
          rw [List.map_cons, List.cons.injEq] at h
          exact ⟨s, asText_eq_ok_iff.mpr h.1, bind_eq_ok_iff.mpr ⟨names, ih.mpr h.2, rfl⟩⟩
  cases v <;> simp [Value.asTexts, SaysTexts, hitems]

theorem asOptionalText_eq_ok_iff {v : Value} {x : Option String} :
    v.asOptionalText = .ok x ↔ SaysOptionalText v x := by
  cases v <;> simp [Value.asOptionalText, Value.asText, SaysOptionalText, Except.map, eq_comm]

section Maps

variable {α : Type} {item : Value → Except Mismatch α} {means : Value → α → Prop}
  (h : ∀ v x, item v = .ok x ↔ means v x)
include h

theorem readMembers_eq_ok_iff {members : List (String × Value)} {es : List (String × α)} :
    Value.readMembers item members = .ok es ↔
      List.Forall₂ (fun e x => e.1 = x.1 ∧ means e.2 x.2) members es := by
  induction members generalizing es with
  | nil => simp [Value.readMembers, eq_comm]
  | cons e members ih =>
    obtain ⟨name, v⟩ := e
    rw [Value.readMembers, bind_eq_ok_iff]
    constructor
    · rintro ⟨x, hx, hrest⟩
      obtain ⟨xs, hxs, hrest⟩ := bind_eq_ok_iff.mp hrest
      cases hrest
      exact .cons ⟨rfl, (h v x).mp hx⟩ (ih.mp hxs)
    · intro hes
      cases hes with
      | @cons _ x _ xs hx hxs =>
        obtain ⟨name', x⟩ := x
        obtain ⟨rfl, hx⟩ := hx
        exact ⟨x, (h v x).mpr hx, bind_eq_ok_iff.mpr ⟨xs, ih.mpr hxs, rfl⟩⟩

theorem asMap_eq_ok_iff {v : Value} {m : OrderedMap String α} :
    v.asMap item = .ok m ↔ SaysMap means v m := by
  constructor
  · intro hv
    cases v with
    | object members =>
      cases hread : Value.readMembers item members with
      | error e =>
        rw [Value.asMap, hread] at hv
        cases hv
      | ok es =>
        rw [Value.asMap, hread] at hv
        cases hv
        exact ⟨members, es, rfl, (readMembers_eq_ok_iff h).mp hread, rfl⟩
    | _ => cases hv
  · rintro ⟨members, es, rfl, hes, rfl⟩
    rw [Value.asMap, (readMembers_eq_ok_iff h).mpr hes]
    rfl

end Maps

theorem given_singleton (name : String) (members : List (String × Value)) :
    given [name] members = (members.filter (·.1 = name)).map Prod.snd := by
  simp [given]

theorem Transition.ofJson_eq_ok_iff {v : Value} {t : Transition} :
    Transition.ofJson v = .ok t ↔ SaysTransition v t := by
  obtain ⟨next, output⟩ := t
  constructor
  · intro hv
    unfold Transition.ofJson at hv
    split at hv
    · cases hv
      exact Or.inl rfl
    · rename_i members
      split at hv
      · rename_i hnext houtput
        cases hv
        refine Or.inr ⟨members, rfl, ?_, ?_⟩
        · rw [given_singleton, hnext]
          rfl
        · rw [given_singleton, houtput]
          rfl
      · cases hv
    · cases hv
  · rintro (rfl | ⟨members, rfl, hnext, houtput⟩)
    · rfl
    · rw [given_singleton, List.map_eq_singleton_iff] at hnext houtput
      obtain ⟨⟨_, _⟩, hnext, rfl⟩ := hnext
      obtain ⟨⟨_, _⟩, houtput, rfl⟩ := houtput
      simp only [Transition.ofJson, hnext, houtput]

theorem asTextMap_eq_ok_iff {v : Value} {m : OrderedMap String String} :
    v.asMap Value.asText = .ok m ↔ SaysMap SaysText v m :=
  asMap_eq_ok_iff fun _ _ => asText_eq_ok_iff

theorem tableOfJson_eq_ok_iff {α : Type} {cell : Value → Except Mismatch α}
    {means : Value → α → Prop} (h : ∀ v x, cell v = .ok x ↔ means v x) {v : Value} {t : Table α} :
    tableOfJson cell v = .ok t ↔ SaysMap (SaysMap means) v t :=
  asMap_eq_ok_iff fun _ _ => asMap_eq_ok_iff h

/-! ## Fields that may be given once -/

/-- What is known of a field after one more member. -/
def Adds {α : Type} (names : List String) (means : Value → α → Prop) (known : Option α)
    (e : String × Value) (x : Option α) : Prop :=
  if e.1 ∈ names then known = none ∧ ∃ y, means e.2 y ∧ x = some y else x = known

/-- What is known of a field after more members. -/
inductive Gathers {α : Type} (names : List String) (means : Value → α → Prop) :
    Option α → List (String × Value) → Option α → Prop
  | nil {known : Option α} : Gathers names means known [] known
  | cons {known next last : Option α} {e : String × Value} {es : List (String × Value)}
      (added : Adds names means known e next) (others : Gathers names means next es last) :
      Gathers names means known (e :: es) last

section Gathers

variable {α : Type} {names : List String} {means : Value → α → Prop}

theorem given_cons_of_mem {e : String × Value} (h : e.1 ∈ names) (es : List (String × Value)) :
    given names (e :: es) = e.2 :: given names es := by
  simp [given, h]

theorem given_cons_of_notMem {e : String × Value} (h : e.1 ∉ names)
    (es : List (String × Value)) : given names (e :: es) = given names es := by
  simp [given, h]

/-- **A field is given once, or not at all.** -/
theorem gathers_iff {known last : Option α} {es : List (String × Value)} :
    Gathers names means known es last ↔
      (given names es = [] ∧ last = known) ∨
        (known = none ∧ ∃ v x, given names es = [v] ∧ means v x ∧ last = some x) := by
  induction es generalizing known with
  | nil =>
    constructor
    · rintro ⟨⟩
      exact Or.inl ⟨rfl, rfl⟩
    · rintro (⟨-, rfl⟩ | ⟨-, v, x, hv, -⟩)
      · exact .nil
      · cases hv
  | cons e es ih =>
    by_cases he : e.1 ∈ names
    · rw [given_cons_of_mem he]
      constructor
      · rintro (_ | ⟨added, others⟩)
        rw [Adds, if_pos he] at added
        obtain ⟨rfl, x, hx, rfl⟩ := added
        rcases ih.mp others with ⟨hnone, rfl⟩ | ⟨hknown, -⟩
        · exact Or.inr ⟨rfl, e.2, x, by rw [hnone], hx, rfl⟩
        · cases hknown
      · rintro (⟨hnil, -⟩ | ⟨rfl, v, x, hv, hx, rfl⟩)
        · cases hnil
        · rw [List.cons.injEq] at hv
          obtain ⟨rfl, hnone⟩ := hv
          have hadds : Adds names means none e (some x) := by
            rw [Adds, if_pos he]
            exact ⟨rfl, x, hx, rfl⟩
          exact .cons hadds (ih.mpr (Or.inl ⟨hnone, rfl⟩))
    · rw [given_cons_of_notMem he]
      constructor
      · rintro (_ | ⟨added, others⟩)
        rw [Adds, if_neg he] at added
        rw [added] at others
        exact ih.mp others
      · intro h
        have hadds : Adds names means known e known := by
          rw [Adds, if_neg he]
        exact .cons hadds (ih.mpr h)

/-- One member gives the field, with a value that says this. -/
def GivenOnce (names : List String) (means : Value → α → Prop) (members : List (String × Value))
    (x : α) : Prop :=
  ∃ v, given names members = [v] ∧ means v x

/-- At most one member gives the field; without one it is the default. -/
def GivenAtMostOnce (names : List String) (means : Value → α → Prop) (default : α)
    (members : List (String × Value)) (x : α) : Prop :=
  (given names members = [] ∧ x = default) ∨ GivenOnce names means members x

theorem gathers_some_iff {es : List (String × Value)} {x : α} :
    Gathers names means none es (some x) ↔ GivenOnce names means es x := by
  rw [gathers_iff]
  constructor
  · rintro (⟨-, h⟩ | ⟨-, v, y, hv, hy, h⟩)
    · cases h
    · cases h
      exact ⟨v, hv, hy⟩
  · rintro ⟨v, hv, hx⟩
    exact Or.inr ⟨rfl, v, x, hv, hx, rfl⟩

theorem gathers_getD_iff {es : List (String × Value)} {default x : α} :
    (∃ last, Gathers names means none es last ∧ last.getD default = x) ↔
      GivenAtMostOnce names means default es x := by
  constructor
  · rintro ⟨last, h, rfl⟩
    cases last with
    | none =>
      rcases gathers_iff.mp h with ⟨hnone, -⟩ | ⟨-, v, y, -, -, hy⟩
      · exact Or.inl ⟨hnone, rfl⟩
      · cases hy
    | some x => exact Or.inr (gathers_some_iff.mp h)
  · rintro (⟨hnone, rfl⟩ | h)
    · exact ⟨none, gathers_iff.mpr (Or.inl ⟨hnone, rfl⟩), rfl⟩
    · exact ⟨some x, gathers_some_iff.mpr h, rfl⟩

end Gathers

theorem require_eq_ok_iff {α : Type} {name : String} {known : Option α} {x : α} :
    require name known = .ok x ↔ known = some x := by
  cases known <;> simp [require]

theorem once_map_eq_ok_iff {α β : Type} {name : String} {known : Option α}
    {read : Except Mismatch α} {f : Option α → β} {b : β} :
    (once name known read).map f = .ok b ↔ known = none ∧ ∃ x, read = .ok x ∧ f (some x) = b := by
  cases known with
  | none => cases read <;> simp [once, Except.map]
  | some x => simp [once, Except.map]

/-! ## Mealy machines -/

namespace MealyDraft

theorem put_eq_ok_iff {d d' : MealyDraft} {e : String × Value} :
    d.put e.1 e.2 = .ok d' ↔
      Adds ["states"] SaysTexts d.states e d'.states ∧
      Adds ["input_symbols"] SaysTexts d.inputSymbols e d'.inputSymbols ∧
      Adds ["transitions"] (SaysMap (SaysMap SaysTransition)) d.transitions e d'.transitions ∧
      Adds ["initial_state"] SaysText d.initialState e d'.initialState ∧
      Adds ["initial_output"] SaysOptionalText d.initialOutput e d'.initialOutput ∧
      Adds ["state_outputs"] (SaysMap SaysText) d.stateOutputs e d'.stateOutputs := by
  have htable {v : Value} {t : Table Transition} : tableOfJson Transition.ofJson v = .ok t ↔
      SaysMap (SaysMap SaysTransition) v t :=
    tableOfJson_eq_ok_iff fun _ _ => Transition.ofJson_eq_ok_iff
  obtain ⟨_, _, _, _, _, _⟩ := d
  obtain ⟨_, _, _, _, _, _⟩ := d'
  unfold put
  split
  case h_7 =>
    simp only [Adds, List.mem_singleton, Except.ok.injEq, mk.injEq]
    grind
  all_goals
    rename_i hname
    simp only [once_map_eq_ok_iff, Adds, List.mem_singleton, hname, asTexts_eq_ok_iff,
      htable, asText_eq_ok_iff, asOptionalText_eq_ok_iff, asTextMap_eq_ok_iff]
    grind

theorem foldlM_put_eq_ok_iff {d d' : MealyDraft} {es : List (String × Value)} :
    es.foldlM (fun d e => d.put e.1 e.2) d = .ok d' ↔
      Gathers ["states"] SaysTexts d.states es d'.states ∧
      Gathers ["input_symbols"] SaysTexts d.inputSymbols es d'.inputSymbols ∧
      Gathers ["transitions"] (SaysMap (SaysMap SaysTransition)) d.transitions es d'.transitions ∧
      Gathers ["initial_state"] SaysText d.initialState es d'.initialState ∧
      Gathers ["initial_output"] SaysOptionalText d.initialOutput es d'.initialOutput ∧
      Gathers ["state_outputs"] (SaysMap SaysText) d.stateOutputs es d'.stateOutputs := by
  induction es generalizing d with
  | nil =>
    constructor
    · rintro ⟨⟩
      exact ⟨.nil, .nil, .nil, .nil, .nil, .nil⟩
    · obtain ⟨_, _, _, _, _, _⟩ := d
      obtain ⟨_, _, _, _, _, _⟩ := d'
      rintro ⟨⟨⟩, ⟨⟩, ⟨⟩, ⟨⟩, ⟨⟩, ⟨⟩⟩
      rfl
  | cons e es ih =>
    rw [List.foldlM_cons, bind_eq_ok_iff]
    constructor
    · rintro ⟨next, hput, h⟩
      obtain ⟨h₁, h₂, h₃, h₄, h₅, h₆⟩ := put_eq_ok_iff.mp hput
      obtain ⟨g₁, g₂, g₃, g₄, g₅, g₆⟩ := ih.mp h
      exact ⟨.cons h₁ g₁, .cons h₂ g₂, .cons h₃ g₃, .cons h₄ g₄, .cons h₅ g₅, .cons h₆ g₆⟩
    · rintro ⟨⟨⟩ | ⟨h₁, g₁⟩, ⟨⟩ | ⟨h₂, g₂⟩, ⟨⟩ | ⟨h₃, g₃⟩, ⟨⟩ | ⟨h₄, g₄⟩, ⟨⟩ | ⟨h₅, g₅⟩,
        ⟨⟩ | ⟨h₆, g₆⟩⟩
      exact ⟨⟨_, _, _, _, _, _⟩, put_eq_ok_iff.mpr ⟨h₁, h₂, h₃, h₄, h₅, h₆⟩,
        ih.mpr ⟨g₁, g₂, g₃, g₄, g₅, g₆⟩⟩

theorem finish_eq_ok_iff {d : MealyDraft} {m : Mealy} :
    d.finish = .ok m ↔
      d.states = some m.states ∧ d.inputSymbols = some m.inputSymbols ∧
      d.transitions = some m.transitions ∧ d.initialState = some m.initialState ∧
      d.initialOutput.getD none = m.initialOutput ∧
      d.stateOutputs.getD .empty = m.stateOutputs := by
  obtain ⟨_, _, _, _, _, _⟩ := m
  unfold finish
  simp only [bind_eq_ok_iff, require_eq_ok_iff, pure, Except.pure, Except.ok.injEq,
    Mealy.mk.injEq]
  grind

end MealyDraft

/-- The machine whose fields the members give. -/
structure Mealy.SaidBy (m : Mealy) (members : List (String × Value)) : Prop where
  states : GivenOnce ["states"] SaysTexts members m.states
  inputSymbols : GivenOnce ["input_symbols"] SaysTexts members m.inputSymbols
  transitions :
    GivenOnce ["transitions"] (SaysMap (SaysMap SaysTransition)) members m.transitions
  initialState : GivenOnce ["initial_state"] SaysText members m.initialState
  initialOutput :
    GivenAtMostOnce ["initial_output"] SaysOptionalText none members m.initialOutput
  stateOutputs :
    GivenAtMostOnce ["state_outputs"] (SaysMap SaysText) .empty members m.stateOutputs

theorem Mealy.saidBy_iff {m : Mealy} {members : List (String × Value)} :
    (∃ d, members.foldlM (fun d e => d.put e.1 e.2) ({} : MealyDraft) = .ok d ∧
      d.finish = .ok m) ↔ m.SaidBy members := by
  constructor
  · rintro ⟨⟨_, _, _, _, initialOutput, stateOutputs⟩, hdraft, hfinish⟩
    obtain ⟨h₁, h₂, h₃, h₄, h₅, h₆⟩ := MealyDraft.foldlM_put_eq_ok_iff.mp hdraft
    obtain ⟨rfl, rfl, rfl, rfl, hinitial, houtputs⟩ := MealyDraft.finish_eq_ok_iff.mp hfinish
    exact ⟨gathers_some_iff.mp h₁, gathers_some_iff.mp h₂, gathers_some_iff.mp h₃,
      gathers_some_iff.mp h₄, gathers_getD_iff.mp ⟨_, h₅, hinitial⟩,
      gathers_getD_iff.mp ⟨_, h₆, houtputs⟩⟩
  · rintro ⟨h₁, h₂, h₃, h₄, h₅, h₆⟩
    obtain ⟨_, g₅, hinitial⟩ := gathers_getD_iff.mpr h₅
    obtain ⟨_, g₆, houtputs⟩ := gathers_getD_iff.mpr h₆
    refine ⟨⟨some m.states, some m.inputSymbols, some m.transitions, some m.initialState, _, _⟩,
      MealyDraft.foldlM_put_eq_ok_iff.mpr ⟨gathers_some_iff.mpr h₁, gathers_some_iff.mpr h₂,
        gathers_some_iff.mpr h₃, gathers_some_iff.mpr h₄, g₅, g₆⟩,
      MealyDraft.finish_eq_ok_iff.mpr ⟨rfl, rfl, rfl, rfl, hinitial, houtputs⟩⟩

/-! ## Moore machines -/

namespace MooreDraft

theorem put_eq_ok_iff {d d' : MooreDraft} {e : String × Value} :
    d.put e.1 e.2 = .ok d' ↔
      Adds ["states"] SaysTexts d.states e d'.states ∧
      Adds ["input_symbols"] SaysTexts d.inputSymbols e d'.inputSymbols ∧
      Adds ["transitions"] (SaysMap (SaysMap SaysText)) d.transitions e d'.transitions ∧
      Adds ["outputs", "output"] (SaysMap SaysText) d.outputs e d'.outputs ∧
      Adds ["initial_state"] SaysText d.initialState e d'.initialState := by
  have htable {v : Value} {t : Table String} : tableOfJson Value.asText v = .ok t ↔
      SaysMap (SaysMap SaysText) v t :=
    tableOfJson_eq_ok_iff fun _ _ => asText_eq_ok_iff
  obtain ⟨_, _, _, _, _⟩ := d
  obtain ⟨_, _, _, _, _⟩ := d'
  unfold put
  split
  case h_6 =>
    simp only [Adds, List.mem_cons, List.not_mem_nil, or_false, Except.ok.injEq, mk.injEq,
      canonicalName] at *
    grind
  all_goals
    rename_i hname
    simp only [canonicalName] at hname
    simp only [once_map_eq_ok_iff, Adds, List.mem_cons, List.not_mem_nil, or_false,
      asTexts_eq_ok_iff, htable, asText_eq_ok_iff, asTextMap_eq_ok_iff]
    grind

theorem foldlM_put_eq_ok_iff {d d' : MooreDraft} {es : List (String × Value)} :
    es.foldlM (fun d e => d.put e.1 e.2) d = .ok d' ↔
      Gathers ["states"] SaysTexts d.states es d'.states ∧
      Gathers ["input_symbols"] SaysTexts d.inputSymbols es d'.inputSymbols ∧
      Gathers ["transitions"] (SaysMap (SaysMap SaysText)) d.transitions es d'.transitions ∧
      Gathers ["outputs", "output"] (SaysMap SaysText) d.outputs es d'.outputs ∧
      Gathers ["initial_state"] SaysText d.initialState es d'.initialState := by
  induction es generalizing d with
  | nil =>
    constructor
    · rintro ⟨⟩
      exact ⟨.nil, .nil, .nil, .nil, .nil⟩
    · obtain ⟨_, _, _, _, _⟩ := d
      obtain ⟨_, _, _, _, _⟩ := d'
      rintro ⟨⟨⟩, ⟨⟩, ⟨⟩, ⟨⟩, ⟨⟩⟩
      rfl
  | cons e es ih =>
    rw [List.foldlM_cons, bind_eq_ok_iff]
    constructor
    · rintro ⟨next, hput, h⟩
      obtain ⟨h₁, h₂, h₃, h₄, h₅⟩ := put_eq_ok_iff.mp hput
      obtain ⟨g₁, g₂, g₃, g₄, g₅⟩ := ih.mp h
      exact ⟨.cons h₁ g₁, .cons h₂ g₂, .cons h₃ g₃, .cons h₄ g₄, .cons h₅ g₅⟩
    · rintro ⟨⟨⟩ | ⟨h₁, g₁⟩, ⟨⟩ | ⟨h₂, g₂⟩, ⟨⟩ | ⟨h₃, g₃⟩, ⟨⟩ | ⟨h₄, g₄⟩, ⟨⟩ | ⟨h₅, g₅⟩⟩
      exact ⟨⟨_, _, _, _, _⟩, put_eq_ok_iff.mpr ⟨h₁, h₂, h₃, h₄, h₅⟩,
        ih.mpr ⟨g₁, g₂, g₃, g₄, g₅⟩⟩

theorem finish_eq_ok_iff {d : MooreDraft} {m : Moore} :
    d.finish = .ok m ↔
      d.states = some m.states ∧ d.inputSymbols = some m.inputSymbols ∧
      d.transitions = some m.transitions ∧ d.outputs = some m.outputs ∧
      d.initialState = some m.initialState := by
  obtain ⟨_, _, _, _, _⟩ := m
  unfold finish
  simp only [bind_eq_ok_iff, require_eq_ok_iff, pure, Except.pure, Except.ok.injEq,
    Moore.mk.injEq]
  grind

end MooreDraft

/-- The machine whose fields the members give. -/
structure Moore.SaidBy (m : Moore) (members : List (String × Value)) : Prop where
  states : GivenOnce ["states"] SaysTexts members m.states
  inputSymbols : GivenOnce ["input_symbols"] SaysTexts members m.inputSymbols
  transitions : GivenOnce ["transitions"] (SaysMap (SaysMap SaysText)) members m.transitions
  outputs : GivenOnce ["outputs", "output"] (SaysMap SaysText) members m.outputs
  initialState : GivenOnce ["initial_state"] SaysText members m.initialState

theorem Moore.saidBy_iff {m : Moore} {members : List (String × Value)} :
    (∃ d, members.foldlM (fun d e => d.put e.1 e.2) ({} : MooreDraft) = .ok d ∧
      d.finish = .ok m) ↔ m.SaidBy members := by
  constructor
  · rintro ⟨⟨_, _, _, _, _⟩, hdraft, hfinish⟩
    obtain ⟨h₁, h₂, h₃, h₄, h₅⟩ := MooreDraft.foldlM_put_eq_ok_iff.mp hdraft
    obtain ⟨rfl, rfl, rfl, rfl, rfl⟩ := MooreDraft.finish_eq_ok_iff.mp hfinish
    exact ⟨gathers_some_iff.mp h₁, gathers_some_iff.mp h₂, gathers_some_iff.mp h₃,
      gathers_some_iff.mp h₄, gathers_some_iff.mp h₅⟩
  · rintro ⟨h₁, h₂, h₃, h₄, h₅⟩
    exact ⟨⟨some m.states, some m.inputSymbols, some m.transitions, some m.outputs,
        some m.initialState⟩,
      MooreDraft.foldlM_put_eq_ok_iff.mpr ⟨gathers_some_iff.mpr h₁, gathers_some_iff.mpr h₂,
        gathers_some_iff.mpr h₃, gathers_some_iff.mpr h₄, gathers_some_iff.mpr h₅⟩,
      MooreDraft.finish_eq_ok_iff.mpr ⟨rfl, rfl, rfl, rfl, rfl⟩⟩

/-! ## Machines -/

def SaysKind (v : Value) (kind : MachineKind) : Prop := v = .text kind.name

/-- The fields of the machine are given, whatever its kind. -/
def Machine.FieldsSaidBy (members : List (String × Value)) : Machine → Prop
  | mealy m => m.SaidBy members
  | moore m => m.SaidBy members

/-- The machine whose kind and fields the members give. -/
structure Machine.SaidBy (m : Machine) (members : List (String × Value)) : Prop where
  kind : GivenOnce ["kind"] SaysKind members m.kind
  fields : m.FieldsSaidBy members

/-- **The reader makes the machine that the members say.** -/
theorem ofMembers_eq_ok_iff {kind : MachineKind} {members : List (String × Value)}
    {m : Machine} :
    Machine.ofMembers kind members = .ok m ↔ kind = m.kind ∧ m.FieldsSaidBy members := by
  cases kind with
  | mealy =>
    simp only [Machine.ofMembers, bind_eq_ok_iff]
    constructor
    · rintro ⟨d, hd, n, hn, h⟩
      cases h
      exact ⟨rfl, Mealy.saidBy_iff.mp ⟨d, hd, hn⟩⟩
    · rintro ⟨hkind, h⟩
      cases m with
      | mealy n =>
        obtain ⟨d, hd, hn⟩ := Mealy.saidBy_iff.mpr h
        exact ⟨d, hd, n, hn, rfl⟩
      | moore n => cases hkind
  | moore =>
    simp only [Machine.ofMembers, bind_eq_ok_iff]
    constructor
    · rintro ⟨d, hd, n, hn, h⟩
      cases h
      exact ⟨rfl, Moore.saidBy_iff.mp ⟨d, hd, hn⟩⟩
    · rintro ⟨hkind, h⟩
      cases m with
      | mealy n => cases hkind
      | moore n =>
        obtain ⟨d, hd, hn⟩ := Moore.saidBy_iff.mpr h
        exact ⟨d, hd, n, hn, rfl⟩

end Transducers
