import Transducers.Proofs.DefinitionMembers
import Transducers.Proofs.JsonGrammar

/-!
# The format of definitions

What the members of a definition must be is said about the parts that are written, so that it
can be asked of every object, whether its parts have values or not.

* `IsText`, `IsTransition`, ...: shapes, and `Shapes`: a shape is that of all values that say
  something;
* `written`: the parts under a name, however it is written;
* `FieldSpec`, `MachineKind.fields`: the fields of each kind and their shapes;
* `Accepted`: the format, and `exists_saidBy_iff`: it is met when the members say a machine.
-/

namespace Transducers

open Json

/-! ## Shapes -/

def IsText (t : Tree) : Prop := ∃ ps, t = .text ps

def IsTexts (t : Tree) : Prop := ∃ items, t = .list items ∧ ∀ i ∈ items, IsText i

def IsTextOrNull (t : Tree) : Prop := t = .null ∨ IsText t

/-- An object whose values all have the shape. -/
def IsObjectOf (shape : Tree → Prop) (t : Tree) : Prop :=
  ∃ members, t = .object members ∧ ∀ e ∈ members, shape e.2

/-- The parts under a name, which may be one of several, however it is written. -/
def written (names : List String) (members : List (List Piece × Tree)) : List Tree :=
  (members.filter fun m => (stringOf? m.1).any (· ∈ names)).map Prod.snd

/-- A list of two texts, or an object with `next` and `output` exactly once, as texts. -/
def IsTransition (t : Tree) : Prop :=
  (∃ next output, t = .list [.text next, .text output]) ∨
    ∃ members next output, t = .object members ∧ written ["next"] members = [.text next] ∧
      written ["output"] members = [.text output]

/-- The values under a name are the values of what is written there. -/
theorem forall₂_written {members : List (List Piece × Tree)} {values : List (String × Value)}
    (h : List.Forall₂ Tree.IsMember members values) (names : List String) :
    List.Forall₂ (fun t v => t.value? = some v) (written names members) (given names values) := by
  induction h with
  | nil => exact .nil
  | @cons m e _ _ hmember _ ih =>
    obtain ⟨hname, hvalue⟩ := hmember
    rw [written, given] at ih ⊢
    by_cases he : e.1 ∈ names
    · simpa [hname, he, hvalue] using ih
    · simpa [hname, he] using ih

theorem exists_given_of_written {members : List (List Piece × Tree)}
    {values : List (String × Value)} (h : List.Forall₂ Tree.IsMember members values)
    {names : List String} {t : Tree} (ht : written names members = [t]) :
    ∃ v, given names values = [v] ∧ t.value? = some v := by
  have hvalues := forall₂_written h names
  rw [ht] at hvalues
  obtain ⟨v, rest, hv, hrest, hgiven⟩ := List.forall₂_cons_left_iff.mp hvalues
  cases hrest
  exact ⟨v, hgiven, hv⟩

theorem exists_written_of_given {members : List (List Piece × Tree)}
    {values : List (String × Value)} (h : List.Forall₂ Tree.IsMember members values)
    {names : List String} {v : Value} (hv : given names values = [v]) :
    ∃ t, written names members = [t] ∧ t.value? = some v := by
  have hvalues := forall₂_written h names
  rw [hv] at hvalues
  obtain ⟨t, rest, ht, hrest, hwritten⟩ := List.forall₂_cons_right_iff.mp hvalues
  cases hrest
  exact ⟨t, hwritten, ht⟩

/-- The value says something just when its parts have the shape. -/
def Shapes {α : Type} (shape : Tree → Prop) (means : Value → α → Prop) : Prop :=
  ∀ {t v}, t.value? = some v → ((∃ x, means v x) ↔ shape t)

theorem shapes_text : Shapes IsText SaysText := by
  intro t v h
  constructor
  · rintro ⟨s, rfl⟩
    obtain ⟨ps, rfl, -⟩ := Tree.value?_eq_text_iff.mp h
    exact ⟨ps, rfl⟩
  · rintro ⟨ps, rfl⟩
    obtain ⟨s, -, rfl⟩ := Option.map_eq_some_iff.mp h
    exact ⟨s, rfl⟩

theorem shapes_texts : Shapes IsTexts SaysTexts := by
  have hitems {items : List Tree} {vs : List Value}
      (h : List.Forall₂ (fun t v => t.value? = some v) items vs) :
      (∃ names : List String, vs = names.map .text) ↔ ∀ i ∈ items, IsText i := by
    induction h with
    | nil => exact ⟨fun _ => nofun, fun _ => ⟨[], rfl⟩⟩
    | @cons i v _ vs hv _ ih =>
      rw [List.forall_mem_cons, ← ih, ← shapes_text hv]
      constructor
      · rintro ⟨_ | ⟨s, names⟩, h⟩
        · cases h
        · rw [List.map_cons, List.cons.injEq] at h
          exact ⟨⟨s, h.1⟩, names, h.2⟩
      · rintro ⟨⟨s, rfl⟩, names, rfl⟩
        exact ⟨s :: names, rfl⟩
  intro t v h
  constructor
  · rintro ⟨names, rfl⟩
    obtain ⟨items, rfl, hvalues⟩ := Tree.value?_eq_list_iff.mp h
    exact ⟨items, rfl, (hitems hvalues).mp ⟨names, rfl⟩⟩
  · rintro ⟨items, rfl, hshape⟩
    obtain ⟨vs, hvalues, rfl⟩ := Option.map_eq_some_iff.mp h
    obtain ⟨names, rfl⟩ := (hitems (Tree.values?_eq_some_iff.mp hvalues)).mpr hshape
    exact ⟨names, rfl⟩

theorem shapes_optionalText : Shapes IsTextOrNull SaysOptionalText := by
  intro t v h
  constructor
  · rintro ⟨x, ⟨rfl, -⟩ | ⟨s, hs, -⟩⟩
    · exact Or.inl (Tree.value?_eq_null_iff.mp h)
    · exact Or.inr ((shapes_text h).mp ⟨s, hs⟩)
  · rintro (rfl | ht)
    · cases h
      exact ⟨none, Or.inl ⟨rfl, rfl⟩⟩
    · obtain ⟨s, hs⟩ := (shapes_text h).mpr ht
      exact ⟨some s, Or.inr ⟨s, hs, rfl⟩⟩

theorem shapes_map {α : Type} {means : Value → α → Prop} {shape : Tree → Prop}
    (h : Shapes shape means) : Shapes (IsObjectOf shape) (SaysMap means) := by
  have hmembers {members : List (List Piece × Tree)} {values : List (String × Value)}
      (hvalues : List.Forall₂ Tree.IsMember members values) :
      (∃ es : List (String × α), List.Forall₂ (fun e x => e.1 = x.1 ∧ means e.2 x.2) values es) ↔
        ∀ e ∈ members, shape e.2 := by
    induction hvalues with
    | nil => exact ⟨fun _ => nofun, fun _ => ⟨[], .nil⟩⟩
    | @cons m e _ _ hmember _ ih =>
      rw [List.forall_mem_cons, ← ih, ← h hmember.2]
      constructor
      · rintro ⟨_, hes⟩
        cases hes with
        | cons hx hes => exact ⟨⟨_, hx.2⟩, _, hes⟩
      · rintro ⟨⟨x, hx⟩, es, hes⟩
        exact ⟨(e.1, x) :: es, .cons ⟨rfl, hx⟩ hes⟩
  intro t v ht
  constructor
  · rintro ⟨m, values, es, rfl, hes, -⟩
    obtain ⟨members, rfl, hvalues⟩ := Tree.value?_eq_object_iff.mp ht
    exact ⟨members, rfl, (hmembers hvalues).mp ⟨es, hes⟩⟩
  · rintro ⟨members, rfl, hshape⟩
    obtain ⟨values, hvalues, rfl⟩ := Option.map_eq_some_iff.mp ht
    obtain ⟨es, hes⟩ := (hmembers (Tree.members?_eq_some_iff.mp hvalues)).mpr hshape
    exact ⟨.ofList es, values, es, rfl, hes, rfl⟩

theorem shapes_transition : Shapes IsTransition SaysTransition := by
  intro t v h
  constructor
  · rintro ⟨⟨next, output⟩, rfl | ⟨values, rfl, hnext, houtput⟩⟩
    · obtain ⟨items, rfl, hitems⟩ := Tree.value?_eq_list_iff.mp h
      obtain ⟨t₁, ts, h₁, hrest, rfl⟩ := List.forall₂_cons_right_iff.mp hitems
      obtain ⟨t₂, _, h₂, hnil, rfl⟩ := List.forall₂_cons_right_iff.mp hrest
      cases hnil
      obtain ⟨ps, rfl, -⟩ := Tree.value?_eq_text_iff.mp h₁
      obtain ⟨qs, rfl, -⟩ := Tree.value?_eq_text_iff.mp h₂
      exact Or.inl ⟨ps, qs, rfl⟩
    · obtain ⟨members, rfl, hvalues⟩ := Tree.value?_eq_object_iff.mp h
      obtain ⟨t₁, hwritten₁, h₁⟩ := exists_written_of_given hvalues hnext
      obtain ⟨t₂, hwritten₂, h₂⟩ := exists_written_of_given hvalues houtput
      obtain ⟨ps, rfl, -⟩ := Tree.value?_eq_text_iff.mp h₁
      obtain ⟨qs, rfl, -⟩ := Tree.value?_eq_text_iff.mp h₂
      exact Or.inr ⟨members, ps, qs, rfl, hwritten₁, hwritten₂⟩
  · rintro (⟨ps, qs, rfl⟩ | ⟨members, ps, qs, rfl, hnext, houtput⟩)
    · obtain ⟨vs, hvalues, rfl⟩ := Option.map_eq_some_iff.mp h
      obtain ⟨v₁, ws, h₁, hrest, rfl⟩ :=
        List.forall₂_cons_left_iff.mp (Tree.values?_eq_some_iff.mp hvalues)
      obtain ⟨v₂, _, h₂, hnil, rfl⟩ := List.forall₂_cons_left_iff.mp hrest
      cases hnil
      obtain ⟨next, rfl⟩ := (shapes_text h₁).mpr ⟨ps, rfl⟩
      obtain ⟨output, rfl⟩ := (shapes_text h₂).mpr ⟨qs, rfl⟩
      exact ⟨⟨next, output⟩, Or.inl rfl⟩
    · obtain ⟨values, hvalues, rfl⟩ := Option.map_eq_some_iff.mp h
      rw [Tree.members?_eq_some_iff] at hvalues
      obtain ⟨v₁, hgiven₁, h₁⟩ := exists_given_of_written hvalues hnext
      obtain ⟨v₂, hgiven₂, h₂⟩ := exists_given_of_written hvalues houtput
      obtain ⟨next, rfl⟩ := (shapes_text h₁).mpr ⟨ps, rfl⟩
      obtain ⟨output, rfl⟩ := (shapes_text h₂).mpr ⟨qs, rfl⟩
      exact ⟨⟨next, output⟩, Or.inr ⟨values, rfl, hgiven₁, hgiven₂⟩⟩

/-! ## Fields -/

/-- A field of a definition: its names, whether it is needed, and the shape of its value. -/
structure FieldSpec where
  names : List String
  needed : Bool
  shape : Tree → Prop

/-- The members give the field at most once, give it if it is needed, and with its
shape. -/
structure FieldSpec.Met (f : FieldSpec) (members : List (List Piece × Tree)) : Prop where
  atMostOnce : (written f.names members).length ≤ 1
  present : f.needed = true → written f.names members ≠ []
  shaped : ∀ t ∈ written f.names members, f.shape t

theorem FieldSpec.Met.of_written {f : FieldSpec} {members : List (List Piece × Tree)} {t : Tree}
    (h : written f.names members = [t]) (ht : f.shape t) : f.Met members :=
  ⟨by simp [h], by simp [h], by simpa [h] using ht⟩

theorem FieldSpec.Met.exists_written {f : FieldSpec} {members : List (List Piece × Tree)}
    (h : f.Met members) (hne : written f.names members ≠ []) :
    ∃ t, written f.names members = [t] ∧ f.shape t := by
  obtain ⟨t, ht⟩ := List.length_eq_one_iff.mp
    (Nat.le_antisymm h.atMostOnce (List.length_pos_of_ne_nil hne))
  exact ⟨t, ht, h.shaped t (by simp [ht])⟩

/-- The fields of a kind of machine. -/
def MachineKind.fields : MachineKind → List FieldSpec
  | mealy =>
    [⟨["states"], true, IsTexts⟩, ⟨["input_symbols"], true, IsTexts⟩,
      ⟨["transitions"], true, IsObjectOf (IsObjectOf IsTransition)⟩,
      ⟨["initial_state"], true, IsText⟩, ⟨["initial_output"], false, IsTextOrNull⟩,
      ⟨["state_outputs"], false, IsObjectOf IsText⟩]
  | moore =>
    [⟨["states"], true, IsTexts⟩, ⟨["input_symbols"], true, IsTexts⟩,
      ⟨["transitions"], true, IsObjectOf (IsObjectOf IsText)⟩,
      ⟨["outputs", "output"], true, IsObjectOf IsText⟩, ⟨["initial_state"], true, IsText⟩]

/-- The members have the one kind, and the fields of that kind as they must be. -/
structure Accepted (kind : MachineKind) (members : List (List Piece × Tree)) : Prop where
  tagged : ∃ ps, written ["kind"] members = [.text ps] ∧ stringOf? ps = some kind.name
  fields : ∀ f ∈ kind.fields, f.Met members

section Met

variable {members : List (List Piece × Tree)} {values : List (String × Value)}
  (hvalues : List.Forall₂ Tree.IsMember members values)
include hvalues

section Field

variable {α : Type} {names : List String} {means : Value → α → Prop} {shape : Tree → Prop}
  (h : Shapes shape means)
include h

theorem exists_givenOnce_iff :
    (∃ x, GivenOnce names means values x) ↔ FieldSpec.Met ⟨names, true, shape⟩ members := by
  constructor
  · rintro ⟨x, v, hv, hx⟩
    obtain ⟨t, hwritten, ht⟩ := exists_written_of_given hvalues hv
    exact .of_written hwritten ((h ht).mp ⟨x, hx⟩)
  · intro hmet
    obtain ⟨t, hwritten, hshape⟩ := hmet.exists_written (hmet.present rfl)
    obtain ⟨v, hv, ht⟩ := exists_given_of_written hvalues hwritten
    obtain ⟨x, hx⟩ := (h ht).mpr hshape
    exact ⟨x, v, hv, hx⟩

theorem exists_givenAtMostOnce_iff (default : α) :
    (∃ x, GivenAtMostOnce names means default values x) ↔
      FieldSpec.Met ⟨names, false, shape⟩ members := by
  have hforall := forall₂_written hvalues names
  constructor
  · rintro ⟨x, ⟨hnone, -⟩ | honce⟩
    · rw [hnone, List.forall₂_nil_right_iff] at hforall
      exact ⟨by simp [hforall], nofun, by simp [hforall]⟩
    · obtain ⟨honce, -, hshape⟩ := (exists_givenOnce_iff hvalues h).mp ⟨x, honce⟩
      exact ⟨honce, nofun, hshape⟩
  · intro hmet
    by_cases hne : written names members = []
    · rw [hne, List.forall₂_nil_left_iff] at hforall
      exact ⟨default, Or.inl ⟨hforall, rfl⟩⟩
    · have hneeded : FieldSpec.Met ⟨names, true, shape⟩ members :=
        ⟨hmet.atMostOnce, fun _ => hne, hmet.shaped⟩
      obtain ⟨x, hx⟩ := (exists_givenOnce_iff hvalues h).mpr hneeded
      exact ⟨x, Or.inr hx⟩

end Field

theorem Mealy.exists_saidBy_iff :
    (∃ m : Mealy, m.SaidBy values) ↔ ∀ f ∈ MachineKind.mealy.fields, f.Met members := by
  simp only [MachineKind.fields, List.forall_mem_cons, List.not_mem_nil, false_implies,
    implies_true, and_true, ← exists_givenOnce_iff hvalues shapes_texts,
    ← exists_givenOnce_iff hvalues shapes_text,
    ← exists_givenOnce_iff hvalues (shapes_map (shapes_map shapes_transition)),
    ← exists_givenAtMostOnce_iff hvalues shapes_optionalText none,
    ← exists_givenAtMostOnce_iff hvalues (shapes_map shapes_text) .empty]
  constructor
  · rintro ⟨m, h⟩
    exact ⟨⟨_, h.states⟩, ⟨_, h.inputSymbols⟩, ⟨_, h.transitions⟩, ⟨_, h.initialState⟩,
      ⟨_, h.initialOutput⟩, ⟨_, h.stateOutputs⟩⟩
  · rintro ⟨⟨_, h₁⟩, ⟨_, h₂⟩, ⟨_, h₃⟩, ⟨_, h₄⟩, ⟨_, h₅⟩, ⟨_, h₆⟩⟩
    exact ⟨⟨_, _, _, _, _, _⟩, ⟨h₁, h₂, h₃, h₄, h₅, h₆⟩⟩

theorem Moore.exists_saidBy_iff :
    (∃ m : Moore, m.SaidBy values) ↔ ∀ f ∈ MachineKind.moore.fields, f.Met members := by
  simp only [MachineKind.fields, List.forall_mem_cons, List.not_mem_nil, false_implies,
    implies_true, and_true, ← exists_givenOnce_iff hvalues shapes_texts,
    ← exists_givenOnce_iff hvalues shapes_text,
    ← exists_givenOnce_iff hvalues (shapes_map (shapes_map shapes_text)),
    ← exists_givenOnce_iff hvalues (shapes_map shapes_text)]
  constructor
  · rintro ⟨m, h⟩
    exact ⟨⟨_, h.states⟩, ⟨_, h.inputSymbols⟩, ⟨_, h.transitions⟩, ⟨_, h.outputs⟩,
      ⟨_, h.initialState⟩⟩
  · rintro ⟨⟨_, h₁⟩, ⟨_, h₂⟩, ⟨_, h₃⟩, ⟨_, h₄⟩, ⟨_, h₅⟩⟩
    exact ⟨⟨_, _, _, _, _⟩, ⟨h₁, h₂, h₃, h₄, h₅⟩⟩

theorem givenOnce_kind_iff {kind : MachineKind} :
    GivenOnce ["kind"] SaysKind values kind ↔
      ∃ ps, written ["kind"] members = [.text ps] ∧ stringOf? ps = some kind.name := by
  constructor
  · rintro ⟨v, hv, rfl⟩
    obtain ⟨t, hwritten, ht⟩ := exists_written_of_given hvalues hv
    obtain ⟨ps, rfl, hps⟩ := Tree.value?_eq_text_iff.mp ht
    exact ⟨ps, hwritten, hps⟩
  · rintro ⟨ps, hwritten, hps⟩
    obtain ⟨v, hv, ht⟩ := exists_given_of_written hvalues hwritten
    have htext : (Tree.text ps).value? = some (.text kind.name) :=
      Tree.value?_eq_text_iff.mpr ⟨ps, rfl, hps⟩
    rw [ht, Option.some.injEq] at htext
    exact ⟨v, hv, htext⟩

/-- **The format is met when the members say a machine.** -/
theorem exists_saidBy_iff :
    (∃ m : Machine, m.SaidBy values) ↔ ∃ kind, Accepted kind members := by
  constructor
  · rintro ⟨m, hkind, hfields⟩
    refine ⟨m.kind, (givenOnce_kind_iff hvalues).mp hkind, ?_⟩
    cases m with
    | mealy m => exact (Mealy.exists_saidBy_iff hvalues).mp ⟨m, hfields⟩
    | moore m => exact (Moore.exists_saidBy_iff hvalues).mp ⟨m, hfields⟩
  · rintro ⟨kind, htagged, hfields⟩
    have hkind := (givenOnce_kind_iff hvalues).mpr htagged
    cases kind with
    | mealy =>
      obtain ⟨m, hm⟩ := (Mealy.exists_saidBy_iff hvalues).mpr hfields
      exact ⟨.mealy m, hkind, hm⟩
    | moore =>
      obtain ⟨m, hm⟩ := (Moore.exists_saidBy_iff hvalues).mpr hfields
      exact ⟨.moore m, hkind, hm⟩

end Met

end Transducers
