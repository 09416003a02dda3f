import Transducers.Proofs.DefinitionShapes
import Transducers.Proofs.DefinitionText
import Transducers.Proofs.TextParts

/-!
# Which definitions are accepted

An object is accepted if it has one kind, gives each field of that kind at most once and
each needed one, and every given value has the shape of its field.  Nothing else about the
object matters: other members, the order, the place of the kind, the second name of the
outputs.  Only nesting, numbers and pairs of units are limited, also in members that are
passed over.

* `SameFields`, `Machine.SaidBy.congr`: what a machine depends on;
* `TaggedMembers.folds_iff`, `takes_readMachine_iff`: an object is read member by member;
* `readDefinition_eq_ok_iff`: an object defines the machine that its members say;
* `readDefinition_object`: **what is accepted, what is read, and what it depends on**;
* `readDefinition_passedOver`: members that are passed over.
-/

namespace Transducers

open Json

/-! ## What a machine depends on -/

/-- The members give the kind and its fields the same values, in any order and under any
of their names. -/
structure SameFields (kind : MachineKind) (members members' : List (String × Value)) : Prop where
  tag : (given ["kind"] members).Perm (given ["kind"] members')
  fields : ∀ f ∈ kind.fields, (given f.names members).Perm (given f.names members')

section Congr

variable {α : Type} {names : List String} {means : Value → α → Prop} {x : α}
  {members members' : List (String × Value)}
  (h : (given names members).Perm (given names members'))
include h

theorem GivenOnce.congr (hx : GivenOnce names means members x) :
    GivenOnce names means members' x := by
  obtain ⟨v, hv, hx⟩ := hx
  rw [hv] at h
  exact ⟨v, List.perm_singleton.mp h.symm, hx⟩

theorem GivenAtMostOnce.congr {default : α}
    (hx : GivenAtMostOnce names means default members x) :
    GivenAtMostOnce names means default members' x := by
  rcases hx with ⟨hnone, rfl⟩ | hx
  · rw [hnone] at h
    exact Or.inl ⟨List.perm_nil.mp h.symm, rfl⟩
  · exact Or.inr (hx.congr h)

end Congr

theorem Machine.FieldsSaidBy.congr {m : Machine} {members members' : List (String × Value)}
    (h : ∀ f ∈ m.kind.fields, (given f.names members).Perm (given f.names members'))
    (hm : m.FieldsSaidBy members) : m.FieldsSaidBy members' := by
  cases m with
  | mealy m =>
    simp only [Machine.kind, MachineKind.fields, List.forall_mem_cons] at h
    obtain ⟨h₁, h₂, h₃, h₄, h₅, h₆, -⟩ := h
    exact ⟨hm.states.congr h₁, hm.inputSymbols.congr h₂, hm.transitions.congr h₃,
      hm.initialState.congr h₄, hm.initialOutput.congr h₅, hm.stateOutputs.congr h₆⟩
  | moore m =>
    simp only [Machine.kind, MachineKind.fields, List.forall_mem_cons] at h
    obtain ⟨h₁, h₂, h₃, h₄, h₅, -⟩ := h
    exact ⟨hm.states.congr h₁, hm.inputSymbols.congr h₂, hm.transitions.congr h₃,
      hm.outputs.congr h₄, hm.initialState.congr h₅⟩

theorem Machine.SaidBy.congr {m : Machine} {members members' : List (String × Value)}
    (h : SameFields m.kind members members') (hm : m.SaidBy members) : m.SaidBy members' :=
  ⟨hm.kind.congr h.tag, hm.fields.congr h.fields⟩

/-- No field is called `kind`. -/
theorem fieldsSaidBy_filter_iff {m : Machine} {members : List (String × Value)} :
    m.FieldsSaidBy (members.filter (·.1 ≠ "kind")) ↔ m.FieldsSaidBy members := by
  have hnames : ∀ kind : MachineKind, ∀ f ∈ kind.fields, "kind" ∉ f.names := by
    intro kind
    cases kind <;> simp [MachineKind.fields]
  have hgiven : ∀ f ∈ m.kind.fields,
      given f.names (members.filter (·.1 ≠ "kind")) = given f.names members := by
    intro f hf
    rw [given, given, List.filter_filter]
    congr 2
    funext e
    by_cases he : e.1 = "kind"
    · simp [he, hnames m.kind f hf]
    · simp [he]
  constructor
  · exact Machine.FieldsSaidBy.congr fun f hf => .of_eq (hgiven f hf)
  · exact Machine.FieldsSaidBy.congr fun f hf => .of_eq (hgiven f hf).symm

/-! ## Texts -/

theorem MachineKind.ofName?_eq_some_iff {s : String} {kind : MachineKind} :
    ofName? s = some kind ↔ s = kind.name := by
  unfold ofName?
  cases kind <;> split_ifs <;> simp_all [name]

/-- A kind is read off a text that names it. -/
theorem takes_readKind_iff {s rest : List Char} {kind : MachineKind} :
    Takes readKind s kind rest ↔ Takes readHead s (.text kind.name) rest := by
  constructor
  · rintro ⟨hlt, h⟩
    obtain ⟨⟨head, r⟩, hhead, h⟩ := bind_eq_ok_iff.mp h
    cases head with
    | text name =>
      simp only at h
      split at h
      · rename_i hname
        cases h
        rw [MachineKind.ofName?_eq_some_iff.mp hname] at hhead
        exact ⟨hlt, hhead⟩
      · cases h
    | _ => cases h
  · rintro ⟨hlt, hhead⟩
    refine ⟨hlt, bind_eq_ok_iff.mpr ⟨_, hhead, ?_⟩⟩
    simp only [MachineKind.ofName?_name]
    rfl

namespace TaggedMembers

/-- The kind is noted, if there was none. -/
theorem takes_member_kind_iff {known known' : TaggedMembers} {s rest : List Char} :
    (∃ value, known.member "kind" = .ok value ∧ Takes value s known' rest) ↔
      ∃ kind, Takes readKind s kind rest ∧ known.kind = none ∧
        known' = ⟨some kind, known.reversed⟩ := by
  constructor
  · rintro ⟨value, hvalue, hlt, h⟩
    rw [member, if_pos rfl] at hvalue
    split at hvalue
    · cases hvalue
    · rename_i hnone
      cases hvalue
      obtain ⟨⟨kind, r⟩, hkind, h⟩ := bind_eq_ok_iff.mp h
      cases h
      exact ⟨kind, ⟨hlt, hkind⟩, by simpa using hnone, rfl⟩
  · rintro ⟨kind, ⟨hlt, hkind⟩, hnone, rfl⟩
    refine ⟨_, by rw [member, if_pos rfl, hnone]; rfl, hlt, ?_⟩
    exact bind_eq_ok_iff.mpr ⟨_, hkind, rfl⟩

/-- Other members are kept. -/
theorem takes_member_other_iff {known known' : TaggedMembers} {name : String}
    (hname : name ≠ "kind") {s rest : List Char} :
    (∃ value, known.member name = .ok value ∧ Takes value s known' rest) ↔
      ∃ v, Takes (readValue (maxDepth - 1)) s v rest ∧
        known' = ⟨known.kind, (name, v) :: known.reversed⟩ := by
  constructor
  · rintro ⟨value, hvalue, hlt, h⟩
    rw [member, if_neg hname] at hvalue
    cases hvalue
    obtain ⟨⟨v, r⟩, hv, h⟩ := bind_eq_ok_iff.mp h
    cases h
    exact ⟨v, ⟨hlt, hv⟩, rfl⟩
  · rintro ⟨v, ⟨hlt, hv⟩, rfl⟩
    refine ⟨_, by rw [member, if_neg hname], hlt, ?_⟩
    exact bind_eq_ok_iff.mpr ⟨_, hv, rfl⟩

/-- **One member.**  Its value is read, and added to the kind or to the other members. -/
theorem takes_member_iff {known known' : TaggedMembers} {name : String} {s rest : List Char} :
    (∃ value, known.member name = .ok value ∧ Takes value s known' rest) ↔
      ∃ v, Takes (readValue (maxDepth - 1)) s v rest ∧
        Adds ["kind"] SaysKind known.kind (name, v) known'.kind ∧
        known'.reversed = [(name, v)].filter (·.1 ≠ "kind") ++ known.reversed := by
  obtain ⟨kind', reversed'⟩ := known'
  by_cases hname : name = "kind"
  · subst hname
    rw [takes_member_kind_iff]
    constructor
    · rintro ⟨kind, hkind, hnone, h⟩
      cases h
      exact ⟨.text kind.name, takes_readValue_text_iff.mpr (takes_readKind_iff.mp hkind),
        by simp [Adds, hnone, SaysKind], by simp⟩
    · rintro ⟨v, hv, hadds, hreversed⟩
      rw [Adds, if_pos (by simp)] at hadds
      obtain ⟨hnone, kind, rfl, rfl⟩ := hadds
      exact ⟨kind, takes_readKind_iff.mpr (takes_readValue_text_iff.mp hv), hnone,
        by simpa using hreversed⟩
  · rw [takes_member_other_iff hname]
    constructor
    · rintro ⟨v, hv, h⟩
      cases h
      exact ⟨v, hv, by simp [Adds, hname], by simp [hname]⟩
    · rintro ⟨v, hv, hadds, hreversed⟩
      rw [Adds, if_neg (by simpa using hname)] at hadds
      exact ⟨v, hv, by simp_all⟩

theorem reverse_filter_cons (e : String × Value) (es : List (String × Value)) :
    ((e :: es).filter (·.1 ≠ "kind")).reverse =
      (es.filter (·.1 ≠ "kind")).reverse ++ [e].filter (·.1 ≠ "kind") := by
  by_cases he : e.1 = "kind" <;> simp [he]

/-- **All members.** -/
theorem folds_iff {first : Bool} {known last : TaggedMembers} {s rest : List Char} :
    Folds member first known s last rest ↔
      ∃ es, Lists (readValue (maxDepth - 1)) first s es rest ∧
        Gathers ["kind"] SaysKind known.kind es last.kind ∧
        last.reversed = (es.filter (·.1 ≠ "kind")).reverse ++ known.reversed := by
  constructor
  · intro h
    induction h with
    | close closed => exact ⟨[], .close closed, .nil, rfl⟩
    | @member _ known next last name value _ _ _ _ _ _ begun named accepted parted taken _ ih =>
      obtain ⟨v, hv, hadds, hreversed⟩ := takes_member_iff.mp ⟨value, accepted, taken⟩
      obtain ⟨es, hes, hgathers, hlast⟩ := ih
      refine ⟨(name, v) :: es, .item begun ⟨_, _, named, parted, hv⟩ hes, .cons hadds hgathers, ?_⟩
      rw [hlast, hreversed, reverse_filter_cons, List.append_assoc]
  · rintro ⟨es, hes, hgathers, hlast⟩
    induction hes generalizing known with
    | close closed =>
      obtain ⟨kind, reversed⟩ := last
      obtain ⟨kind', reversed'⟩ := known
      simp only at hgathers hlast
      cases hgathers
      subst hlast
      exact .close closed
    | @item _ _ _ _ _ e es begun here _ ih =>
      obtain ⟨name, v⟩ := e
      obtain ⟨_, _, named, parted, taken⟩ := here
      rcases hgathers with _ | ⟨hadds, hgathers⟩
      rename_i next
      rw [reverse_filter_cons, List.append_assoc] at hlast
      let known' : TaggedMembers :=
        ⟨next, [(name, v)].filter (·.1 ≠ "kind") ++ known.reversed⟩
      have hmember : ∃ value, known.member name = .ok value ∧ Takes value _ known' _ :=
        takes_member_iff.mpr ⟨v, taken, hadds, rfl⟩
      obtain ⟨value, accepted, taken⟩ := hmember
      exact .member begun named accepted parted taken (ih hgathers hlast)

theorem machine_eq_ok_iff {known : TaggedMembers} {m : Machine} :
    known.machine = .ok m ↔
      known.kind = some m.kind ∧ m.FieldsSaidBy known.reversed.reverse := by
  rw [machine, bind_eq_ok_iff]
  constructor
  · rintro ⟨kind, hkind, hm⟩
    obtain ⟨rfl, hfields⟩ := ofMembers_eq_ok_iff.mp hm
    exact ⟨require_eq_ok_iff.mp hkind, hfields⟩
  · rintro ⟨hkind, hfields⟩
    exact ⟨m.kind, require_eq_ok_iff.mpr hkind, ofMembers_eq_ok_iff.mpr ⟨rfl, hfields⟩⟩

end TaggedMembers

/-- Members are read, and make the machine that they say. -/
theorem takes_tagged_iff {s rest : List Char} {m : Machine} :
    (∃ last : TaggedMembers, Takes (foldMembers readString TaggedMembers.member true ⟨none, []⟩)
      s last rest ∧ last.machine = .ok m) ↔
      ∃ members, Lists (readValue (maxDepth - 1)) true s members rest ∧ m.SaidBy members := by
  constructor
  · rintro ⟨last, hfold, hmachine⟩
    rw [takes_foldMembers_iff, TaggedMembers.folds_iff] at hfold
    obtain ⟨members, hmembers, hkind, hlast⟩ := hfold
    obtain ⟨hsome, hfields⟩ := TaggedMembers.machine_eq_ok_iff.mp hmachine
    rw [hsome] at hkind
    rw [hlast, List.append_nil, List.reverse_reverse, fieldsSaidBy_filter_iff] at hfields
    exact ⟨members, hmembers, gathers_some_iff.mp hkind, hfields⟩
  · rintro ⟨members, hmembers, hkind, hfields⟩
    refine ⟨⟨some m.kind, (members.filter (·.1 ≠ "kind")).reverse⟩, ?_, ?_⟩
    · rw [takes_foldMembers_iff, TaggedMembers.folds_iff]
      exact ⟨members, hmembers, gathers_some_iff.mpr hkind, (List.append_nil _).symm⟩
    · refine TaggedMembers.machine_eq_ok_iff.mpr ⟨rfl, ?_⟩
      rw [List.reverse_reverse]
      exact fieldsSaidBy_filter_iff.mpr hfields

/-- **An object is read as the machine that its members say.** -/
theorem takes_readMachine_iff {s r rest : List Char} {m : Machine}
    (hhead : Takes readHead s .object r) :
    Takes readMachine s m rest ↔
      ∃ members, Takes (readValue maxDepth) s (.object members) rest ∧ m.SaidBy members := by
  have hmembers (members : List (String × Value)) :
      Takes (readValue maxDepth) s (.object members) rest ↔
        Lists (readValue (maxDepth - 1)) true r members rest := by
    constructor
    · intro h
      obtain ⟨r', hhead', h⟩ := takes_readValue_object_iff.mp h
      obtain rfl := (hhead.unique hhead').2
      exact h
    · intro h
      exact takes_readValue_object_iff.mpr ⟨r, hhead, h⟩
  simp only [hmembers, ← takes_tagged_iff]
  constructor
  · rintro ⟨hlt, h⟩
    obtain ⟨⟨head, r', hr'⟩, hhead', h⟩ := bind_eq_ok_iff.mp h
    obtain ⟨hr, hhead⟩ := hhead
    rw [hhead] at hhead'
    cases hhead'
    obtain ⟨⟨last, t, ht⟩, hfold, h⟩ := bind_eq_ok_iff.mp h
    obtain ⟨n, hmachine, h⟩ := bind_eq_ok_iff.mp h
    cases h
    exact ⟨last, ⟨ht, hfold⟩, mapError_eq_ok_iff.mp hmachine⟩
  · rintro ⟨last, ⟨ht, hfold⟩, hmachine⟩
    obtain ⟨hr, hhead⟩ := hhead
    refine ⟨length_lt_trans hr ht, ?_⟩
    refine bind_eq_ok_iff.mpr ⟨_, hhead, bind_eq_ok_iff.mpr ⟨_, hfold, ?_⟩⟩
    exact bind_eq_ok_iff.mpr ⟨m, mapError_eq_ok_iff.mpr hmachine, rfl⟩

/-- A list is read as the kind and the items after it. -/
theorem exists_items_of_takes {s r rest : List Char} {m : Machine}
    (hhead : Takes readHead s .list r) (h : Takes readMachine s m rest) :
    ∃ items, Takes (readValue maxDepth) s (.list items) rest := by
  obtain ⟨hr, hread⟩ := hhead
  obtain ⟨hlt, h⟩ := h
  obtain ⟨⟨head, r', hr'⟩, hread', h⟩ := bind_eq_ok_iff.mp h
  rw [hread] at hread'
  cases hread'
  obtain ⟨there, hnext, h⟩ := bind_eq_ok_iff.mp h
  cases there with
  | close _ => cases h
  | item t =>
    obtain ⟨t, ht⟩ := t
    obtain ⟨⟨kind, u, hu⟩, hkind, h⟩ := bind_eq_ok_iff.mp h
    obtain ⟨⟨items, v, hv⟩, hitems, h⟩ := bind_eq_ok_iff.mp h
    obtain ⟨n, -, h⟩ := bind_eq_ok_iff.mp h
    cases h
    have htext : Takes (readValue (maxDepth - 1)) t (.text kind.name) u :=
      takes_readValue_text_iff.mpr (takes_readKind_iff.mp ⟨hu, hkind⟩)
    exact ⟨_, takes_readValue_list ⟨hr, hread⟩
      (.item ⟨ht, hnext⟩ htext (items_of_takes ⟨hv, hitems⟩))⟩

/-- Whatever is accepted is a document. -/
theorem isDocument_of_readDefinition {source : String} {m : Machine}
    (h : readDefinition source = .ok m) :
    ∃ t, IsDocument source t ∧ t.Paired ∧ t.InRange ∧ t.Within maxDepth := by
  obtain ⟨rest, h, hblank⟩ := readAll_eq_ok_iff.mp h
  have hvalue : ∃ v, Takes (readValue maxDepth) source.toList v rest := by
    obtain ⟨hlt, hread⟩ := id h
    obtain ⟨⟨head, r, hr⟩, hhead, hread⟩ := bind_eq_ok_iff.mp hread
    cases head with
    | object =>
      obtain ⟨values, hobject, -⟩ := (takes_readMachine_iff ⟨hr, hhead⟩).mp h
      exact ⟨_, hobject⟩
    | list =>
      obtain ⟨items, hlist⟩ := exists_items_of_takes ⟨hr, hhead⟩ h
      exact ⟨_, hlist⟩
    | _ => cases hread
  obtain ⟨v, hv⟩ := hvalue
  have hread := readAll_eq_ok_iff.mpr ⟨rest, hv, hblank⟩
  obtain ⟨t, hdoc⟩ := exists_isDocument hread
  obtain ⟨hwithin, hvalue⟩ := (readAll_readValue_iff hdoc).mp hread
  obtain ⟨hpaired, hrange⟩ := Tree.value?_ne_none_iff.mp (by rw [hvalue]; nofun)
  exact ⟨t, hdoc, hpaired, hrange, hwithin⟩

/-- An object defines the machine that its members say, if it is not nested too deep. -/
theorem readDefinition_eq_ok_iff {source : String} {members : List (List Piece × Tree)}
    (hdoc : IsDocument source (.object members)) {m : Machine} :
    readDefinition source = .ok m ↔
      (Tree.object members).Within maxDepth ∧
        ∃ values, (Tree.object members).value? = some (.object values) ∧ m.SaidBy values := by
  have hhead : ∃ r, Takes readHead source.toList .object r := by
    obtain ⟨before, s, after, hbefore, -, hs, hsource⟩ := hdoc
    rw [hsource]
    cases hs with
    | noMembers _ => exact ⟨_, readHead_object hbefore _⟩
    | members _ _ _ _ _ => exact ⟨_, readHead_object hbefore _⟩
  obtain ⟨r, hhead⟩ := hhead
  have hvalues (values : List (String × Value)) :
      readAll (readValue maxDepth) source = .ok (.object values) ↔
        (Tree.object members).Within maxDepth ∧
          (Tree.object members).value? = some (.object values) :=
    readAll_readValue_iff hdoc
  rw [readDefinition, readAll_eq_ok_iff]
  simp only [takes_readMachine_iff hhead]
  constructor
  · rintro ⟨rest, ⟨values, hobject, hm⟩, hblank⟩
    obtain ⟨hwithin, hvalue⟩ :=
      (hvalues values).mp (readAll_eq_ok_iff.mpr ⟨rest, hobject, hblank⟩)
    exact ⟨hwithin, values, hvalue, hm⟩
  · rintro ⟨hwithin, values, hvalue, hm⟩
    obtain ⟨rest, hobject, hblank⟩ :=
      readAll_eq_ok_iff.mp ((hvalues values).mpr ⟨hwithin, hvalue⟩)
    exact ⟨rest, ⟨values, hobject, hm⟩, hblank⟩

theorem readDefinition_eq_ok_iff_of_value {source : String} {t : Tree} (hdoc : IsDocument source t)
    {values : List (String × Value)} (hvalue : t.value? = some (.object values)) {m : Machine} :
    readDefinition source = .ok m ↔ t.Within maxDepth ∧ m.SaidBy values := by
  obtain ⟨members, rfl, -⟩ := Tree.value?_eq_object_iff.mp hvalue
  simp [readDefinition_eq_ok_iff hdoc, hvalue]

theorem exists_readDefinition_iff {source : String} {members : List (List Piece × Tree)}
    (hdoc : IsDocument source (.object members)) :
    (∃ m, readDefinition source = .ok m) ↔
      (Tree.object members).Paired ∧ (Tree.object members).InRange ∧
        (Tree.object members).Within maxDepth ∧ ∃ kind, Accepted kind members := by
  have hsaid {values : List (String × Value)}
      (hvalue : (Tree.object members).value? = some (.object values)) :
      (∃ m : Machine, m.SaidBy values) ↔ ∃ kind, Accepted kind members := by
    obtain ⟨_, ⟨⟩, hmembers⟩ := Tree.value?_eq_object_iff.mp hvalue
    exact exists_saidBy_iff hmembers
  rw [← and_assoc, ← Tree.exists_object_value_iff]
  constructor
  · rintro ⟨m, hm⟩
    obtain ⟨hwithin, values, hvalue, hm⟩ := (readDefinition_eq_ok_iff hdoc).mp hm
    exact ⟨⟨values, hvalue⟩, hwithin, (hsaid hvalue).mp ⟨m, hm⟩⟩
  · rintro ⟨⟨values, hvalue⟩, hwithin, haccepted⟩
    obtain ⟨m, hm⟩ := (hsaid hvalue).mpr haccepted
    exact ⟨m, (readDefinition_eq_ok_iff hdoc).mpr ⟨hwithin, values, hvalue, hm⟩⟩

/-- **Definitions are accepted exactly in their format.**  An object defines a machine if every
unit of a pair in it has the other, no number in it is too great, at most 127 lists and objects
are open at the same time, and its members are as they must be; and then it defines the machine
that they say.  Another object that gives the kind and its fields the same values, among whatever
other members, defines the same machine.  What is no document defines none. -/
theorem readDefinition_object :
    (∀ source members, IsDocument source (.object members) →
      ((∃ m, readDefinition source = .ok m) ↔
        (Tree.object members).Paired ∧ (Tree.object members).InRange ∧
          (Tree.object members).Within 127 ∧ ∃ kind, Accepted kind members)) ∧
    (∀ source t values m, IsDocument source t → t.value? = some (.object values) →
      (readDefinition source = .ok m ↔ t.Within 127 ∧ m.SaidBy values)) ∧
    (∀ source t values source' t' values' m,
      IsDocument source t → t.value? = some (.object values) →
      IsDocument source' t' → t'.value? = some (.object values') → t'.Within 127 →
      SameFields m.kind values values' → readDefinition source = .ok m →
      readDefinition source' = .ok m) ∧
    ∀ source m, readDefinition source = .ok m →
      ∃ t, IsDocument source t ∧ t.Paired ∧ t.InRange ∧ t.Within 127 := by
  refine ⟨fun source members hdoc => exists_readDefinition_iff hdoc,
    fun source t values m hdoc hvalue => readDefinition_eq_ok_iff_of_value hdoc hvalue, ?_,
    fun source m => isDocument_of_readDefinition⟩
  intro source t values source' t' values' m hdoc hvalue hdoc' hvalue' hwithin hsame hread
  obtain ⟨-, hm⟩ := (readDefinition_eq_ok_iff_of_value hdoc hvalue).mp hread
  exact (readDefinition_eq_ok_iff_of_value hdoc' hvalue').mpr ⟨hwithin, hm.congr hsame⟩

/-- The outputs under their second name and with a name twice, other members, and the kind
among them. -/
def shuffledMembers : List (String × Value) :=
  [("x", .bool true), ("output", .object [("A", .text "x"), ("A", .text "y")]),
    ("initial_state", .text "A"), ("kind", .text "moore"), ("x", .null),
    ("transitions", .object []), ("states", .list [.text "A"]), ("input_symbols", .list [])]

/-- The same fields, and no other members. -/
def orderedMembers : List (String × Value) :=
  [("kind", .text "moore"), ("states", .list [.text "A"]), ("input_symbols", .list []),
    ("transitions", .object []), ("outputs", .object [("A", .text "x"), ("A", .text "y")]),
    ("initial_state", .text "A")]

def shuffledMachine : Moore where
  states := ["A"]
  inputSymbols := []
  transitions := .empty
  outputs := .ofList [("A", "x"), ("A", "y")]
  initialState := "A"

/-- Transitions as a pair and as an object, and a null for no output. -/
def mixedMembers : List (String × Value) :=
  [("initial_output", .null), ("states", .list []), ("input_symbols", .list []),
    ("transitions", .object [("A", .object [("0", .list [.text "A", .text "x"]),
      ("1", .object [("output", .text "y"), ("next", .text "A")])])]),
    ("kind", .text "mealy"), ("outputs", .bool false), ("initial_state", .text "A")]

theorem shuffled_saidBy : (Machine.moore shuffledMachine).SaidBy shuffledMembers where
  kind := ⟨_, rfl, rfl⟩
  fields :=
    { states := ⟨_, rfl, rfl⟩
      inputSymbols := ⟨_, rfl, rfl⟩
      transitions := ⟨_, rfl, [], [], rfl, .nil, rfl⟩
      outputs := ⟨_, rfl, _, [("A", "x"), ("A", "y")], rfl,
        .cons ⟨rfl, rfl⟩ (.cons ⟨rfl, rfl⟩ .nil), rfl⟩
      initialState := ⟨_, rfl, rfl⟩ }

theorem sameFields_ordered : SameFields .moore shuffledMembers orderedMembers where
  tag := .of_eq rfl
  fields := by
    simp only [MachineKind.fields, List.forall_mem_cons]
    exact ⟨.of_eq rfl, .of_eq rfl, .of_eq rfl, .of_eq rfl, .of_eq rfl, by simp⟩

def mixedMachine : Mealy where
  states := []
  inputSymbols := []
  transitions := .ofList [("A", .ofList [("0", ⟨"A", "x"⟩), ("1", ⟨"A", "y"⟩)])]
  initialState := "A"
  initialOutput := none
  stateOutputs := .empty

theorem mixed_saidBy : (Machine.mealy mixedMachine).SaidBy mixedMembers where
  kind := ⟨_, rfl, rfl⟩
  fields :=
    { states := ⟨_, rfl, rfl⟩
      inputSymbols := ⟨_, rfl, rfl⟩
      transitions := by
        have hrow : SaysMap SaysTransition
            (.object [("0", .list [.text "A", .text "x"]),
              ("1", .object [("output", .text "y"), ("next", .text "A")])])
            (.ofList [("0", ⟨"A", "x"⟩), ("1", ⟨"A", "y"⟩)]) :=
          ⟨_, [("0", ⟨"A", "x"⟩), ("1", ⟨"A", "y"⟩)], rfl,
            .cons ⟨rfl, Or.inl rfl⟩ (.cons ⟨rfl, Or.inr ⟨_, rfl, rfl, rfl⟩⟩ .nil), rfl⟩
        exact ⟨_, rfl, _, [("A", _)], rfl, .cons ⟨rfl, hrow⟩ .nil, rfl⟩
      initialState := ⟨_, rfl, rfl⟩
      initialOutput := Or.inr ⟨_, rfl, Or.inl ⟨rfl, rfl⟩⟩
      stateOutputs := Or.inl ⟨rfl, rfl⟩ }

theorem readDefinition_shuffled :
    readDefinition (Value.object shuffledMembers).compact = .ok (.moore shuffledMachine) ∧
      readDefinition (Value.object orderedMembers).compact = .ok (.moore shuffledMachine) ∧
      (∃ m, readDefinition (Value.object mixedMembers).compact = .ok m) ∧
      ∃ t, IsDocument (Value.object mixedMembers).compact t ∧ t.Paired ∧ t.InRange ∧
        t.Within 127 := by
  have houtputs : (Value.object [("A", .text "x"), ("A", .text "y")]).Fits 126 :=
    .object (by simpa using ⟨.text "x", .text "y"⟩)
  have hstates : (Value.list [.text "A"]).Fits 126 := .list (by simpa using .text "A")
  have hshuffled : (Value.object shuffledMembers).Fits 127 := by
    refine .object ?_
    simp only [shuffledMembers, List.forall_mem_cons]
    exact ⟨.bool _, houtputs, .text _, .text _, .null, .object (by simp), hstates,
      .list (by simp), by simp⟩
  have hordered : (Value.object orderedMembers).Fits 127 := by
    refine .object ?_
    simp only [orderedMembers, List.forall_mem_cons]
    exact ⟨.text _, hstates, .list (by simp), .object (by simp), houtputs, .text _, by simp⟩
  have hmixed : (Value.object mixedMembers).Fits 127 := by
    have hrow : (Value.object [("0", .list [.text "A", .text "x"]),
        ("1", .object [("output", .text "y"), ("next", .text "A")])]).Fits 125 :=
      .object (by simpa using ⟨.list (by simpa using ⟨.text "A", .text "x"⟩),
        .object (by simpa using ⟨.text "y", .text "A"⟩)⟩)
    refine .object ?_
    simp only [mixedMembers, List.forall_mem_cons]
    exact ⟨.null, .list (by simp), .list (by simp), .object (by simpa using hrow), .text _,
      .bool _, .text _, by simp⟩
  obtain ⟨t, hdoc, hwithin, hvalue⟩ := exists_isDocument_compact hshuffled
  obtain ⟨t', hdoc', hwithin', hvalue'⟩ := exists_isDocument_compact hordered
  obtain ⟨_, hdoc'', hwithin'', hvalue''⟩ := exists_isDocument_compact hmixed
  obtain ⟨members, rfl, hmembers⟩ := Tree.value?_eq_object_iff.mp hvalue''
  obtain ⟨hpaired, hrange⟩ := Tree.exists_object_value_iff.mp ⟨_, hvalue''⟩
  have hread := (readDefinition_object.2.1 _ _ _ _ hdoc hvalue).mpr ⟨hwithin, shuffled_saidBy⟩
  have hmachine := (readDefinition_object.1 _ _ hdoc'').mpr
    ⟨hpaired, hrange, hwithin'', (exists_saidBy_iff hmembers).mp ⟨_, mixed_saidBy⟩⟩
  refine ⟨hread, ?_, hmachine, ?_⟩
  · exact readDefinition_object.2.2.1 _ _ _ _ _ _ _ hdoc hvalue hdoc' hvalue' hwithin'
      sameFields_ordered hread
  · obtain ⟨m, hm⟩ := hmachine
    exact readDefinition_object.2.2.2 _ m hm

/-! ## Members that are passed over -/

/-- A machine without states, and one more member. -/
def emptyFields (x : Item) : List (String × Item) :=
  [("kind", plainText "moore"), ("states", plainList []), ("input_symbols", plainList []),
    ("transitions", plainObject []), ("outputs", plainObject []),
    ("initial_state", plainText ""), ("x", x)]

def emptySource (x : Item) : String := .ofList (plainObject (emptyFields x)).text

theorem isDocument_empty {x : Item} (h : x.Spelled) :
    IsDocument (emptySource x) (.object (plainMembers (emptyFields x))) := by
  have hlist : (plainList []).Spelled := spelled_plainList nofun
  have hobject : (plainObject []).Spelled := spelled_plainObject nofun nofun
  refine isDocument_ofList (spelled_plainObject ?_ ?_)
  · simp only [emptyFields, List.forall_mem_cons, List.not_mem_nil, false_implies, implies_true,
      and_true]
    decide
  · simp only [emptyFields, List.forall_mem_cons]
    exact ⟨spelled_plainText (by decide), hlist, hlist, hobject, hobject,
      spelled_plainText (by decide), h, nofun⟩

/-- The members are as they must be, whatever the other member is. -/
theorem accepted_empty (x : Item) : Accepted .moore (plainMembers (emptyFields x)) := by
  have hwritten : ∀ names, written names (plainMembers (emptyFields x)) =
      ((emptyFields x).filter (·.1 ∈ names)).map (·.2.tree) := by
    intro names
    simp [written, plainMembers, List.filter_map, List.map_map, Function.comp_def]
  refine ⟨⟨plain "moore", by rw [hwritten]; rfl, stringOf?_plain _⟩, ?_⟩
  simp only [MachineKind.fields, List.forall_mem_cons]
  exact ⟨.of_written (hwritten _) ⟨[], rfl, List.forall_mem_nil _⟩,
    .of_written (hwritten _) ⟨[], rfl, List.forall_mem_nil _⟩,
    .of_written (hwritten _) ⟨[], rfl, List.forall_mem_nil _⟩,
    .of_written (hwritten _) ⟨[], rfl, List.forall_mem_nil _⟩,
    .of_written (hwritten _) ⟨_, rfl⟩, List.forall_mem_nil _⟩

/-- A list around a list, and so on. -/
def nested : Nat → Item
  | 0 => ⟨.null, ['n', 'u', 'l', 'l']⟩
  | n + 1 => plainList [nested n]

theorem spelled_nested (n : Nat) : (nested n).Spelled := by
  induction n with
  | zero => exact .null
  | succ n ih => exact spelled_plainList (by simpa using ih)

theorem le_of_within_nested {n room : Nat} (h : (nested n).tree.Within room) : n ≤ room := by
  induction n generalizing room with
  | zero => exact Nat.zero_le room
  | succ n ih =>
    cases h with
    | list h => exact Nat.succ_le_succ (ih (h _ List.mem_cons_self))

/-- A number that is too great. -/
def greatNumber : Item :=
  ⟨.number ⟨false, ['1'], [], some (false, ['9', '9', '9'])⟩, ['1', 'e', '9', '9', '9']⟩

theorem spelled_greatNumber : greatNumber.Spelled :=
  .number (.intro (n := ⟨false, ['1'], [], some (false, ['9', '9', '9'])⟩)
    ⟨List.cons_ne_nil _ _, List.all_eq_true.mp rfl⟩ (by decide) nofun
    (@SpellsExponent.some 'e' false [] ['9', '9', '9'] (Or.inl rfl) (Or.inl rfl)
      ⟨List.cons_ne_nil _ _, List.all_eq_true.mp rfl⟩))

/-- A unit of a pair without the other. -/
def halfPair : Item := ⟨.text [.unit 0xd800], ['"', '\\', 'u', 'd', '8', '0', '0', '"']⟩

theorem spelled_halfPair : halfPair.Spelled :=
  .text (.cons (.hex (i := 13) (j := 8) (k := 0) (l := 0) (by decide) (by decide) (by decide)
    (by decide)) .nil)

/-- The last of the members. -/
theorem mem_emptyFields (x : Item) : (plain "x", x.tree) ∈ plainMembers (emptyFields x) := by
  simp [plainMembers, emptyFields]

/-- **A member that is passed over** can be nested too deep, be a number that is too great, or
miss a unit, and then the definition is refused, although its members are as they must be. -/
theorem readDefinition_passedOver :
    (IsDocument (emptySource (nested 127)) (.object (plainMembers (emptyFields (nested 127)))) ∧
      Accepted .moore (plainMembers (emptyFields (nested 127))) ∧
      ¬ ∃ m, readDefinition (emptySource (nested 127)) = .ok m) ∧
    (IsDocument (emptySource greatNumber) (.object (plainMembers (emptyFields greatNumber))) ∧
      Accepted .moore (plainMembers (emptyFields greatNumber)) ∧
      ¬ ∃ m, readDefinition (emptySource greatNumber) = .ok m) ∧
    IsDocument (emptySource halfPair) (.object (plainMembers (emptyFields halfPair))) ∧
      Accepted .moore (plainMembers (emptyFields halfPair)) ∧
      ¬ ∃ m, readDefinition (emptySource halfPair) = .ok m := by
  have hnested := isDocument_empty (spelled_nested 127)
  have hgreat := isDocument_empty spelled_greatNumber
  have hhalf := isDocument_empty spelled_halfPair
  refine ⟨⟨hnested, accepted_empty _, fun h => ?_⟩, ⟨hgreat, accepted_empty _, fun h => ?_⟩,
    hhalf, accepted_empty _, fun h => ?_⟩
  · obtain ⟨-, -, hwithin, -⟩ := (exists_readDefinition_iff hnested).mp h
    cases hwithin with
    | object hwithin =>
      have hle := le_of_within_nested (hwithin _ (mem_emptyFields (nested 127)))
      omega
  · obtain ⟨-, hrange, -⟩ := (exists_readDefinition_iff hgreat).mp h
    cases hrange with
    | object hrange =>
      cases hrange _ (mem_emptyFields greatNumber) with
      | number hvalue => exact hvalue (by decide)
  · obtain ⟨hpaired, -⟩ := (exists_readDefinition_iff hhalf).mp h
    cases hpaired with
    | object _ hpaired =>
      cases hpaired _ (mem_emptyFields halfPair) with
      | text hdecode => exact hdecode (by decide)

end Transducers
