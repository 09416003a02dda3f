import Transducers.Proofs.JsonText

/-!
# What readers take off a text

A reader of lists or of objects walks over the text, and what it meets does not depend on
what is made of it.  So two readers can be compared along one walk.

* `Items`, `takes_elements_iff`: the walk over a list;
* `Folds`, `takes_foldMembers_iff`: the walk over an object, whatever is made of its members;
* `Lists`, `folds_keep_iff`: the same walk, with all members kept;
* `takes_readValue_cases`: a value is its head, or a list or an object that is walked over.
-/

namespace Transducers.Json

section Except

variable {ε ε' α β : Type}

theorem bind_eq_ok_iff {x : Except ε α} {f : α → Except ε β} {b : β} :
    x >>= f = .ok b ↔ ∃ a, x = .ok a ∧ f a = .ok b := by
  cases x <;> simp [bind, Except.bind]

theorem mapError_eq_ok_iff {x : Except ε α} {f : ε → ε'} {a : α} :
    x.mapError f = .ok a ↔ x = .ok a := by
  cases x with
  | error e => exact ⟨nofun, nofun⟩
  | ok y =>
    constructor
    · rintro ⟨⟩
      rfl
    · rintro ⟨⟩
      rfl

end Except

section Takes

variable {α : Type} {read : Reader α}

/-- A reader takes one thing off a text, and leaves one rest. -/
theorem Takes.unique {s r t : List Char} {x y : α} (h : Takes read s x r)
    (h' : Takes read s y t) : x = y ∧ r = t := by
  obtain ⟨hr, h⟩ := h
  obtain ⟨ht, h'⟩ := h'
  rw [h] at h'
  cases h'
  exact ⟨rfl, rfl⟩

/-- Only blanks may follow the value of a whole text. -/
theorem readAll_eq_ok_iff {s : String} {x : α} :
    readAll read s = .ok x ↔ ∃ rest, Takes read s.toList x rest ∧ (skipBlanks rest).1 = [] := by
  constructor
  · intro h
    obtain ⟨⟨y, rest, hrest⟩, hread, h⟩ := bind_eq_ok_iff.mp h
    simp only at h
    split at h
    · rename_i hempty
      cases h
      exact ⟨rest, ⟨hrest, hread⟩, List.isEmpty_iff.mp hempty⟩
    · cases h
  · rintro ⟨rest, ⟨hrest, hread⟩, hempty⟩
    refine bind_eq_ok_iff.mpr ⟨_, hread, ?_⟩
    simp only [hempty]
    rfl

end Takes

/-! ## Lists -/

/-- The text goes on with these items, up to the closing bracket. -/
inductive Items {α : Type} (closing : Char) (taken : List Char → α → List Char → Prop) :
    Bool → List Char → List α → List Char → Prop
  | close {first : Bool} {s rest : List Char}
      (closed : ∃ h, next closing first s = .ok (.close ⟨rest, h⟩)) :
      Items closing taken first s [] rest
  | item {first : Bool} {s t u rest : List Char} {x : α} {xs : List α}
      (begun : ∃ h, next closing first s = .ok (.item ⟨t, h⟩)) (here : taken t x u)
      (others : Items closing taken false u xs rest) :
      Items closing taken first s (x :: xs) rest

section Items

variable {α : Type} {item : Reader α}

theorem items_of_takes {first : Bool} {s rest : List Char} {xs : List α}
    (h : Takes (elements item first) s xs rest) : Items ']' (Takes item) first s xs rest := by
  -- the text gets shorter with each item
  induction hlength : s.length using Nat.strongRecOn generalizing first s xs with
  | _ n ih =>
    obtain ⟨hrest, h⟩ := h
    rw [elements] at h
    obtain ⟨there, hnext, h⟩ := bind_eq_ok_iff.mp h
    cases there with
    | close r =>
      cases h
      exact .close ⟨hrest, hnext⟩
    | item r =>
      obtain ⟨t, ht⟩ := r
      obtain ⟨⟨x, u, hu⟩, hitem, h⟩ := bind_eq_ok_iff.mp h
      obtain ⟨⟨ys, v, hv⟩, hothers, h⟩ := bind_eq_ok_iff.mp h
      cases h
      exact .item ⟨ht, hnext⟩ ⟨hu, hitem⟩ (ih u.length (by omega) ⟨hv, hothers⟩ rfl)

theorem takes_elements_iff {first : Bool} {s rest : List Char} {xs : List α} :
    Takes (elements item first) s xs rest ↔ Items ']' (Takes item) first s xs rest := by
  refine ⟨items_of_takes, fun h => ?_⟩
  induction h with
  | close closed =>
    obtain ⟨hlt, closed⟩ := closed
    refine ⟨hlt, ?_⟩
    rw [elements, closed]
    rfl
  | item begun taken _ ih => exact elements_item begun taken ih

end Items

/-! ## Objects -/

/-- The text goes on with members, up to the end of the object, which lead from what is
known to what is known in the end. -/
inductive Folds {σ : Type} (member : σ → String → Except Mismatch (Reader σ)) :
    Bool → σ → List Char → σ → List Char → Prop
  | close {first : Bool} {known : σ} {s rest : List Char}
      (closed : ∃ h, next '\x7d' first s = .ok (.close ⟨rest, h⟩)) :
      Folds member first known s known rest
  | member {first : Bool} {known known' last : σ} {name : String} {value : Reader σ}
      {s t u v w rest : List Char} (begun : ∃ h, next '\x7d' first s = .ok (.item ⟨t, h⟩))
      (named : Takes readString t name u) (accepted : member known name = .ok value)
      (parted : Takes readColon u () v) (taken : Takes value v known' w)
      (others : Folds member false known' w last rest) : Folds member first known s last rest

section Folds

variable {σ : Type} {member : σ → String → Except Mismatch (Reader σ)}

theorem folds_of_takes {first : Bool} {known last : σ} {s rest : List Char}
    (h : Takes (foldMembers readString member first known) s last rest) :
    Folds member first known s last rest := by
  -- the text gets shorter with each member
  induction hlength : s.length using Nat.strongRecOn generalizing first known s with
  | _ n ih =>
    obtain ⟨hrest, h⟩ := h
    rw [foldMembers] at h
    obtain ⟨there, hnext, h⟩ := bind_eq_ok_iff.mp h
    cases there with
    | close r =>
      cases h
      exact .close ⟨hrest, hnext⟩
    | item r =>
      obtain ⟨t, ht⟩ := r
      obtain ⟨⟨name, u, hu⟩, hname, h⟩ := bind_eq_ok_iff.mp h
      obtain ⟨value, haccepted, h⟩ := bind_eq_ok_iff.mp h
      obtain ⟨⟨_, v, hv⟩, hcolon, h⟩ := bind_eq_ok_iff.mp h
      obtain ⟨⟨known', w, hw⟩, hvalue, h⟩ := bind_eq_ok_iff.mp h
      obtain ⟨⟨last', x, hx⟩, hothers, h⟩ := bind_eq_ok_iff.mp h
      cases h
      exact .member ⟨ht, hnext⟩ ⟨hu, hname⟩ (mapError_eq_ok_iff.mp haccepted) ⟨hv, hcolon⟩
        ⟨hw, hvalue⟩ (ih w.length (by omega) ⟨hx, hothers⟩ rfl)

theorem takes_foldMembers_iff {first : Bool} {known last : σ} {s rest : List Char} :
    Takes (foldMembers readString member first known) s last rest ↔
      Folds member first known s last rest := by
  refine ⟨folds_of_takes, fun h => ?_⟩
  induction h with
  | close closed =>
    obtain ⟨hlt, closed⟩ := closed
    refine ⟨hlt, ?_⟩
    rw [foldMembers, closed]
    rfl
  | member begun named accepted parted taken _ ih =>
    exact foldMembers_item begun named accepted parted taken ih

end Folds

/-- The text goes on with a name, a colon and a value. -/
def TakesMember (value : Reader Value) (s : List Char) (e : String × Value) (rest : List Char) :
    Prop :=
  ∃ t u, Takes readString s e.1 t ∧ Takes readColon t () u ∧ Takes value u e.2 rest

/-- The text goes on with these members, up to the end of the object. -/
abbrev Lists (value : Reader Value) :
    Bool → List Char → List (String × Value) → List Char → Prop :=
  Items '\x7d' (TakesMember value)

section Lists

variable {value : Reader Value}

/-- A member is kept with the value that is taken. -/
theorem takes_keep_iff {known known' : List (String × Value)} {name : String}
    {read : Reader (List (String × Value))} (h : keep value known name = .ok read)
    {s rest : List Char} :
    Takes read s known' rest ↔ ∃ x, Takes value s x rest ∧ known' = (name, x) :: known := by
  cases h
  constructor
  · rintro ⟨hlt, hread⟩
    obtain ⟨⟨x, r⟩, hvalue, hread⟩ := bind_eq_ok_iff.mp hread
    cases hread
    exact ⟨x, ⟨hlt, hvalue⟩, rfl⟩
  · rintro ⟨x, ⟨hlt, hvalue⟩, rfl⟩
    exact ⟨hlt, bind_eq_ok_iff.mpr ⟨_, hvalue, rfl⟩⟩

theorem folds_keep_iff {first : Bool} {known last : List (String × Value)} {s rest : List Char} :
    Folds (keep value) first known s last rest ↔
      ∃ es, last = es.reverse ++ known ∧ Lists value first s es rest := by
  constructor
  · intro h
    induction h with
    | close closed => exact ⟨[], rfl, .close closed⟩
    | @member _ _ _ _ name _ _ _ _ _ _ _ begun named accepted parted taken _ ih =>
      obtain ⟨x, hx, rfl⟩ := (takes_keep_iff accepted).mp taken
      obtain ⟨es, rfl, hes⟩ := ih
      exact ⟨(name, x) :: es, by simp, .item begun ⟨_, _, named, parted, hx⟩ hes⟩
  · rintro ⟨es, rfl, hes⟩
    induction hes generalizing known with
    | close closed => exact .close closed
    | @item _ _ _ w rest e es begun here _ ih =>
      obtain ⟨_, _, named, parted, taken⟩ := here
      have hothers : Folds (keep value) false (e :: known) w (es.reverse ++ e :: known) rest := ih
      rw [List.reverse_cons, List.append_assoc]
      exact .member begun named rfl parted ((takes_keep_iff rfl).mpr ⟨e.2, taken, rfl⟩) hothers

theorem takes_members_iff {s rest : List Char} {es : List (String × Value)} :
    Takes (members value) s es rest ↔ Lists value true s es rest := by
  have hfold (reversed : List (String × Value)) :
      Takes (foldMembers readString (keep value) true []) s reversed rest ↔
        Lists value true s reversed.reverse rest := by
    rw [takes_foldMembers_iff, folds_keep_iff]
    constructor
    · rintro ⟨es, rfl, hes⟩
      simpa using hes
    · intro hes
      exact ⟨reversed.reverse, by simp, hes⟩
  constructor
  · rintro ⟨hlt, h⟩
    obtain ⟨⟨reversed, r⟩, hread, h⟩ := bind_eq_ok_iff.mp h
    cases h
    exact (hfold reversed).mp ⟨hlt, hread⟩
  · intro h
    obtain ⟨hlt, hread⟩ := (hfold es.reverse).mpr (by rwa [List.reverse_reverse])
    refine ⟨hlt, bind_eq_ok_iff.mpr ⟨_, hread, ?_⟩⟩
    simp only [List.reverse_reverse]
    rfl

end Lists

/-! ## Values -/

section Values

variable {room : Nat} {s rest : List Char}

/-- What is taken after the front of a value decides which value it is. -/
theorem takes_readValue_cases {v : Value} (h : Takes (readValue room) s v rest) :
    (Takes readHead s v.head rest ∧ (∀ items, v ≠ .list items) ∧ ∀ es, v ≠ .object es) ∨
      (∃ n items r, v = .list items ∧ room = n + 1 ∧ Takes readHead s .list r ∧
        Items ']' (Takes (readValue n)) true r items rest) ∨
      ∃ n es r, v = .object es ∧ room = n + 1 ∧ Takes readHead s .object r ∧
        Lists (readValue n) true r es rest := by
  obtain ⟨hlt, h⟩ := h
  rw [readValue] at h
  obtain ⟨⟨head, r, hr⟩, hhead, h⟩ := bind_eq_ok_iff.mp h
  cases head with
  | null =>
    cases h
    exact Or.inl ⟨⟨hr, hhead⟩, by simp, by simp⟩
  | bool b =>
    cases h
    exact Or.inl ⟨⟨hr, hhead⟩, by simp, by simp⟩
  | number n =>
    cases h
    exact Or.inl ⟨⟨hr, hhead⟩, by simp, by simp⟩
  | text t =>
    cases h
    exact Or.inl ⟨⟨hr, hhead⟩, by simp, by simp⟩
  | list =>
    cases room with
    | zero => cases h
    | succ n =>
      obtain ⟨⟨items, t, ht⟩, hitems, h⟩ := bind_eq_ok_iff.mp h
      cases h
      exact Or.inr (Or.inl ⟨n, items, r, rfl, rfl, ⟨hr, hhead⟩, items_of_takes ⟨ht, hitems⟩⟩)
  | object =>
    cases room with
    | zero => cases h
    | succ n =>
      obtain ⟨⟨es, t, ht⟩, hes, h⟩ := bind_eq_ok_iff.mp h
      cases h
      exact Or.inr (Or.inr ⟨n, es, r, rfl, rfl, ⟨hr, hhead⟩, takes_members_iff.mp ⟨ht, hes⟩⟩)

theorem takes_readValue_list {items : List Value} {r : List Char} (h : Takes readHead s .list r)
    (hitems : Items ']' (Takes (readValue room)) true r items rest) :
    Takes (readValue (room + 1)) s (.list items) rest := by
  obtain ⟨hr, hhead⟩ := h
  obtain ⟨ht, hitems⟩ := takes_elements_iff.mpr hitems
  refine ⟨length_lt_trans hr ht, ?_⟩
  rw [readValue]
  exact bind_eq_ok_iff.mpr ⟨_, hhead, bind_eq_ok_iff.mpr ⟨_, hitems, rfl⟩⟩

theorem takes_readValue_object {es : List (String × Value)} {r : List Char}
    (h : Takes readHead s .object r) (hes : Lists (readValue room) true r es rest) :
    Takes (readValue (room + 1)) s (.object es) rest := by
  obtain ⟨hr, hhead⟩ := h
  obtain ⟨ht, hes⟩ := takes_members_iff.mpr hes
  refine ⟨length_lt_trans hr ht, ?_⟩
  rw [readValue]
  exact bind_eq_ok_iff.mpr ⟨_, hhead, bind_eq_ok_iff.mpr ⟨_, hes, rfl⟩⟩

/-- A text is a value of its own. -/
theorem takes_readValue_text_iff {text : String} :
    Takes (readValue room) s (.text text) rest ↔ Takes readHead s (.text text) rest := by
  constructor
  · intro h
    rcases takes_readValue_cases h with ⟨hhead, -⟩ | ⟨_, _, _, hv, -⟩ | ⟨_, _, _, hv, -⟩
    · exact hhead
    · cases hv
    · cases hv
  · intro h
    exact readValue_of_readHead (v := .text text) (by simp) (by simp) h

theorem takes_readValue_object_iff {es : List (String × Value)} :
    Takes (readValue (room + 1)) s (.object es) rest ↔
      ∃ r, Takes readHead s .object r ∧ Lists (readValue room) true r es rest := by
  constructor
  · intro h
    rcases takes_readValue_cases h with ⟨-, -, hv⟩ | ⟨_, _, _, hv, -⟩ |
      ⟨n, _, r, hv, hn, hhead, hes⟩
    · exact absurd rfl (hv es)
    · cases hv
    · cases hv
      cases hn
      exact ⟨r, hhead, hes⟩
  · rintro ⟨r, hhead, hes⟩
    exact takes_readValue_object hhead hes

end Values

end Transducers.Json
