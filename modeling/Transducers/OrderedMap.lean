/-!
# Finite maps in order of first insertion

A map is the list of its entries with pairwise different keys.  Writing a key
that is already there replaces the value and keeps the position; a new key goes
to the end.

* `get?_insert`: what a lookup finds after a write;
* `keys_insert`: a write leaves the keys alone or adds one at the end;
* `get?_ofList`: after many writes a lookup finds the last one for its key;
* `insert_insert`: a second write to a key is all that counts;
* `ofList_entries`: the entries of a map, written one after another, give the map;
* `get?_erase`: what a lookup finds after a key was forgotten;
* `mem_keys_iff`: the keys are exactly what a lookup finds;
* `ext_get?`: a map is fixed by its keys, in order, and its lookups.
-/

namespace Transducers

/-! ## Lists of entries -/

namespace Entries

variable {κ α : Type} [DecidableEq κ]

/-- The value of the first entry with this key. -/
def find? (k : κ) : List (κ × α) → Option α
  | [] => none
  | (l, v) :: es => if l = k then some v else find? k es

/-- Replace the value in the first entry with this key, or add an entry at the end. -/
def put (k : κ) (v : α) : List (κ × α) → List (κ × α)
  | [] => [(k, v)]
  | (l, w) :: es => if l = k then (k, v) :: es else (l, w) :: put k v es

theorem find?_put (k k' : κ) (v : α) (es : List (κ × α)) :
    find? k' (put k v es) = if k = k' then some v else find? k' es := by
  induction es with
  | nil => rfl
  | cons e es ih =>
    obtain ⟨l, w⟩ := e
    by_cases hl : l = k
    · subst hl; by_cases hk : l = k' <;> simp [put, find?, hk]
    · by_cases hk : k = k'
      · subst hk; simp [put, find?, hl, ih]
      · simp [put, find?, hl, ih, hk]

theorem keys_put (k : κ) (v : α) (es : List (κ × α)) :
    (put k v es).map Prod.fst =
      if k ∈ es.map Prod.fst then es.map Prod.fst else es.map Prod.fst ++ [k] := by
  induction es with
  | nil => simp [put]
  | cons e es ih =>
    obtain ⟨l, w⟩ := e
    by_cases hl : l = k
    · subst hl; simp [put]
    · have hk : k ≠ l := fun h => hl h.symm
      simp only [put, if_neg hl, List.map_cons, ih, List.mem_cons, hk, false_or]
      split <;> simp

theorem nodup_put {k : κ} {v : α} {es : List (κ × α)} (h : (es.map Prod.fst).Nodup) :
    ((put k v es).map Prod.fst).Nodup := by
  rw [keys_put]
  split
  · exact h
  · rename_i hk
    rw [List.nodup_append]
    refine ⟨h, by simp, ?_⟩
    intro a ha b hb
    rw [List.mem_singleton.mp hb]
    exact fun hab => hk (hab ▸ ha)

theorem mem_keys_iff {k : κ} {es : List (κ × α)} :
    k ∈ es.map Prod.fst ↔ (find? k es).isSome := by
  induction es with
  | nil => simp [find?]
  | cons e es ih =>
    obtain ⟨l, w⟩ := e
    by_cases hl : l = k
    · simp [find?, hl]
    · have hk : k ≠ l := fun h => hl h.symm
      simp only [List.map_cons, List.mem_cons, hk, false_or, ih, find?, if_neg hl]

theorem find?_of_mem {k : κ} {v : α} {es : List (κ × α)} (hn : (es.map Prod.fst).Nodup)
    (h : (k, v) ∈ es) : find? k es = some v := by
  induction es with
  | nil => simp at h
  | cons e es ih =>
    obtain ⟨l, w⟩ := e
    rw [List.map_cons, List.nodup_cons] at hn
    rcases List.mem_cons.mp h with h | h
    · cases h; simp [find?]
    · have hl : l ≠ k := by
        intro hlk; subst hlk
        exact hn.1 (List.mem_map.mpr ⟨_, h, rfl⟩)
      simp [find?, hl, ih hn.2 h]

theorem mem_of_find? {k : κ} {v : α} {es : List (κ × α)} (h : find? k es = some v) :
    (k, v) ∈ es := by
  induction es with
  | nil => simp [find?] at h
  | cons e es ih =>
    obtain ⟨l, w⟩ := e
    by_cases hl : l = k
    · simp only [find?, if_pos hl, Option.some.injEq] at h
      simp [hl, h]
    · simp only [find?, if_neg hl] at h
      exact List.mem_cons_of_mem _ (ih h)

theorem put_of_notMem {k : κ} (v : α) {es : List (κ × α)} (h : k ∉ es.map Prod.fst) :
    put k v es = es ++ [(k, v)] := by
  induction es with
  | nil => rfl
  | cons e es ih =>
    obtain ⟨l, w⟩ := e
    rw [List.map_cons, List.mem_cons, not_or] at h
    have hl : l ≠ k := fun hlk => h.1 hlk.symm
    simp only [put, if_neg hl, ih h.2, List.cons_append]

theorem find?_append (k : κ) (es fs : List (κ × α)) :
    find? k (es ++ fs) = (find? k es).or (find? k fs) := by
  induction es with
  | nil => rfl
  | cons e es ih =>
    obtain ⟨l, w⟩ := e
    by_cases hl : l = k
    · simp [find?, hl]
    · simp [find?, hl, ih]

/-- Where entries with one key have one value, a search finds every entry. -/
theorem find?_eq_some_iff {es : List (κ × α)}
    (h : ∀ k v w, (k, v) ∈ es → (k, w) ∈ es → v = w) {k : κ} {v : α} :
    find? k es = some v ↔ (k, v) ∈ es := by
  constructor
  · exact mem_of_find?
  · intro hv
    have hk : k ∈ es.map Prod.fst := List.mem_map.mpr ⟨_, hv, rfl⟩
    obtain ⟨w, hw⟩ := Option.isSome_iff_exists.mp (mem_keys_iff.mp hk)
    rw [hw, h k v w hv (mem_of_find? hw)]

/-- Entries with the same keys in the same order and the same lookups are the same. -/
theorem ext_find? {es fs : List (κ × α)} (hn : (es.map Prod.fst).Nodup)
    (hk : es.map Prod.fst = fs.map Prod.fst) (hf : ∀ k, find? k es = find? k fs) : es = fs := by
  induction es generalizing fs with
  | nil => cases fs with
    | nil => rfl
    | cons f fs => simp at hk
  | cons e es ih =>
    cases fs with
    | nil => simp at hk
    | cons f fs =>
      obtain ⟨l, v⟩ := e
      obtain ⟨m, w⟩ := f
      rw [List.map_cons, List.map_cons, List.cons.injEq] at hk
      obtain ⟨hlm, hk⟩ := hk
      simp only at hlm
      subst hlm
      have hv : v = w := by simpa [find?] using hf l
      subst hv
      rw [List.map_cons, List.nodup_cons] at hn
      refine congrArg _ (ih hn.2 hk fun k => ?_)
      by_cases hl : l = k
      · subst hl
        have h1 : find? l es = none := by
          simpa using mt mem_keys_iff.mpr hn.1
        have h2 : find? l fs = none := by
          have : l ∉ fs.map Prod.fst := hk ▸ hn.1
          simpa using mt mem_keys_iff.mpr this
        rw [h1, h2]
      · simpa [find?, hl] using hf k

end Entries

/-! ## Maps -/

/-- A finite map that remembers the order in which its keys were first written. -/
structure OrderedMap (κ α : Type) where
  entries : List (κ × α)
  nodup_keys : (entries.map Prod.fst).Nodup
  deriving Repr, DecidableEq

namespace OrderedMap

variable {κ α : Type}

def empty : OrderedMap κ α := ⟨[], List.nodup_nil⟩

instance : Inhabited (OrderedMap κ α) := ⟨empty⟩

def keys (m : OrderedMap κ α) : List κ := m.entries.map Prod.fst

def size (m : OrderedMap κ α) : Nat := m.entries.length

def isEmpty (m : OrderedMap κ α) : Bool := m.entries.isEmpty

theorem eq_empty_of_isEmpty {m : OrderedMap κ α} (h : m.isEmpty = true) : m = empty := by
  obtain ⟨es, hn⟩ := m
  have hes : es = [] := List.isEmpty_iff.mp h
  subst hes
  rfl

@[simp] theorem keys_empty : (empty : OrderedMap κ α).keys = [] := rfl

theorem keys_nodup (m : OrderedMap κ α) : m.keys.Nodup := m.nodup_keys

theorem length_keys (m : OrderedMap κ α) : m.keys.length = m.size := List.length_map ..

variable [DecidableEq κ]

def get? (m : OrderedMap κ α) (k : κ) : Option α := Entries.find? k m.entries

def contains (m : OrderedMap κ α) (k : κ) : Bool := (m.get? k).isSome

/-- Write a key: an old key keeps its position, a new one goes to the end. -/
def insert (m : OrderedMap κ α) (k : κ) (v : α) : OrderedMap κ α :=
  ⟨Entries.put k v m.entries, Entries.nodup_put m.nodup_keys⟩

/-- Forget a key; the others keep their order. -/
def erase (m : OrderedMap κ α) (k : κ) : OrderedMap κ α :=
  ⟨m.entries.filter (·.1 ≠ k), m.nodup_keys.sublist (List.filter_sublist.map _)⟩

/-- Write entries one after another: of equal keys the first gives the position
and the last the value. -/
def ofList (es : List (κ × α)) : OrderedMap κ α :=
  es.foldl (fun m e => m.insert e.1 e.2) empty

/-- Both maps have the same keys, in any order, and related values. -/
def agrees (related : α → α → Bool) (m n : OrderedMap κ α) : Bool :=
  m.size == n.size && m.entries.all fun e =>
    match n.get? e.1 with
    | some v => related e.2 v
    | none => false

/-! ## What a write changes -/

@[simp] theorem get?_empty (k : κ) : (empty : OrderedMap κ α).get? k = none := rfl

theorem get?_insert (m : OrderedMap κ α) (k k' : κ) (v : α) :
    (m.insert k v).get? k' = if k = k' then some v else m.get? k' :=
  Entries.find?_put k k' v m.entries

theorem keys_insert (m : OrderedMap κ α) (k : κ) (v : α) :
    (m.insert k v).keys = if k ∈ m.keys then m.keys else m.keys ++ [k] :=
  Entries.keys_put k v m.entries

theorem mem_keys_iff {m : OrderedMap κ α} {k : κ} : k ∈ m.keys ↔ (m.get? k).isSome :=
  Entries.mem_keys_iff

theorem mem_keys_iff_exists {m : OrderedMap κ α} {k : κ} : k ∈ m.keys ↔ ∃ v, m.get? k = some v := by
  rw [mem_keys_iff, Option.isSome_iff_exists]

theorem mem_entries_iff {m : OrderedMap κ α} {k : κ} {v : α} :
    (k, v) ∈ m.entries ↔ m.get? k = some v :=
  ⟨Entries.find?_of_mem m.nodup_keys, Entries.mem_of_find?⟩

theorem get?_eq_none_iff {m : OrderedMap κ α} {k : κ} : m.get? k = none ↔ k ∉ m.keys := by
  rw [mem_keys_iff, Option.not_isSome_iff_eq_none]

theorem contains_iff {m : OrderedMap κ α} {k : κ} : m.contains k = true ↔ k ∈ m.keys :=
  mem_keys_iff.symm

theorem entries_insert {m : OrderedMap κ α} {k : κ} (v : α) (h : k ∉ m.keys) :
    (m.insert k v).entries = m.entries ++ [(k, v)] :=
  Entries.put_of_notMem v h

theorem get?_foldl_insert (m : OrderedMap κ α) (es : List (κ × α)) (k : κ) :
    (es.foldl (fun m e => m.insert e.1 e.2) m).get? k =
      (Entries.find? k es.reverse).or (m.get? k) := by
  induction es generalizing m with
  | nil => rfl
  | cons e es ih =>
    obtain ⟨l, v⟩ := e
    rw [List.foldl_cons, ih, List.reverse_cons, Entries.find?_append, get?_insert]
    cases Entries.find? k es.reverse with
    | some w => rfl
    | none => by_cases hl : l = k <;> simp [Entries.find?, hl]

/-- Of writes to one key, a lookup finds the last. -/
theorem get?_ofList (es : List (κ × α)) (k : κ) :
    (ofList es).get? k = Entries.find? k es.reverse := by
  rw [ofList, get?_foldl_insert, get?_empty, Option.or_none]

/-- New entries go to the end, one after another. -/
theorem entries_foldl_insert (m : OrderedMap κ α) {es : List (κ × α)}
    (h : (m.keys ++ es.map Prod.fst).Nodup) :
    (es.foldl (fun m e => m.insert e.1 e.2) m).entries = m.entries ++ es := by
  induction es generalizing m with
  | nil => simp
  | cons e es ih =>
    rw [List.map_cons] at h
    have hk : e.1 ∉ m.keys := by
      intro hk
      exact (List.nodup_append.mp h).2.2 _ hk _ List.mem_cons_self rfl
    have hkeys : (m.insert e.1 e.2).keys = m.keys ++ [e.1] := by rw [keys_insert, if_neg hk]
    rw [List.foldl_cons, ih, entries_insert e.2 hk, List.append_assoc]
    · rfl
    · rw [hkeys, List.append_assoc]
      exact h

theorem get?_erase (m : OrderedMap κ α) (k k' : κ) :
    (m.erase k).get? k' = if k = k' then none else m.get? k' := by
  obtain ⟨es, hn⟩ := m
  simp only [erase, get?]
  clear hn
  induction es with
  | nil => simp [Entries.find?]
  | cons e es ih =>
    obtain ⟨l, v⟩ := e
    by_cases hl : l = k
    · subst hl
      by_cases hk : l = k'
      · simpa [Entries.find?, hk] using ih
      · simpa [Entries.find?, hk] using ih
    · rw [List.filter_cons_of_pos (by simpa using hl), Entries.find?, Entries.find?]
      by_cases hk : l = k'
      · have hne : k ≠ k' := fun h => hl (hk.trans h.symm)
        rw [if_pos hk, if_pos hk, if_neg hne]
      · rw [if_neg hk, if_neg hk, ih]

/-- A map is fixed by its keys, in order, and its lookups. -/
theorem ext_get? {m n : OrderedMap κ α} (hk : m.keys = n.keys) (hg : ∀ k, m.get? k = n.get? k) :
    m = n := by
  obtain ⟨es, hes⟩ := m
  obtain ⟨fs, hfs⟩ := n
  have : es = fs := Entries.ext_find? hes hk hg
  subst this
  rfl

/-- Of two writes to one key, the first only gives the position. -/
theorem insert_insert (m : OrderedMap κ α) (k : κ) (v w : α) :
    (m.insert k v).insert k w = m.insert k w := by
  have hk : k ∈ (m.insert k v).keys := by simp [mem_keys_iff, get?_insert]
  apply ext_get?
  · rw [keys_insert, if_pos hk, keys_insert, keys_insert]
  · intro l
    simp only [get?_insert]
    split <;> rfl

/-- The entries of a map, written one after another, give the map. -/
theorem ofList_entries (m : OrderedMap κ α) : ofList m.entries = m := by
  have h : (ofList m.entries).entries = m.entries :=
    entries_foldl_insert empty m.nodup_keys
  exact ext_get? (congrArg (List.map Prod.fst) h) fun k => congrArg (Entries.find? k) h

end OrderedMap

end Transducers
