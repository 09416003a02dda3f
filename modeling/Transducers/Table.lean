import Transducers.OrderedMap

/-!
# Transition tables

A table is a map from states to rows, and a row a map from input symbols to
what the machine does there.  Both keep the order in which their keys were first
written.

* `cell?_write`, `mem_keys_write`: what a lookup finds after a write, and in which rows;
* `cell?_writeAll`: after many writes a lookup finds the last one for its cell;
* `mem_cells_iff`: the cells are what a lookup finds;
* `length_cells`: the number of cells is the sum of the sizes of the rows;
* `writeAll_cells`: the cells of a table without empty rows, written one after another,
  give the table.
-/

namespace Transducers

abbrev Row (α : Type) := OrderedMap String α

abbrev Table (α : Type) := OrderedMap String (Row α)

namespace Table

variable {α : Type}

/-- The cell of a state and a symbol. -/
def cell? (t : Table α) (state symbol : String) : Option α :=
  (t.get? state).bind fun row => row.get? symbol

/-- Write a cell; its row is begun if the state has none. -/
def write (t : Table α) (state symbol : String) (value : α) : Table α :=
  t.insert state (((t.get? state).getD .empty).insert symbol value)

/-- Write cells one after another. -/
def writeAll (t : Table α) (cells : List ((String × String) × α)) : Table α :=
  cells.foldl (fun t c => t.write c.1.1 c.1.2 c.2) t

/-- All cells, row after row. -/
def cells (t : Table α) : List (String × String × α) :=
  t.entries.flatMap fun row => row.2.entries.map fun e => (row.1, e.1, e.2)

/-- The number of cells. -/
def count (t : Table α) : Nat := t.entries.foldr (fun row n => row.2.size + n) 0

theorem cell?_write (t : Table α) (s x s' x' : String) (v : α) :
    (t.write s x v).cell? s' x' = if s = s' ∧ x = x' then some v else t.cell? s' x' := by
  unfold cell? write
  rw [OrderedMap.get?_insert]
  by_cases hs : s = s'
  · subst hs
    simp only [↓reduceIte, Option.bind_some, true_and, OrderedMap.get?_insert]
    split
    · rfl
    · cases t.get? s <;> rfl
  · simp [hs]

/-- A write begins the row of its state, if there is none. -/
theorem mem_keys_write {t : Table α} {s x s' : String} {v : α} :
    s' ∈ (t.write s x v).keys ↔ s' ∈ t.keys ∨ s' = s := by
  unfold write
  rw [OrderedMap.keys_insert]
  split
  · rename_i h
    constructor
    · exact Or.inl
    · rintro (hs | rfl)
      · exact hs
      · exact h
  · simp

@[simp] theorem cell?_empty (s x : String) : cell? (.empty : Table α) s x = none := rfl

theorem cell?_writeAll (t : Table α) (cells : List ((String × String) × α)) (s x : String) :
    (t.writeAll cells).cell? s x = (Entries.find? (s, x) cells.reverse).or (t.cell? s x) := by
  induction cells generalizing t with
  | nil => rfl
  | cons c cells ih =>
    obtain ⟨⟨s', x'⟩, v⟩ := c
    rw [writeAll, List.foldl_cons, ← writeAll, ih, List.reverse_cons, Entries.find?_append,
      cell?_write]
    cases Entries.find? (s, x) cells.reverse with
    | some w => rfl
    | none => by_cases h : s' = s ∧ x' = x <;> simp [Entries.find?, h]

/-- Rows are begun only for cells. -/
theorem exists_cell?_of_mem_keys {cells : List ((String × String) × α)} {s : String}
    (h : s ∈ (writeAll .empty cells).keys) : ∃ x v, (writeAll .empty cells).cell? s x = some v := by
  suffices hgen : ∀ t : Table α, (∀ s ∈ t.keys, ∃ x v, t.cell? s x = some v) →
      ∀ s ∈ (t.writeAll cells).keys, ∃ x v, (t.writeAll cells).cell? s x = some v from
    hgen .empty (by simp) s h
  clear h s
  induction cells with
  | nil => exact fun _ ht => ht
  | cons c cells ih =>
    obtain ⟨⟨s₀, x₀⟩, v₀⟩ := c
    intro t ht
    refine ih (t.write s₀ x₀ v₀) fun s hs => ?_
    rcases mem_keys_write.mp hs with hs | rfl
    · obtain ⟨x, v, hv⟩ := ht s hs
      by_cases hw : s₀ = s ∧ x₀ = x
      · exact ⟨x, v₀, by rw [cell?_write, if_pos hw]⟩
      · exact ⟨x, v, by rw [cell?_write, if_neg hw, hv]⟩
    · exact ⟨x₀, v₀, by simp [cell?_write]⟩

theorem entries_ne_nil_of_cell? {t : Table α} {row : String × Row α} (h : row ∈ t.entries)
    {x : String} {v : α} (hv : t.cell? row.1 x = some v) : row.2.entries ≠ [] := by
  intro hnil
  have hrow : t.get? row.1 = some row.2 := OrderedMap.mem_entries_iff.mp h
  rw [cell?, hrow, Option.bind_some] at hv
  have hmem := OrderedMap.mem_entries_iff.mpr hv
  rw [hnil] at hmem
  exact List.not_mem_nil hmem

theorem mem_cells_iff {t : Table α} {s x : String} {v : α} :
    (s, x, v) ∈ t.cells ↔ t.cell? s x = some v := by
  simp only [cells, cell?, List.mem_flatMap, List.mem_map, Option.bind_eq_some_iff]
  constructor
  · rintro ⟨row, hrow, e, he, heq⟩
    cases heq
    exact ⟨row.2, OrderedMap.mem_entries_iff.mp hrow, OrderedMap.mem_entries_iff.mp he⟩
  · rintro ⟨row, hrow, he⟩
    exact ⟨(s, row), OrderedMap.mem_entries_iff.mpr hrow, (x, v),
      OrderedMap.mem_entries_iff.mpr he, rfl⟩

theorem length_cells (t : Table α) : t.cells.length = t.count := by
  unfold cells count
  induction t.entries with
  | nil => rfl
  | cons row rows ih =>
    rw [List.flatMap_cons, List.length_append, List.length_map, ih]
    rfl

/-! Writing the cells of a table. -/

/-- Cells of a row that was begun go into that row. -/
theorem writeAll_row (t : Table α) (s : String) (row : Row α) (es : List (String × α)) :
    writeAll (t.insert s row) (es.map fun e => ((s, e.1), e.2)) =
      t.insert s (es.foldl (fun m e => m.insert e.1 e.2) row) := by
  induction es generalizing row with
  | nil => rfl
  | cons e es ih =>
    have hwrite : write (t.insert s row) s e.1 e.2 = t.insert s (row.insert e.1 e.2) := by
      rw [write, OrderedMap.get?_insert, if_pos rfl, OrderedMap.insert_insert]
      rfl
    rw [List.map_cons, writeAll, List.foldl_cons, ← writeAll, hwrite, ih]
    rfl

/-- The cells of a row that is not empty begin it. -/
theorem writeAll_new_row {t : Table α} {s : String} (hs : s ∉ t.keys) {row : Row α}
    (hrow : row.entries ≠ []) :
    t.writeAll (row.entries.map fun e => ((s, e.1), e.2)) = t.insert s row := by
  have hwhole : row.entries.foldl (fun m e => m.insert e.1 e.2) .empty = row := row.ofList_entries
  cases hes : row.entries with
  | nil => exact absurd hes hrow
  | cons e es =>
    have hwrite : t.write s e.1 e.2 = t.insert s (OrderedMap.empty.insert e.1 e.2) := by
      rw [write, OrderedMap.get?_eq_none_iff.mpr hs]
      rfl
    rw [hes, List.foldl_cons] at hwhole
    rw [List.map_cons, writeAll, List.foldl_cons, ← writeAll, hwrite, writeAll_row, hwhole]

/-- **The cells of a table give the table**, if every row has one. -/
theorem writeAll_cells {t : Table α} (h : ∀ row ∈ t.entries, row.2.entries ≠ []) :
    writeAll .empty (t.cells.map fun c => ((c.1, c.2.1), c.2.2)) = t := by
  suffices hrows : ∀ (rows : List (String × Row α)) (u : Table α),
      (u.keys ++ rows.map Prod.fst).Nodup → (∀ row ∈ rows, row.2.entries ≠ []) →
      u.writeAll (rows.flatMap fun row => row.2.entries.map fun e => ((row.1, e.1), e.2)) =
        rows.foldl (fun m e => m.insert e.1 e.2) u by
    have hcells : (t.cells.map fun c => ((c.1, c.2.1), c.2.2)) =
        t.entries.flatMap fun row => row.2.entries.map fun e => ((row.1, e.1), e.2) := by
      simp only [cells, List.map_flatMap, List.map_map, Function.comp_def]
    rw [hcells, hrows t.entries .empty t.keys_nodup h]
    exact t.ofList_entries
  intro rows
  induction rows with
  | nil => exact fun _ _ _ => rfl
  | cons row rows ih =>
    intro u hn hne
    have hnew : row.1 ∉ u.keys := by
      intro hmem
      rw [List.map_cons, List.nodup_append] at hn
      exact hn.2.2 _ hmem _ List.mem_cons_self rfl
    have hrest : ((u.insert row.1 row.2).keys ++ rows.map Prod.fst).Nodup := by
      rw [OrderedMap.keys_insert, if_neg hnew, List.append_assoc]
      exact hn
    rw [List.flatMap_cons, writeAll, List.foldl_append, ← writeAll, ← writeAll,
      writeAll_new_row hnew (hne row List.mem_cons_self), List.foldl_cons]
    exact ih _ hrest fun r hr => hne r (List.mem_cons_of_mem _ hr)

end Table

end Transducers
