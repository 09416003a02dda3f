import Mathlib.Tactic.SplitIfs
import Transducers.Files.Store
import Transducers.Proofs.FileLaws

/-!
# A directory tree keeps the laws

No action on a store makes a directory or takes one away, so every text leads where it led
before, and what an action does is told by the one path it changes.

* `toOption_locate_congr`: where a text leads depends on the directories alone;
* `Store.view`: the files of a store, each told by its path;
* `sets_put`, `sets_erase`: one file is put or taken away;
* `create_eq_ok`: a file that is made was not there;
* `Store.lawful_disk`: the laws of a disk, for all programs and all words for new files.
-/

namespace Transducers

namespace Store

variable {s t : Store} {path : Path}

/-! ## Directories -/

/-- The directories are the same, and so is the working directory. -/
structure SameDirectories (s t : Store) : Prop where
  isDirectory : ∀ path, t.isDirectory path = s.isDirectory path
  here : t.here = s.here

/-- A way depends on directories alone, as far as it can be gone. -/
theorem toOption_walk_congr (h : s.SameDirectories t) (place : Path) (names : List String) :
    (t.walk place names).toOption = (s.walk place names).toOption := by
  induction names generalizing place with
  | nil => rfl
  | cons name rest ih =>
    rw [walk, walk, h.isDirectory place]
    split
    · rfl
    · split_ifs
      · exact ih place
      · exact ih place.dropLast
      · rfl
      · exact ih (place ++ [name])

/-- Where a text leads depends on directories alone. -/
theorem toOption_locate_congr (h : s.SameDirectories t) (text : String) :
    (t.locate text).toOption = (s.locate text).toOption := by
  unfold locate
  split_ifs
  · rfl
  · rfl
  · rfl
  · exact toOption_walk_congr h [] (pieces text)
  · rw [h.here]
    exact toOption_walk_congr h s.here (pieces text)

/-! ## Files by their paths -/

/-- A file is told by its path. -/
def view : FileView Store where
  File := Path
  file s text := (s.locate text).toOption
  content s path := s.content? path

theorem file_view_eq_some {text : String} :
    view.file s text = some path ↔ s.locate text = .ok path := by
  change (s.locate text).toOption = some path ↔ _
  cases s.locate text <;> simp [Except.toOption]

theorem content?_eq_some {content : ByteArray} :
    s.content? path = some content ↔ s.nodes.get? path = some (.file content) := by
  unfold content?
  split <;> simp_all

/-- Where a file is, or nothing, there is no directory but perhaps the root. -/
def HasRoom (s : Store) (path : Path) : Prop :=
  (s.nodes.get? path).any FileNode.isDirectory = false

theorem hasRoom_of_content? {content : ByteArray} (h : s.content? path = some content) :
    s.HasRoom path := by
  rw [HasRoom, content?_eq_some.mp h]
  rfl

theorem hasRoom_of_isDirectory (h : s.isDirectory path = false) : s.HasRoom path := by
  rw [isDirectory, Bool.or_eq_false_iff] at h
  exact h.2

theorem hasRoom_of_isThere (h : s.isThere path = false) : s.HasRoom path := by
  rw [isThere, Bool.or_eq_false_iff, OrderedMap.contains, Option.isSome_eq_false_iff,
    Option.isNone_iff_eq_none] at h
  rw [HasRoom, h.2]
  rfl

theorem content?_of_isThere (h : s.isThere path = false) : s.content? path = none := by
  rw [isThere, Bool.or_eq_false_iff, OrderedMap.contains, Option.isSome_eq_false_iff,
    Option.isNone_iff_eq_none] at h
  rw [content?, h.2]

/-- A change at a path with room, to something else than a directory, is a change of one
file. -/
theorem sets_of_get? {content : Option ByteArray} (hroom : s.HasRoom path)
    (hhere : t.here = s.here)
    (hget : ∀ q, t.nodes.get? q = if path = q then content.map .file else s.nodes.get? q) :
    view.Sets s t path content := by
  have hdirectories : s.SameDirectories t := by
    refine ⟨fun q => ?_, hhere⟩
    rw [isDirectory, isDirectory, hget q]
    split
    · next hq =>
      subst hq
      rw [show (s.nodes.get? path).any FileNode.isDirectory = false from hroom]
      cases content <;> rfl
    · rfl
  have hpath : t.content? path = content := by
    unfold content?
    rw [hget path, if_pos rfl]
    cases content <;> rfl
  have hothers (q : Path) (hq : q ≠ path) : t.content? q = s.content? q := by
    unfold content?
    rw [hget q, if_neg (Ne.symm hq)]
  exact ⟨toOption_locate_congr hdirectories, hpath, hothers⟩

theorem sets_put (hroom : s.HasRoom path) (content : ByteArray) :
    view.Sets s (s.put path content) path (some content) :=
  sets_of_get? hroom rfl fun q => OrderedMap.get?_insert s.nodes path q _

theorem sets_erase (hroom : s.HasRoom path) :
    view.Sets s { s with nodes := s.nodes.erase path } path none :=
  sets_of_get? hroom rfl fun q => OrderedMap.get?_erase s.nodes path q

/-! ## One action -/

section Actions

variable {text : String} {content : ByteArray}

theorem read_eq_ok (h : s.read text = .ok content) :
    ∃ path, s.locate text = .ok path ∧ s.content? path = some content := by
  cases hpath : s.locate text with
  | error e =>
    simp only [read, hpath, bind, Except.bind] at h
    cases h
  | ok path =>
    cases hcontent : s.content? path with
    | none =>
      simp only [read, hpath, hcontent, bind, Except.bind] at h
      cases h
    | some old =>
      simp only [read, hpath, hcontent, bind, Except.bind] at h
      cases h
      exact ⟨path, rfl, hcontent⟩

theorem write_eq_ok (h : s.write text content = .ok ((), t)) :
    ∃ path, s.locate text = .ok path ∧ view.Sets s t path (some content) := by
  unfold write at h
  cases hpath : s.locate text with
  | error e =>
    rw [hpath] at h
    cases h
  | ok path =>
    rw [hpath] at h
    change (if s.isDirectory path = true then .error FileError.isADirectory
      else Except.ok ((), s.put path content)) = _ at h
    cases hdirectory : s.isDirectory path with
    | true =>
      rw [hdirectory] at h
      cases h
    | false =>
      rw [hdirectory] at h
      cases h
      exact ⟨path, rfl, sets_put (hasRoom_of_isDirectory hdirectory) content⟩

/-- A file that is made was not there, and its name has a word of the list in it. -/
theorem create_eq_ok {directory first last : String} {words : List String}
    (h : s.create directory first last words = .ok (text, t)) :
    ∃ word ∈ words, text = joinPath directory (first ++ word ++ last) ∧
      ∃ path, s.locate text = .ok path ∧ s.content? path = none ∧
        view.Sets s t path (some .empty) := by
  induction words with
  | nil => cases h
  | cons word words ih =>
    rw [create] at h
    cases hpath : s.locate (joinPath directory (first ++ word ++ last)) with
    | error e =>
      simp only [hpath] at h
      cases h
    | ok path =>
      simp only [hpath] at h
      cases hthere : s.isThere path with
      | true =>
        rw [hthere, if_pos rfl] at h
        obtain ⟨other, hmem, hmade⟩ := ih h
        exact ⟨other, List.mem_cons_of_mem _ hmem, hmade⟩
      | false =>
        rw [hthere, if_neg Bool.false_ne_true] at h
        cases h
        exact ⟨word, List.mem_cons_self, rfl, path, hpath, content?_of_isThere hthere,
          sets_put (hasRoom_of_isThere hthere) .empty⟩

section Old

variable {old : ByteArray} (hpath : s.locate text = .ok path)
  (hold : s.content? path = some old)
include hpath hold

/-- A file that is there is filled. -/
theorem fill_eq_ok (content : ByteArray) :
    s.fill text content = .ok ((), s.put path content) := by
  simp only [fill, hpath, hold, bind, Except.bind]
  rfl

/-- A file that is there is removed. -/
theorem remove_eq_ok : s.remove text = .ok ((), { s with nodes := s.nodes.erase path }) := by
  simp only [remove, hpath, hold, bind, Except.bind]
  rfl

end Old

/-- What is put where a text leads is read there. -/
theorem read_put (hroom : s.HasRoom path) (hpath : s.locate text = .ok path) :
    (s.put path content).read text = .ok content := by
  have hsets := sets_put hroom content
  have hfile : (s.put path content).locate text = .ok path :=
    file_view_eq_some.mp ((hsets.file text).trans (file_view_eq_some.mpr hpath))
  have hcontent : (s.put path content).content? path = some content := hsets.content
  simp only [read, hfile, hcontent, bind, Except.bind]
  rfl

end Actions

/-! ## The laws -/

/-- What an action leaves behind. -/
theorem run_act {α : Type} (action : Store → Except FileError (α × Store)) (s : Store) :
    (act action).run s =
      match action s with
      | .ok (a, t) => (Except.ok a, t)
      | .error e => (Except.error e, s) := by
  change act action s = _
  unfold act
  cases action s <;> rfl

/-- An action that succeeds goes to its new store. -/
theorem act_eq_ok {α : Type} {action : Store → Except FileError (α × Store)} {a : α}
    (h : (act action).run s = (.ok a, t)) : action s = .ok (a, t) := by
  rw [run_act] at h
  cases haction : action s with
  | error e =>
    rw [haction] at h
    cases h
  | ok result =>
    rw [haction] at h
    cases h
    rfl

/-- An action that fails stays where it was. -/
theorem act_eq_error {α : Type} {action : Store → Except FileError (α × Store)} {e : FileError}
    (h : (act action).run s = (.error e, t)) : t = s := by
  rw [run_act] at h
  cases haction : action s with
  | error e =>
    rw [haction] at h
    cases h
    rfl
  | ok result =>
    rw [haction] at h
    cases h

variable (programs : Store → String → List String → Launch) (words : List String)

/-- **The disk of a store is lawful**, whatever programs are started and whatever words are
tried for new files. -/
theorem lawful_disk : (disk programs words).Lawful view where
  read_ok text s content t h := by
    obtain ⟨path, hpath, hcontent⟩ := read_eq_ok (congrArg Prod.fst h)
    exact ⟨path, file_view_eq_some.mpr hpath, hcontent⟩
  read_same text s := .refl s
  write_ok text content s t h := by
    obtain ⟨path, hpath, hsets⟩ := write_eq_ok (act_eq_ok h)
    exact ⟨path, file_view_eq_some.mpr hpath, hsets⟩
  write_error text content s e t h := by
    rw [act_eq_error h]
    exact .refl s
  create_ok directory first last s text t h := by
    obtain ⟨word, -, rfl, path, hpath, hnew, hsets⟩ := create_eq_ok (act_eq_ok h)
    have hfile := file_view_eq_some.mpr hpath
    exact ⟨word, path, hfile, hfile, hnew, hsets⟩
  create_error directory first last s e t h := by
    rw [act_eq_error h]
    exact .refl s
  fill_sets text content s path hfile hold := by
    have hrun : ((disk programs words).fill text content).run s = (.ok (), s.put path content) := by
      change (act _).run s = _
      rw [run_act, fill_eq_ok (file_view_eq_some.mp hfile) hold content]
    rw [hrun]
    exact ⟨content, sets_put (hasRoom_of_content? hold) content, fun _ => rfl⟩
  remove_sets text s path old hfile hold := by
    have hrun : ((disk programs words).remove text).run s =
        (.ok (), { s with nodes := s.nodes.erase path }) := by
      change (act _).run s = _
      rw [run_act, remove_eq_ok (file_view_eq_some.mp hfile) hold]
    rw [hrun]
    exact ⟨rfl, sets_erase (hasRoom_of_content? hold)⟩
  launch_same program arguments s := .refl s

end Store

end Transducers
