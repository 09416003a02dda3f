import Transducers.Files.Disk

/-!
# What is relied on of a disk

Which files a program touches depends on the disk: that a write is done as a whole or not at
all, that a new file was not there and goes away when it is removed, and that the programs
that are started write no files.  These are laws here, and any disk that has them will do.

* `FileView`: the files that are seen in the states of a disk;
* `FileView.Same`, `FileView.Sets`: a step after which all files are the same, or one is set;
* `Disk.Lawful`: the laws.
-/

namespace Transducers

/-- How files are seen in the states of a disk.  Paths that lead to one file are told apart
from the file. -/
structure FileView (σ : Type) where
  File : Type
  /-- Where a path leads, if all directories on the way are there; a file need not be. -/
  file : (s : σ) → (path : String) → Option File
  /-- What a file holds, if it is there. -/
  content : (s : σ) → File → Option ByteArray

namespace FileView

variable {σ : Type} {v : FileView σ}

/-- All files are the same, and paths lead to them as before. -/
structure Same (v : FileView σ) (s t : σ) : Prop where
  file : ∀ path, v.file t path = v.file s path
  content : ∀ f, v.content t f = v.content s f

/-- One file holds this in the end, or is not there, and all others are the same. -/
structure Sets (v : FileView σ) (s t : σ) (f : v.File) (c : Option ByteArray) : Prop where
  file : ∀ path, v.file t path = v.file s path
  content : v.content t f = c
  others : ∀ g, g ≠ f → v.content t g = v.content s g

theorem Same.refl (s : σ) : v.Same s s := ⟨fun _ => rfl, fun _ => rfl⟩

theorem Same.trans {s t u : σ} (h : v.Same s t) (h' : v.Same t u) : v.Same s u :=
  ⟨fun path => (h'.file path).trans (h.file path), fun f => (h'.content f).trans (h.content f)⟩

theorem Same.trans_sets {s t u : σ} {f : v.File} {c : Option ByteArray} (h : v.Same s t)
    (h' : v.Sets t u f c) : v.Sets s u f c where
  file path := (h'.file path).trans (h.file path)
  content := h'.content
  others g hg := (h'.others g hg).trans (h.content g)

theorem Sets.trans_same {s t u : σ} {f : v.File} {c : Option ByteArray} (h : v.Sets s t f c)
    (h' : v.Same t u) : v.Sets s u f c where
  file path := (h'.file path).trans (h.file path)
  content := (h'.content f).trans h.content
  others g hg := (h'.content g).trans (h.others g hg)

/-- Of two changes of one file the second counts. -/
theorem Sets.trans {s t u : σ} {f : v.File} {c c' : Option ByteArray} (h : v.Sets s t f c)
    (h' : v.Sets t u f c') : v.Sets s u f c' where
  file path := (h'.file path).trans (h.file path)
  content := h'.content
  others g hg := (h'.others g hg).trans (h.others g hg)

/-- A file that is set to what it was before. -/
theorem Sets.same {s t : σ} {f : v.File} {c : Option ByteArray} (h : v.Sets s t f c)
    (hc : v.content s f = c) : v.Same s t where
  file := h.file
  content g := by
    by_cases hg : g = f
    · rw [hg, h.content, hc]
    · exact h.others g hg

end FileView

/-- What is relied on of a disk. -/
structure Disk.Lawful {σ : Type} (disk : Disk (StateM σ)) (v : FileView σ) : Prop where
  /-- To read is to get what the file holds. -/
  read_ok : ∀ path s content t, (disk.read path).run s = (.ok content, t) →
    ∃ f, v.file s path = some f ∧ v.content s f = some content
  read_same : ∀ path s, v.Same s ((disk.read path).run s).2
  /-- A write that succeeds sets the file to which the path leads. -/
  write_ok : ∀ path content s t, (disk.write path content).run s = (.ok (), t) →
    ∃ f, v.file s path = some f ∧ v.Sets s t f (some content)
  /-- A write that fails changes nothing. -/
  write_error : ∀ path content s e t, (disk.write path content).run s = (.error e, t) →
    v.Same s t
  /-- A file that is made was not there, and its name has the given beginning and end. -/
  create_ok : ∀ directory first last s path t,
    (disk.create directory first last).run s = (.ok path, t) →
      ∃ word f, v.file s path = some f ∧
        v.file s (joinPath directory (first ++ word ++ last)) = some f ∧
        v.content s f = none ∧ v.Sets s t f (some .empty)
  create_error : ∀ directory first last s e t,
    (disk.create directory first last).run s = (.error e, t) → v.Same s t
  /-- A file that is filled holds the content, or what was written of it before a failure. -/
  fill_sets : ∀ path content s f, v.file s path = some f → v.content s f = some .empty →
    ∃ c, v.Sets s ((disk.fill path content).run s).2 f (some c) ∧
      (((disk.fill path content).run s).1 = .ok () → c = content)
  /-- A file that is there can be removed. -/
  remove_sets : ∀ path s f c, v.file s path = some f → v.content s f = some c →
    ((disk.remove path).run s).1 = .ok () ∧ v.Sets s ((disk.remove path).run s).2 f none
  /-- Programs write no files. -/
  launch_same : ∀ program arguments s, v.Same s ((disk.launch program arguments).run s).2

end Transducers
