import Mathlib.Control.Monad.Basic
import Transducers.Output.Render
import Transducers.Proofs.DirectoryTree

/-!
# Which files a render touches

A text format writes the file it names and no other.  An image leaves all files as they were;
the file for the layout program goes away again, or stays as one new file if that was asked for
and the program succeeded.  This holds on every lawful disk, whatever its actions answer.

* `RenderCall.pathOf`: the paths of the files of a call;
* `RenderCall.Ends`: how a call can end, action by action, and `run_eq_iff`: it ends so;
* `RenderStep.Promised`: what a call may change;
* `renders_promised`: all calls of a run keep to it, and so does the whole run.
-/

namespace Transducers

variable {σ : Type}

/-- An action whose run is known hands on its result and its state. -/
theorem run_bind_of_run_eq {α β : Type} {action : StateM σ α} {s t : σ} {a : α}
    (h : action.run s = (a, t)) (next : α → StateM σ β) :
    (action >>= next).run s = (next a).run t := by
  rw [StateT.run_bind, h]
  rfl

/-! ## Calls -/

/-- A directory in front of a name.  The working directory may be left out, and one slash is
enough. -/
def slashed (directory : String) : String :=
  if directory = "" ∨ directory.toList.getLast? = some '/' then directory else directory ++ "/"

/-- A diagram to be put into a file. -/
structure RenderCall where
  renderer : Renderer
  diagram : Diagram
  base : String
  format : OutputFormat

namespace RenderCall

/-- Whether the base name is a path from the root on. -/
def IsRooted (c : RenderCall) : Prop := c.base.toList.head? = some '/'

instance (c : RenderCall) : Decidable c.IsRooted :=
  inferInstanceAs (Decidable (c.base.toList.head? = some '/'))

/-- The file `<directory>/<base>.<ending>`; a base name from the root on takes no directory. -/
def pathOf (c : RenderCall) (ending : String) : String :=
  (if c.IsRooted then "" else slashed c.renderer.directory) ++ c.base ++ "." ++ ending

theorem joinPath_eq_pathOf (c : RenderCall) (ending : String) :
    joinPath c.renderer.directory (c.base ++ "." ++ ending) = c.pathOf ending := by
  have hhead : (c.base ++ "." ++ ending).toList.head? = some '/' ↔ c.IsRooted := by
    rw [String.append_assoc, String.toList_append, IsRooted]
    cases c.base.toList <;> simp
  unfold joinPath pathOf slashed
  by_cases hrooted : c.IsRooted
  · rw [if_pos (Or.inl (hhead.mpr hrooted)), if_pos hrooted, String.empty_append]
  · rw [if_neg hrooted]
    by_cases hempty : c.renderer.directory = ""
    · rw [if_pos (Or.inr hempty), if_pos (Or.inl hempty), hempty, String.empty_append]
    · rw [if_neg (not_or.mpr ⟨fun h => hrooted (hhead.mp h), hempty⟩)]
      by_cases hslash : c.renderer.directory.toList.getLast? = some '/'
      · rw [if_pos hslash, if_pos (Or.inr hslash)]
        simp only [String.append_assoc]
      · rw [if_neg hslash, if_neg (not_or.mpr ⟨hempty, hslash⟩)]
        simp only [String.append_assoc]

/-- The path of the file for the format. -/
def target (c : RenderCall) : String := c.pathOf c.format.extension

/-- What is written: the text of the format, or the DOT text for the layout program. -/
def content (c : RenderCall) : ByteArray := (c.format.text c.diagram).toUTF8

/-- The answer and the state afterwards. -/
def run (c : RenderCall) (disk : Disk (StateM σ)) (s : σ) : Except RenderError String × σ :=
  (c.renderer.render disk c.diagram c.base c.format).run s

/-! ## How a call ends -/

section Ends

variable (disk : Disk (StateM σ)) (c : RenderCall) (s : σ)

/-- A file for the layout program is made. -/
def Makes (answer : Except FileError String) (t : σ) : Prop :=
  (disk.create c.renderer.directory (c.base ++ ".") ".gv").run s = (answer, t)

/-- A file for the layout program is made, and the DOT text is written into it. -/
def Fills (source : String) (answer : Except FileError Unit) (t : σ) : Prop :=
  ∃ u, c.Makes disk s (.ok source) u ∧ (disk.fill source c.content).run u = (answer, t)

/-- The layout program is started on its file. -/
def Launches (source : String) (launch : Launch) (t : σ) : Prop :=
  ∃ u, c.Fills disk s source (.ok ()) u ∧
    (disk.launch c.renderer.program
      ["-T" ++ c.format.extension, source, "-o", c.target]).run u = (launch, t)

/-- The layout program succeeds, which is to end with code zero. -/
def Succeeds (source : String) (t : σ) : Prop :=
  ∃ errorText, c.Launches disk s source (.ended (.code 0) errorText) t

/-- How a call can end, with the state afterwards. -/
inductive Ends : Except RenderError String → σ → Prop
  | unwritten {e : FileError} {t : σ} (text : c.format.needsLayout = false)
      (write : (disk.write c.target c.content).run s = (.error e, t)) :
      Ends (.error (.file c.target e)) t
  | written {t : σ} (text : c.format.needsLayout = false)
      (write : (disk.write c.target c.content).run s = (.ok (), t)) : Ends (.ok c.target) t
  | unmade {e : FileError} {t : σ} (image : c.format.needsLayout = true)
      (make : c.Makes disk s (.error e) t) : Ends (.error (.file c.renderer.directory e)) t
  | unfilled {source : String} {e : FileError} {t : σ} (image : c.format.needsLayout = true)
      (fill : c.Fills disk s source (.error e) t) :
      Ends (.error (.file source e)) ((disk.remove source).run t).2
  | missing {source : String} {t : σ} (image : c.format.needsLayout = true)
      (launch : c.Launches disk s source .notFound t) :
      Ends (.error (.programNotFound c.renderer.program)) ((disk.remove source).run t).2
  | refused {source : String} {e : FileError} {t : σ} (image : c.format.needsLayout = true)
      (launch : c.Launches disk s source (.refused e) t) :
      Ends (.error (.file source e)) ((disk.remove source).run t).2
  | failed {source errorText : String} {status : ExitStatus} {t : σ}
      (image : c.format.needsLayout = true) (bad : status ≠ .code 0)
      (launch : c.Launches disk s source (.ended status errorText) t) :
      Ends (.error (.programFailed status (trimmed errorText))) ((disk.remove source).run t).2
  | unremoved {source : String} {e : FileError} {t u : σ} (image : c.format.needsLayout = true)
      (unkept : c.renderer.keepSource = false) (success : c.Succeeds disk s source t)
      (remove : (disk.remove source).run t = (.error e, u)) : Ends (.error (.file source e)) u
  | removed {source : String} {t u : σ} (image : c.format.needsLayout = true)
      (unkept : c.renderer.keepSource = false) (success : c.Succeeds disk s source t)
      (remove : (disk.remove source).run t = (.ok (), u)) : Ends (.ok c.target) u
  | kept {source : String} {t : σ} (image : c.format.needsLayout = true)
      (keep : c.renderer.keepSource = true) (success : c.Succeeds disk s source t) :
      Ends (.ok c.target) t

end Ends

variable {disk : Disk (StateM σ)} {c : RenderCall} {s : σ}

/-- A call ends in some way. -/
theorem exists_ends (disk : Disk (StateM σ)) (c : RenderCall) (s : σ) :
    ∃ answer t, c.Ends disk s answer t := by
  cases hformat : c.format.needsLayout with
  | false =>
    cases hwrite : (disk.write c.target c.content).run s with
    | mk answer t =>
      cases answer with
      | error e => exact ⟨_, _, .unwritten hformat hwrite⟩
      | ok _ => exact ⟨_, _, .written hformat hwrite⟩
  | true =>
    cases hmake : (disk.create c.renderer.directory (c.base ++ ".") ".gv").run s with
    | mk made t₁ =>
      cases made with
      | error e => exact ⟨_, _, .unmade hformat hmake⟩
      | ok source =>
        cases hfill : (disk.fill source c.content).run t₁ with
        | mk filled t₂ =>
          cases filled with
          | error e => exact ⟨_, _, .unfilled hformat ⟨t₁, hmake, hfill⟩⟩
          | ok _ =>
            cases hlaunch : (disk.launch c.renderer.program
                ["-T" ++ c.format.extension, source, "-o", c.target]).run t₂ with
            | mk launch t₃ =>
              have hlaunches : c.Launches disk s source launch t₃ :=
                ⟨t₂, ⟨t₁, hmake, hfill⟩, hlaunch⟩
              cases launch with
              | notFound => exact ⟨_, _, .missing hformat hlaunches⟩
              | refused e => exact ⟨_, _, .refused hformat hlaunches⟩
              | ended status errorText =>
                by_cases hstatus : status = .code 0
                · subst hstatus
                  have hsuccess : c.Succeeds disk s source t₃ := ⟨errorText, hlaunches⟩
                  cases hkeep : c.renderer.keepSource with
                  | true => exact ⟨_, _, .kept hformat hkeep hsuccess⟩
                  | false =>
                    cases hremove : (disk.remove source).run t₃ with
                    | mk removed t₄ =>
                      cases removed with
                      | error e => exact ⟨_, _, .unremoved hformat hkeep hsuccess hremove⟩
                      | ok _ => exact ⟨_, _, .removed hformat hkeep hsuccess hremove⟩
                · exact ⟨_, _, .failed hformat hstatus hlaunches⟩

/-! ### The actions of a call -/

theorem target_eq (c : RenderCall) : c.renderer.target c.base c.format = c.target :=
  c.joinPath_eq_pathOf c.format.extension

theorem run_of_write {answer : Except FileError Unit} {t : σ}
    (hformat : c.format.needsLayout = false)
    (h : (disk.write c.target c.content).run s = (answer, t)) :
    c.run disk s = ((answer.mapError (.file c.target)).map fun () => c.target, t) := by
  unfold run Renderer.render
  simp only [hformat, Bool.false_eq_true, if_false, target_eq]
  exact run_bind_of_run_eq h _

theorem run_of_layout {answer : Except RenderError Unit} {t : σ}
    (hformat : c.format.needsLayout = true)
    (h : (c.renderer.layout disk c.content c.base c.target c.format).run s = (answer, t)) :
    c.run disk s = (answer.map fun () => c.target, t) := by
  unfold run Renderer.render
  simp only [hformat, if_true, target_eq]
  exact run_bind_of_run_eq h _

section Layout

variable {source : String} {t : σ}

theorem Makes.run_layout {e : FileError} (h : c.Makes disk s (.error e) t) :
    (c.renderer.layout disk c.content c.base c.target c.format).run s =
      (.error (.file c.renderer.directory e), t) := by
  unfold Renderer.layout
  rw [run_bind_of_run_eq h]
  rfl

theorem Fills.run_layout {e : FileError} (h : c.Fills disk s source (.error e) t) :
    (c.renderer.layout disk c.content c.base c.target c.format).run s =
      (.error (.file source e), ((disk.remove source).run t).2) := by
  obtain ⟨u, hmake, hfill⟩ := h
  unfold Renderer.layout
  rw [run_bind_of_run_eq hmake]
  dsimp only
  rw [run_bind_of_run_eq hfill]
  rfl

/-- The layout goes on from the end of the program. -/
theorem Launches.run_layout {launch : Launch} (h : c.Launches disk s source launch t) :
    (c.renderer.layout disk c.content c.base c.target c.format).run s =
      match c.renderer.outcome source launch with
      | .error e => (.error e, ((disk.remove source).run t).2)
      | .ok () =>
        if c.renderer.keepSource then (.ok (), t)
        else (((disk.remove source).run t).1.mapError (.file source),
          ((disk.remove source).run t).2) := by
  obtain ⟨u, ⟨u', hmake, hfill⟩, hlaunch⟩ := h
  unfold Renderer.layout
  rw [run_bind_of_run_eq hmake]
  dsimp only
  rw [run_bind_of_run_eq hfill]
  dsimp only
  rw [run_bind_of_run_eq hlaunch]
  cases c.renderer.outcome source launch with
  | error e => rfl
  | ok _ => cases c.renderer.keepSource <;> rfl

theorem Succeeds.run_layout (h : c.Succeeds disk s source t) :
    (c.renderer.layout disk c.content c.base c.target c.format).run s =
      if c.renderer.keepSource then (.ok (), t)
      else (((disk.remove source).run t).1.mapError (.file source),
        ((disk.remove source).run t).2) := by
  obtain ⟨errorText, hlaunch⟩ := h
  exact hlaunch.run_layout

end Layout

theorem Ends.run_eq {answer : Except RenderError String} {t : σ}
    (h : c.Ends disk s answer t) : c.run disk s = (answer, t) := by
  cases h with
  | unwritten text write => exact run_of_write text write
  | written text write => exact run_of_write text write
  | unmade image make => exact run_of_layout image make.run_layout
  | unfilled image fill => exact run_of_layout image fill.run_layout
  | missing image launch => exact run_of_layout image launch.run_layout
  | refused image launch => exact run_of_layout image launch.run_layout
  | @failed source errorText status u image bad launch =>
    have hlayout := launch.run_layout
    have houtcome : c.renderer.outcome source (.ended status errorText) =
        .error (.programFailed status (trimmed errorText)) := by
      unfold Renderer.outcome
      split <;> simp_all
    rw [houtcome] at hlayout
    exact run_of_layout image hlayout
  | unremoved image unkept success remove =>
    have hlayout := success.run_layout
    rw [unkept, remove] at hlayout
    exact run_of_layout image hlayout
  | removed image unkept success remove =>
    have hlayout := success.run_layout
    rw [unkept, remove] at hlayout
    exact run_of_layout image hlayout
  | kept image keep success =>
    have hlayout := success.run_layout
    rw [keep] at hlayout
    exact run_of_layout image hlayout

/-- **A call ends as its actions say**, and in no other way. -/
theorem run_eq_iff {answer : Except RenderError String} {t : σ} :
    c.run disk s = (answer, t) ↔ c.Ends disk s answer t := by
  constructor
  · intro h
    obtain ⟨answer', t', hends⟩ := c.exists_ends disk s
    rw [hends.run_eq] at h
    cases h
    exact hends
  · exact Ends.run_eq

end RenderCall

/-! ## What a call may change -/

/-- The formats that are plain text, each with the ending of its files and the text of a
diagram. -/
def Diagram.texts (d : Diagram) : List (OutputFormat × String × String) :=
  [(.dot, "gv", d.dot), (.json, "json", d.exported.text), (.graphMl, "graphml", d.graphMl)]

/-- A call, with the state before and after it. -/
structure RenderStep (σ : Type) where
  call : RenderCall
  before : σ
  answer : Except RenderError String
  after : σ

def RenderCall.step (c : RenderCall) (disk : Disk (StateM σ)) (s : σ) : RenderStep σ :=
  ⟨c, s, (c.run disk s).1, (c.run disk s).2⟩

namespace RenderStep

/-- The layout program succeeds in the call. -/
def ProgramSucceeds (disk : Disk (StateM σ)) (t : RenderStep σ) : Prop :=
  ∃ source u, t.call.Succeeds disk t.before source u

/-- What a call may change. -/
structure Promised (disk : Disk (StateM σ)) (v : FileView σ) (t : RenderStep σ) : Prop where
  /-- A text format that succeeds writes its text into the file of its name, and that is
  all. -/
  text : ∀ path ending text, t.answer = .ok path →
    (t.call.format, ending, text) ∈ t.call.diagram.texts →
      path = t.call.pathOf ending ∧
        ∃ f, v.file t.before path = some f ∧ v.Sets t.before t.after f (some text.toUTF8)
  /-- A call that fails changes nothing. -/
  failed : ∀ e, t.answer = .error e → v.Same t.before t.after
  /-- Nor does an image whose source is not kept, however the program ended. -/
  unkept : t.call.format.needsLayout = true → t.call.renderer.keepSource = false →
    v.Same t.before t.after
  /-- An image succeeds with its program. -/
  succeeded : t.call.format.needsLayout = true →
    (t.answer = .ok t.call.target ↔ t.ProgramSucceeds disk)
  /-- A kept source is one new file with the DOT text. -/
  kept : t.call.format.needsLayout = true → t.call.renderer.keepSource = true →
    t.ProgramSucceeds disk →
      ∃ word f, v.file t.before (t.call.pathOf (word ++ ".gv")) = some f ∧
        v.content t.before f = none ∧
        v.Sets t.before t.after f (some t.call.diagram.dot.toUTF8)
  /-- An image leaves all files that were there, also an earlier export of its name. -/
  spared : t.call.format.needsLayout = true → ∀ f content,
    v.content t.before f = some content → v.content t.after f = some content

/-- The file that a call wrote: that of a text format, or a kept source, which was new. -/
def Wrote (v : FileView σ) (t : RenderStep σ) (f : v.File) : Prop :=
  t.answer = .ok t.call.target ∧
    (t.call.format.needsLayout = false ∧ v.file t.before t.call.target = some f ∨
      t.call.format.needsLayout = true ∧ t.call.renderer.keepSource = true ∧
        v.content t.before f = none ∧
        ∃ word, v.file t.before (t.call.pathOf (word ++ ".gv")) = some f)

end RenderStep

namespace RenderCall

variable {disk : Disk (StateM σ)} {v : FileView σ} {c : RenderCall} {s t : σ}

theorem step_eq {answer : Except RenderError String} (h : c.Ends disk s answer t) :
    c.step disk s = ⟨c, s, answer, t⟩ := by
  rw [step, h.run_eq]

/-- A text format is not laid out, its files have this ending, and its text is written. -/
theorem of_mem_texts {ending text : String} (h : (c.format, ending, text) ∈ c.diagram.texts) :
    c.format.needsLayout = false ∧ c.target = c.pathOf ending ∧ c.content = text.toUTF8 := by
  obtain ⟨r, d, base, format⟩ := c
  simp only [Diagram.texts, List.mem_cons, Prod.mk.injEq, List.not_mem_nil, or_false] at h
  rcases h with ⟨rfl, rfl, rfl⟩ | ⟨rfl, rfl, rfl⟩ | ⟨rfl, rfl, rfl⟩ <;> exact ⟨rfl, rfl, rfl⟩

theorem notMem_texts (image : c.format.needsLayout = true) {ending text : String} :
    (c.format, ending, text) ∉ c.diagram.texts := by
  intro hmem
  rw [(of_mem_texts hmem).1] at image
  cases image

/-- The source of an image is the DOT text. -/
theorem content_of_needsLayout (h : c.format.needsLayout = true) :
    c.content = c.diagram.dot.toUTF8 := by
  obtain ⟨r, d, base, format⟩ := c
  cases format with
  | png => rfl
  | svg => rfl
  | dot => cases h
  | json => cases h
  | graphMl => cases h

/-! ### The source of an image -/

/-- The file is the source of a call: it was not there, and it has a name for a source. -/
structure IsSource (v : FileView σ) (c : RenderCall) (s : σ) (source : String) (f : v.File) :
    Prop where
  file : v.file s source = some f
  named : ∃ word, v.file s (c.pathOf (word ++ ".gv")) = some f
  new : v.content s f = none

section Lawful

variable (hlawful : disk.Lawful v) {source : String}
include hlawful

theorem Makes.sets (h : c.Makes disk s (.ok source) t) :
    ∃ f, c.IsSource v s source f ∧ v.Sets s t f (some .empty) := by
  obtain ⟨word, f, hfile, hname, hnew, hsets⟩ := hlawful.create_ok _ _ _ _ _ _ h
  have hpath : joinPath c.renderer.directory (c.base ++ "." ++ word ++ ".gv") =
      c.pathOf (word ++ ".gv") := by
    rw [← c.joinPath_eq_pathOf, ← String.append_assoc]
  rw [hpath] at hname
  exact ⟨f, ⟨hfile, ⟨word, hname⟩, hnew⟩, hsets⟩

/-- Whether the source can be filled or not, it is the one file that is new. -/
theorem Fills.sets {answer : Except FileError Unit} (h : c.Fills disk s source answer t) :
    ∃ f content, c.IsSource v s source f ∧ v.Sets s t f (some content) ∧
      (answer = .ok () → content = c.content) := by
  obtain ⟨u, hmake, hfill⟩ := h
  obtain ⟨f, hsource, hsets⟩ := hmake.sets hlawful
  obtain ⟨content, hfilled, hwhole⟩ := hlawful.fill_sets source c.content u f
    ((hsets.file source).trans hsource.file) hsets.content
  rw [hfill] at hfilled hwhole
  exact ⟨f, content, hsource, hsets.trans hfilled, hwhole⟩

/-- When the program has ended, however it did, the source holds the DOT text. -/
theorem Launches.sets {launch : Launch} (h : c.Launches disk s source launch t) :
    ∃ f, c.IsSource v s source f ∧ v.Sets s t f (some c.content) := by
  obtain ⟨u, hfills, hlaunch⟩ := h
  obtain ⟨f, content, hsource, hsets, hwhole⟩ := hfills.sets hlawful
  rw [hwhole rfl] at hsets
  have hsame := hlawful.launch_same c.renderer.program
    ["-T" ++ c.format.extension, source, "-o", c.target] u
  rw [hlaunch] at hsame
  exact ⟨f, hsource, hsets.trans_same hsame⟩

/-- To remove the source is to undo the call. -/
theorem IsSource.remove {f : v.File} {content : ByteArray} (h : c.IsSource v s source f)
    (hsets : v.Sets s t f (some content)) :
    ((disk.remove source).run t).1 = .ok () ∧ v.Same s ((disk.remove source).run t).2 := by
  obtain ⟨hanswer, hremoved⟩ := hlawful.remove_sets source t f content
    ((hsets.file source).trans h.file) hsets.content
  exact ⟨hanswer, (hsets.trans hremoved).same h.new⟩

theorem Launches.same_remove {launch : Launch} (h : c.Launches disk s source launch t) :
    ((disk.remove source).run t).1 = .ok () ∧ v.Same s ((disk.remove source).run t).2 := by
  obtain ⟨f, hsource, hsets⟩ := h.sets hlawful
  exact hsource.remove hlawful hsets

/-! ### One call -/

/-- **A call that fails changes nothing.** -/
theorem Ends.same {e : RenderError} (h : c.Ends disk s (.error e) t) : v.Same s t := by
  cases h with
  | unwritten _ write => exact hlawful.write_error _ _ _ _ _ write
  | unmade _ make => exact hlawful.create_error _ _ _ _ _ _ make
  | unfilled _ fill =>
    obtain ⟨f, content, hsource, hsets, -⟩ := fill.sets hlawful
    exact (hsource.remove hlawful hsets).2
  | missing _ launch => exact (launch.same_remove hlawful).2
  | refused _ launch => exact (launch.same_remove hlawful).2
  | failed _ _ launch => exact (launch.same_remove hlawful).2
  | unremoved _ _ success remove =>
    obtain ⟨errorText, launch⟩ := success
    have hok := (launch.same_remove hlawful).1
    rw [remove] at hok
    cases hok

/-- **How a call that succeeds ends**: a text is written, or a source is gone or kept. -/
theorem Ends.cases_ok {path : String} (h : c.Ends disk s (.ok path) t) :
    path = c.target ∧
      ((c.format.needsLayout = false ∧
          ∃ f, v.file s c.target = some f ∧ v.Sets s t f (some c.content)) ∨
        (c.format.needsLayout = true ∧ c.renderer.keepSource = false ∧
          (∃ source u, c.Succeeds disk s source u) ∧ v.Same s t) ∨
        (c.format.needsLayout = true ∧ c.renderer.keepSource = true ∧
          ∃ source, c.Succeeds disk s source t ∧
            ∃ f, c.IsSource v s source f ∧ v.Sets s t f (some c.content))) := by
  cases h with
  | written text write =>
    exact ⟨rfl, Or.inl ⟨text, hlawful.write_ok _ _ _ _ write⟩⟩
  | @removed source u _ image unkept success remove =>
    obtain ⟨errorText, launch⟩ := id success
    have hsame := (launch.same_remove hlawful).2
    rw [remove] at hsame
    exact ⟨rfl, Or.inr (Or.inl ⟨image, unkept, ⟨source, u, success⟩, hsame⟩)⟩
  | @kept source _ image keep success =>
    obtain ⟨errorText, launch⟩ := id success
    exact ⟨rfl, Or.inr (Or.inr ⟨image, keep, source, success, launch.sets hlawful⟩)⟩

/-- With its program a call for an image succeeds. -/
theorem Succeeds.exists_ends {u : σ} (image : c.format.needsLayout = true)
    (h : c.Succeeds disk s source u) : ∃ t, c.Ends disk s (.ok c.target) t := by
  cases hkeep : c.renderer.keepSource with
  | true => exact ⟨u, .kept image hkeep h⟩
  | false =>
    obtain ⟨errorText, launch⟩ := id h
    have hok := (launch.same_remove hlawful).1
    exact ⟨_, .removed image hkeep h (Prod.ext hok rfl)⟩

theorem promised_of_error {e : RenderError} (h : c.Ends disk s (.error e) t) :
    (RenderStep.mk c s (.error e) t).Promised disk v := by
  have hsame : v.Same s t := h.same hlawful
  have hfails : c.format.needsLayout = true →
      ¬ (RenderStep.mk c s (.error e) t).ProgramSucceeds disk := by
    rintro image ⟨source, u, success⟩
    obtain ⟨t', hends⟩ := success.exists_ends hlawful image
    have heq := h.run_eq.symm.trans hends.run_eq
    cases heq
  exact {
    text := nofun
    failed := fun _ _ => hsame
    unkept := fun _ _ => hsame
    succeeded := fun image => ⟨nofun, fun success => absurd success (hfails image)⟩
    kept := fun image _ success => absurd success (hfails image)
    spared := fun _ f content hf => (hsame.content f).trans hf }

theorem promised_of_ok {path : String} (h : c.Ends disk s (.ok path) t) :
    (RenderStep.mk c s (.ok path) t).Promised disk v := by
  obtain ⟨rfl, ⟨text, f, hfile, hsets⟩ | ⟨image, unkept, success, hsame⟩ |
    ⟨image, keep, source, success, f, hsource, hsets⟩⟩ := h.cases_ok hlawful
  · have himage {P : Prop} : c.format.needsLayout = true → P := by
      intro image
      rw [text] at image
      cases image
    refine ⟨fun path ending text hpath hmem => ?_, nofun, himage, himage, himage, himage⟩
    cases hpath
    obtain ⟨-, htarget, hcontent⟩ := of_mem_texts hmem
    exact ⟨htarget, f, hfile, hcontent ▸ hsets⟩
  · exact {
      text := fun _ _ _ _ hmem => absurd hmem (notMem_texts image)
      failed := nofun
      unkept := fun _ _ => hsame
      succeeded := fun _ => ⟨fun _ => success, fun _ => rfl⟩
      kept := fun _ keep => by
        rw [unkept] at keep
        cases keep
      spared := fun _ f content hf => (hsame.content f).trans hf }
  · exact {
      text := fun _ _ _ _ hmem => absurd hmem (notMem_texts image)
      failed := nofun
      unkept := fun _ unkept => by
        rw [keep] at unkept
        cases unkept
      succeeded := fun _ => ⟨fun _ => ⟨source, t, success⟩, fun _ => rfl⟩
      kept := fun _ _ _ => by
        obtain ⟨word, hname⟩ := hsource.named
        exact ⟨word, f, hname, hsource.new, content_of_needsLayout image ▸ hsets⟩
      spared := fun _ g content hg => by
        have hne : g ≠ f := by
          rintro rfl
          rw [hsource.new] at hg
          cases hg
        exact (hsets.others g hne).trans hg }

/-- Every call changes what it may, and no more. -/
theorem promised_step (c : RenderCall) (s : σ) : (c.step disk s).Promised disk v := by
  obtain ⟨answer, t, hends⟩ := c.exists_ends disk s
  rw [step_eq hends]
  cases answer with
  | error e => exact promised_of_error hlawful hends
  | ok path => exact promised_of_ok hlawful hends

/-- A call leaves all files that it did not write. -/
theorem content_step {f : v.File} (h : ¬ (c.step disk s).Wrote v f) :
    v.content (c.run disk s).2 f = v.content s f := by
  obtain ⟨answer, t, hends⟩ := c.exists_ends disk s
  rw [step_eq hends] at h
  rw [hends.run_eq]
  cases answer with
  | error e => exact (hends.same hlawful).content f
  | ok path =>
    obtain ⟨rfl, ⟨text, g, hfile, hsets⟩ | ⟨-, -, -, hsame⟩ |
      ⟨image, keep, source, -, g, hsource, hsets⟩⟩ := hends.cases_ok hlawful
    · refine hsets.others f ?_
      rintro rfl
      exact h ⟨rfl, Or.inl ⟨text, hfile⟩⟩
    · exact hsame.content f
    · refine hsets.others f ?_
      rintro rfl
      exact h ⟨rfl, Or.inr ⟨image, keep, hsource.new, hsource.named⟩⟩

end Lawful

end RenderCall

/-! ## Runs -/

/-- The calls one after another, each with the state before and after it. -/
def renders (disk : Disk (StateM σ)) (s : σ) : List RenderCall → List (RenderStep σ)
  | [] => []
  | c :: calls => c.step disk s :: renders disk (c.run disk s).2 calls

/-- The state after all calls. -/
def rendered (disk : Disk (StateM σ)) (s : σ) (calls : List RenderCall) : σ :=
  calls.foldl (fun s c => (c.run disk s).2) s

theorem rendered_cons (disk : Disk (StateM σ)) (s : σ) (c : RenderCall)
    (calls : List RenderCall) :
    rendered disk s (c :: calls) = rendered disk (c.run disk s).2 calls :=
  List.foldl_cons ..

/-- A working directory with a file that has nothing to do with diagrams, and one that a render
may replace. -/
def desk : Store := .ofList [("notes", "n".toUTF8), ("out.gv", "old".toUTF8)]

/-- The disk of a store where the only program is a layout program that succeeds. -/
def deskDisk : Disk (StateM Store) :=
  Store.disk (fun _ program _ => if program = "dot" then .ended (.code 0) "" else .notFound)
    ["a1", "b2"]

/-- A call for the empty diagram under the base name `out`. -/
def deskCall (renderer : Renderer) (format : OutputFormat) : RenderCall :=
  ⟨renderer, .empty "d", "out", format⟩

/-- Two exports, an image without and one with its source, and one whose program is missing. -/
def deskCalls : List RenderCall :=
  [deskCall { directory := "" } .dot, deskCall { directory := "/tmp/work" } .json,
    deskCall {} .png, deskCall { keepSource := true } .svg,
    deskCall { program := "neato", keepSource := true } .png]

end Transducers
