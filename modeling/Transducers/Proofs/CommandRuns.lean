import Transducers.Command
import Transducers.Proofs.DefinitionText
import Transducers.Proofs.Drawings
import Transducers.Proofs.Rendering

/-!
# What the command does

The command runs on any lawful disk.  Several stages can fail in one call, such as an unknown
format and a missing definition; what is reported is the first failure in the order of the
stages, and no file changes then.

* `CommandCall.Loads`: the machine that the first argument defines;
* `CommandCall.Fails`: why a stage fails, and what is reported of it;
* `run_loadDefinition`, `run_convertAndRender`, `CommandCall.run_of_counted`: the command,
  stage by stage;
* `CommandCall.Delivered`: what the command leaves behind when all stages succeed;
* `CommandCall.run_cases`: either a first stage fails, or the diagram is delivered;
* `CommandCall.run_outcome`: the outcome of every call.
-/

namespace Transducers

variable {σ : Type}

/-- What the command writes about an error. -/
def errorLine (message : String) : String := s!"Error: {message}\n"

/-- What the command writes about a diagram of a machine of this kind. -/
def savedLine (kind : MachineKind) (file : String) : String :=
  s!"{kind.title} machine diagram saved as {file}\n"

/-- What the command says in the end, when a machine of this kind was to be drawn. -/
def drawnResult (kind : MachineKind) : Except RenderError String → CommandResult
  | .error e => ⟨1, "", errorLine e.message⟩
  | .ok path => ⟨0, savedLine kind path, ""⟩

/-! ## Loading, converting and rendering -/

theorem fromUTF8?_eq_some_iff {content : ByteArray} {text : String} :
    String.fromUTF8? content = some text ↔ content = text.toUTF8 := by
  unfold String.fromUTF8?
  constructor
  · intro h
    split at h
    · cases h
      rfl
    · cases h
  · rintro rfl
    exact dif_pos text.isValidUTF8

theorem toUTF8_injective : Function.Injective String.toUTF8 := by
  intro a b h
  have hsome := fromUTF8?_eq_some_iff.mpr h
  rw [fromUTF8?_eq_some_iff.mpr rfl] at hsome
  exact Option.some.inj hsome

/-- The state after a load is that after the one file was read. -/
theorem run_loadDefinition (disk : Disk (StateM σ)) (path : String) (s : σ) :
    (loadDefinition disk path).run s =
      match (disk.read path).run s with
      | (.error e, t) => (.error (.file path e), t)
      | (.ok content, t) =>
        match String.fromUTF8? content with
        | none => (.error (.file path .invalidText), t)
        | some text => ((readDefinition text).mapError (.definition text), t) := by
  unfold loadDefinition
  cases hread : (disk.read path).run s with
  | mk answer t =>
    rw [run_bind_of_run_eq hread]
    cases answer with
    | error e => rfl
    | ok content =>
      dsimp only
      cases String.fromUTF8? content <;> rfl

/-- The stages after the arguments were counted, each on the result of the one before. -/
theorem run_convertAndRender (disk : Disk (StateM σ)) (path : String)
    (base format : Option String) (s : σ) :
    (convertAndRender disk path base format).run s =
      match (format.map OutputFormat.parse).getD (.ok .default) with
      | .error e => (.error (.render e), s)
      | .ok format =>
        match (loadDefinition disk path).run s with
        | (.error e, t) => (.error (.load e), t)
        | (.ok machine, t) =>
          match machine.convert with
          | .error e => (.error (.conversion e), t)
          | .ok converted =>
            let call : RenderCall :=
              ⟨{}, converted.diagram, base.getD converted.diagram.name, format⟩
            match call.run disk t with
            | (.error e, u) => (.error (.render e), u)
            | (.ok written, u) => (.ok (savedLine converted.kind written), u) := by
  unfold convertAndRender RenderCall.run
  cases (format.map OutputFormat.parse).getD (.ok .default) with
  | error e => rfl
  | ok format =>
    dsimp only
    cases hload : (loadDefinition disk path).run s with
    | mk loaded t =>
      rw [run_bind_of_run_eq hload]
      cases loaded with
      | error e => rfl
      | ok machine =>
        dsimp only
        cases machine.convert with
        | error e => rfl
        | ok converted =>
          dsimp only
          cases hrender : (Renderer.render disk {} converted.diagram
            (base.getD converted.diagram.name) format).run t with
          | mk result u =>
            rw [run_bind_of_run_eq hrender]
            cases result <;> rfl

/-- The base name if none is given: the kind of the machine that is drawn. -/
def Machine.defaultBase : Machine → String
  | mealy _ => "moore_machine"
  | moore _ => "mealy_machine"

theorem Machine.name_diagram_of_convert {m n : Machine} (h : m.convert = .ok n) :
    n.diagram.name = m.defaultBase := by
  cases m with
  | mealy m =>
    change m.toMoore.map moore = .ok n at h
    cases hm : m.toMoore with
    | error e =>
      rw [hm] at h
      cases h
    | ok result =>
      rw [hm] at h
      cases h
      exact Diagram.name_replay _ _
  | moore m =>
    change m.toMealy.map mealy = .ok n at h
    cases hm : m.toMealy with
    | error e =>
      rw [hm] at h
      cases h
    | ok result =>
      rw [hm] at h
      cases h
      exact Diagram.name_replay _ _

/-! ## Formats by their names -/

/-- The names of the formats, in small letters. -/
def formatNames : List (String × OutputFormat) :=
  [("png", .png), ("svg", .svg), ("dot", .dot), ("gv", .dot), ("json", .json),
    ("graphml", .graphMl)]

theorem ofName?_eq_some_iff {name : String} {format : OutputFormat} :
    OutputFormat.ofName? name = some format ↔
      (name.map Char.toLower, format) ∈ formatNames := by
  unfold OutputFormat.ofName? formatNames
  generalize name.map Char.toLower = lower
  split <;> cases format <;> simp_all

theorem parse_eq_ok_iff {name : String} {format : OutputFormat} :
    OutputFormat.parse name = .ok format ↔ (name.map Char.toLower, format) ∈ formatNames := by
  rw [← ofName?_eq_some_iff, OutputFormat.parse]
  cases OutputFormat.ofName? name <;> simp

theorem parse_eq_error {name : String} {e : RenderError}
    (h : OutputFormat.parse name = .error e) : e = .unknownFormat name := by
  unfold OutputFormat.parse at h
  split at h
  · cases h
  · cases h
    rfl

/-! ## Stages -/

/-- The stages of the command. -/
inductive Stage where
  | arguments
  | format
  | load
  | conversion
  | render
  deriving DecidableEq, Repr

/-- The place of a stage in the order. -/
def Stage.number : Stage → Nat
  | arguments => 0
  | format => 1
  | load => 2
  | conversion => 3
  | render => 4

theorem Stage.number_injective : Function.Injective Stage.number := by
  intro a b h
  cases a <;> cases b <;> first | rfl | cases h

/-- The command with its arguments, the name under which it is called first, and the state that
it finds. -/
structure CommandCall (σ : Type) where
  arguments : List String
  disk : Disk (StateM σ)
  wording : JsonWording
  before : σ

namespace CommandCall

section Stages

variable (c : CommandCall σ)

/-- The result, and the state afterwards. -/
def run : CommandResult × σ := (command c.disk c.wording c.arguments).run c.before

/-- Reading the file that the first argument names. -/
def Reads (path : String) (answer : Except FileError ByteArray) (t : σ) : Prop :=
  c.arguments[1]? = some path ∧ (c.disk.read path).run c.before = (answer, t)

/-- The file that the first argument names holds a text that defines a machine. -/
def Loads (machine : Machine) (t : σ) : Prop :=
  ∃ path text, c.Reads path (.ok text.toUTF8) t ∧ readDefinition text = .ok machine

/-- The format that the third argument names, or an image if there is none. -/
def AsksFor (format : OutputFormat) : Prop :=
  c.arguments[3]? = none ∧ format = .png ∨
    ∃ name, c.arguments[3]? = some name ∧ (name.map Char.toLower, format) ∈ formatNames

/-- The base name, which depends on the kind of the machine only if none is given. -/
def base (machine : Machine) : String := c.arguments[2]?.getD machine.defaultBase

/-- The file for the diagram, below the working directory unless its base name is a path from
the root on. -/
def file (machine : Machine) (ending : String) : String :=
  (if (c.base machine).toList.head? = some '/' then "" else "./") ++ c.base machine ++ "." ++
    ending

/-- How the diagram of the converted machine is put into its file. -/
def rendering (machine converted : Machine) (format : OutputFormat) : RenderCall :=
  ⟨{}, converted.diagram, c.base machine, format⟩

/-- A stage fails, and this is reported of it. -/
inductive Fails : Stage → String → Prop where
  | arguments (h : c.arguments.length < 2 ∨ 4 < c.arguments.length) :
      Fails .arguments (usage (programName c.arguments))
  | format {name : String} (hname : c.arguments[3]? = some name)
      (h : ∀ format, (name.map Char.toLower, format) ∉ formatNames) :
      Fails .format (errorLine (RenderError.unknownFormat name).message)
  | unreadable {path : String} {e : FileError} {t : σ} (h : c.Reads path (.error e) t) :
      Fails .load (errorLine (LoadError.message c.wording (.file path e)))
  | unencoded {path : String} {content : ByteArray} {t : σ} (hread : c.Reads path (.ok content) t)
      (h : ∀ text : String, content ≠ text.toUTF8) :
      Fails .load (errorLine (LoadError.message c.wording (.file path .invalidText)))
  | undefined {path text : String} {fault : Json.Fault} {t : σ}
      (hread : c.Reads path (.ok text.toUTF8) t) (h : readDefinition text = .error fault) :
      Fails .load (errorLine (LoadError.message c.wording (.definition text fault)))
  | conversion {machine : Machine} {e : MachineError} {t : σ} (hload : c.Loads machine t)
      (h : machine.convert = .error e) : Fails .conversion (errorLine e.message)
  | render {machine converted : Machine} {format : OutputFormat} {e : RenderError} {t u : σ}
      (hformat : c.AsksFor format) (hload : c.Loads machine t)
      (hconvert : machine.convert = .ok converted)
      (h : (c.rendering machine converted format).Ends c.disk t (.error e) u) :
      Fails .render (errorLine e.message)

/-- A stage does not fail. -/
def Passes (stage : Stage) : Prop := ∀ report, ¬ c.Fails stage report

/-- No stage before this one fails. -/
def PassesBefore (stage : Stage) : Prop :=
  ∀ earlier : Stage, earlier.number < stage.number → c.Passes earlier

/-- The stage fails with the report, and no stage before it fails. -/
def FailsFirst (stage : Stage) (report : String) : Prop :=
  c.Fails stage report ∧ c.PassesBefore stage

/-- The command ends as it does when the report is all that comes of it. -/
def Aborts (v : FileView σ) (report : String) : Prop :=
  c.run.1 = ⟨1, "", report⟩ ∧ v.Same c.before c.run.2

/-- The diagram of the machine of the other kind is in its file. -/
structure Delivered (v : FileView σ) (machine converted : Machine) (format : OutputFormat) :
    Prop where
  loaded : ∃ t, c.Loads machine t
  convert_eq : machine.convert = .ok converted
  asked : c.AsksFor format
  result : c.run.1 = ⟨0, savedLine converted.kind (c.file machine format.extension), ""⟩
  /-- The file of a text format holds the text of the diagram in it, and all other files are
  as they were. -/
  text : ∀ ending text, (format, ending, text) ∈ converted.diagram.texts →
    ∃ f, v.file c.before (c.file machine ending) = some f ∧
      v.Sets c.before c.run.2 f (some text.toUTF8)
  /-- For an image nothing changes but by the layout program. -/
  image : format.needsLayout = true → v.Same c.before c.run.2

end Stages

variable {c : CommandCall σ}

/-! ### What a stage finds -/

theorem Reads.unique {path path' : String} {answer answer' : Except FileError ByteArray} {t t' : σ}
    (h : c.Reads path answer t) (h' : c.Reads path' answer' t') :
    path' = path ∧ answer' = answer ∧ t' = t := by
  obtain ⟨hpath, hread⟩ := h
  obtain ⟨hpath', hread'⟩ := h'
  rw [hpath] at hpath'
  cases hpath'
  rw [hread] at hread'
  cases hread'
  exact ⟨rfl, rfl, rfl⟩

theorem Loads.unique {machine machine' : Machine} {t t' : σ} (h : c.Loads machine t)
    (h' : c.Loads machine' t') : machine' = machine ∧ t' = t := by
  obtain ⟨path, text, hread, htext⟩ := h
  obtain ⟨path', text', hread', htext'⟩ := h'
  obtain ⟨-, hcontent, rfl⟩ := hread.unique hread'
  obtain rfl := toUTF8_injective (Except.ok.inj hcontent)
  rw [htext] at htext'
  exact ⟨(Except.ok.inj htext').symm, rfl⟩

/-- A load whose file is known ends in one of four ways. -/
theorem loads_cases {path : String} (hpath : c.arguments[1]? = some path) :
    (∃ e t, (loadDefinition c.disk path).run c.before = (.error e, t) ∧
        c.Fails .load (errorLine (e.message c.wording)) ∧
        t = ((c.disk.read path).run c.before).2) ∨
      ∃ machine t, (loadDefinition c.disk path).run c.before = (.ok machine, t) ∧
        c.Loads machine t ∧ t = ((c.disk.read path).run c.before).2 := by
  rw [run_loadDefinition]
  cases hread : (c.disk.read path).run c.before with
  | mk answer t =>
    cases answer with
    | error e => exact Or.inl ⟨_, t, rfl, .unreadable ⟨hpath, hread⟩, rfl⟩
    | ok content =>
      dsimp only
      cases htext : String.fromUTF8? content with
      | none =>
        refine Or.inl ⟨_, t, rfl, .unencoded ⟨hpath, hread⟩ fun text hcontent => ?_, rfl⟩
        rw [fromUTF8?_eq_some_iff.mpr hcontent] at htext
        cases htext
      | some text =>
        obtain rfl := fromUTF8?_eq_some_iff.mp htext
        dsimp only
        cases hdefinition : readDefinition text with
        | error fault => exact Or.inl ⟨_, t, rfl, .undefined ⟨hpath, hread⟩ hdefinition, rfl⟩
        | ok machine =>
          exact Or.inr ⟨machine, t, rfl, ⟨path, text, ⟨hpath, hread⟩, hdefinition⟩, rfl⟩

theorem AsksFor.parse {format : OutputFormat} (h : c.AsksFor format) :
    (c.arguments[3]?.map OutputFormat.parse).getD (.ok .default) = .ok format := by
  rcases h with ⟨hnone, rfl⟩ | ⟨name, hname, hformat⟩
  · rw [hnone]
    rfl
  · rw [hname]
    exact parse_eq_ok_iff.mpr hformat

theorem AsksFor.unique {format format' : OutputFormat} (h : c.AsksFor format)
    (h' : c.AsksFor format') : format' = format :=
  Except.ok.inj (h'.parse.symm.trans h.parse)

/-- The third argument names a format, or the stage fails. -/
theorem asksFor_cases (c : CommandCall σ) :
    (∃ e : RenderError, (c.arguments[3]?.map OutputFormat.parse).getD (.ok .default) = .error e ∧
        c.Fails .format (errorLine e.message)) ∨ ∃ format, c.AsksFor format := by
  cases hname : c.arguments[3]? with
  | none => exact Or.inr ⟨.png, Or.inl ⟨hname, rfl⟩⟩
  | some name =>
    rw [Option.map_some, Option.getD_some]
    cases hparse : OutputFormat.parse name with
    | error e =>
      obtain rfl := parse_eq_error hparse
      refine Or.inl ⟨_, rfl, .format hname fun format hmem => ?_⟩
      rw [parse_eq_ok_iff.mpr hmem] at hparse
      cases hparse
    | ok format => exact Or.inr ⟨format, Or.inr ⟨name, hname, parse_eq_ok_iff.mp hparse⟩⟩

/-- The file of the rendering, for any ending. -/
theorem pathOf_rendering (machine converted : Machine) (format : OutputFormat) (ending : String) :
    (c.rendering machine converted format).pathOf ending = c.file machine ending := by
  have hdirectory : slashed "." = "./" := by decide
  unfold RenderCall.pathOf file rendering
  rw [hdirectory]
  rfl

/-! ### One stage -/

/-- What a stage reports depends on nothing but the call. -/
theorem Fails.unique {stage : Stage} {report other : String} (h : c.Fails stage report)
    (h' : c.Fails stage other) : report = other := by
  cases h with
  | arguments _ =>
    cases h' with
    | arguments _ => rfl
  | format hname _ =>
    cases h' with
    | format hname' _ =>
      rw [hname] at hname'
      cases hname'
      rfl
  | unreadable h =>
    cases h' with
    | unreadable h' =>
      obtain ⟨rfl, hanswer, -⟩ := h.unique h'
      cases hanswer
      rfl
    | unencoded h' _ => cases (h.unique h').2.1
    | undefined h' _ => cases (h.unique h').2.1
  | unencoded h htext =>
    cases h' with
    | unreadable h' => cases (h.unique h').2.1
    | unencoded h' _ =>
      obtain ⟨rfl, -, -⟩ := h.unique h'
      rfl
    | undefined h' _ => exact absurd (Except.ok.inj (h.unique h').2.1).symm (htext _)
  | undefined h hfault =>
    cases h' with
    | unreadable h' => cases (h.unique h').2.1
    | unencoded h' htext => exact absurd (Except.ok.inj (h.unique h').2.1) (htext _)
    | undefined h' hfault' =>
      obtain ⟨-, hcontent, -⟩ := h.unique h'
      obtain rfl := toUTF8_injective (Except.ok.inj hcontent)
      rw [hfault] at hfault'
      cases hfault'
      rfl
  | conversion hload hconvert =>
    cases h' with
    | conversion hload' hconvert' =>
      obtain ⟨rfl, -⟩ := hload.unique hload'
      rw [hconvert] at hconvert'
      cases hconvert'
      rfl
  | render hformat hload hconvert hends =>
    cases h' with
    | render hformat' hload' hconvert' hends' =>
      obtain ⟨rfl, rfl⟩ := hload.unique hload'
      obtain rfl := hformat.unique hformat'
      rw [hconvert] at hconvert'
      cases hconvert'
      have hanswer := hends.run_eq.symm.trans hends'.run_eq
      cases hanswer
      rfl

theorem passes_arguments (h : ¬ (c.arguments.length < 2 ∨ 4 < c.arguments.length)) :
    c.Passes .arguments := by
  intro report hfails
  cases hfails with
  | arguments hcount => exact h hcount

theorem AsksFor.passes {format : OutputFormat} (h : c.AsksFor format) : c.Passes .format := by
  intro report hfails
  cases hfails with
  | format hname hunknown =>
    rcases h with ⟨hnone, -⟩ | ⟨name, hname', hformat⟩
    · rw [hname] at hnone
      cases hnone
    · rw [hname] at hname'
      cases hname'
      exact hunknown format hformat

theorem Loads.passes {machine : Machine} {t : σ} (h : c.Loads machine t) : c.Passes .load := by
  obtain ⟨path, text, hread, hmachine⟩ := h
  intro report hfails
  cases hfails with
  | unreadable hread' => cases (hread.unique hread').2.1
  | unencoded hread' htext => exact htext text (Except.ok.inj (hread.unique hread').2.1)
  | undefined hread' hfault =>
    obtain ⟨-, hcontent, -⟩ := hread.unique hread'
    obtain rfl := toUTF8_injective (Except.ok.inj hcontent)
    rw [hmachine] at hfault
    cases hfault

theorem Loads.passes_conversion {machine converted : Machine} {t : σ} (h : c.Loads machine t)
    (hconvert : machine.convert = .ok converted) : c.Passes .conversion := by
  intro report hfails
  cases hfails with
  | conversion hload herror =>
    obtain ⟨rfl, -⟩ := h.unique hload
    rw [hconvert] at herror
    cases herror

theorem Loads.passes_render {machine converted : Machine} {format : OutputFormat} {t u : σ}
    {path : String} (h : c.Loads machine t) (hconvert : machine.convert = .ok converted)
    (hformat : c.AsksFor format)
    (hends : (c.rendering machine converted format).Ends c.disk t (.ok path) u) :
    c.Passes .render := by
  intro report hfails
  cases hfails with
  | render hformat' hload hconvert' hends' =>
    obtain ⟨rfl, rfl⟩ := h.unique hload
    obtain rfl := hformat.unique hformat'
    rw [hconvert] at hconvert'
    cases hconvert'
    cases hends.run_eq.symm.trans hends'.run_eq

/-! ### The stages of a call -/

theorem run_of_miscounted (h : c.arguments.length < 2 ∨ 4 < c.arguments.length) :
    c.run = (⟨1, "", usage (programName c.arguments)⟩, c.before) := by
  obtain ⟨arguments, disk, wording, s⟩ := c
  match arguments with
  | [] => rfl
  | [program] => rfl
  | program :: path :: rest =>
    have hrest : ¬ rest.length ≤ 2 := by
      simp only [List.length_cons] at h
      omega
    unfold run command
    dsimp only
    rw [if_neg hrest]
    rfl

/-- The stages from the format on, for the arguments that can be counted. -/
theorem run_of_counted {path : String} (hpath : c.arguments[1]? = some path)
    (hcount : c.arguments.length ≤ 4) :
    c.run =
      match (c.arguments[3]?.map OutputFormat.parse).getD (.ok .default) with
      | .error e => (⟨1, "", errorLine e.message⟩, c.before)
      | .ok format =>
        match (loadDefinition c.disk path).run c.before with
        | (.error e, t) => (⟨1, "", errorLine (e.message c.wording)⟩, t)
        | (.ok machine, t) =>
          match machine.convert with
          | .error e => (⟨1, "", errorLine e.message⟩, t)
          | .ok converted =>
            let drawn := (c.rendering machine converted format).run c.disk t
            (drawnResult converted.kind drawn.1, drawn.2) := by
  obtain ⟨arguments, disk, wording, s⟩ := c
  match arguments with
  | [] => cases hpath
  | [program] => cases hpath
  | program :: path' :: rest =>
    cases hpath
    have hrest : rest.length ≤ 2 := by
      simp only [List.length_cons] at hcount
      omega
    have hformat : (program :: path :: rest)[3]? = rest[1]? := rfl
    unfold run command
    dsimp only
    rw [if_pos hrest, StateT.run_bind, run_convertAndRender, hformat]
    cases (rest[1]?.map OutputFormat.parse).getD (.ok .default) with
    | error e => rfl
    | ok format =>
      dsimp only
      cases (loadDefinition disk path).run s with
      | mk loaded t =>
        cases loaded with
        | error e => rfl
        | ok machine =>
          dsimp only
          cases hconvert : machine.convert with
          | error e => rfl
          | ok converted =>
            dsimp only
            rw [Machine.name_diagram_of_convert hconvert]
            have hrendering : (CommandCall.mk (program :: path :: rest) disk wording s).rendering
                machine converted format =
              ⟨{}, converted.diagram, rest[0]?.getD machine.defaultBase, format⟩ := rfl
            rw [hrendering]
            cases RenderCall.run
              ⟨{}, converted.diagram, rest[0]?.getD machine.defaultBase, format⟩ disk t with
            | mk result u => cases result <;> rfl

/-- With a format and a machine that can be converted, the command ends as its render does. -/
theorem Loads.run_eq {machine converted : Machine} {format : OutputFormat}
    {answer : Except RenderError String} {t u : σ} (hload : c.Loads machine t)
    (hcount : ¬ (c.arguments.length < 2 ∨ 4 < c.arguments.length)) (hformat : c.AsksFor format)
    (hconvert : machine.convert = .ok converted)
    (hends : (c.rendering machine converted format).Ends c.disk t answer u) :
    c.run = (drawnResult converted.kind answer, u) := by
  obtain ⟨path, text, ⟨hpath, hread⟩, hmachine⟩ := id hload
  have hloaded : (loadDefinition c.disk path).run c.before = (.ok machine, t) := by
    rw [run_loadDefinition, hread]
    dsimp only
    rw [fromUTF8?_eq_some_iff.mpr rfl]
    dsimp only
    rw [hmachine]
    rfl
  have hrun := run_of_counted hpath (Nat.le_of_not_lt (not_or.mp hcount).2)
  simp only [hformat.parse, hloaded, hconvert, hends.run_eq] at hrun
  exact hrun

/-- When the render succeeds, so does the command. -/
theorem delivered_of_ends {v : FileView σ} (hlawful : c.disk.Lawful v) {machine converted : Machine}
    {format : OutputFormat} {path : String} {t u : σ} (hload : c.Loads machine t)
    (hsame : v.Same c.before t) (hconvert : machine.convert = .ok converted)
    (hformat : c.AsksFor format)
    (hends : (c.rendering machine converted format).Ends c.disk t (.ok path) u)
    (hrun : c.run = (⟨0, savedLine converted.kind path, ""⟩, u)) :
    c.Delivered v machine converted format := by
  have hpromised := (c.rendering machine converted format).promised_step hlawful t
  rw [RenderCall.step_eq hends] at hpromised
  have hpath : path = c.file machine format.extension := by
    rw [(hends.cases_ok hlawful).1, RenderCall.target, pathOf_rendering]
    rfl
  refine ⟨⟨t, hload⟩, hconvert, hformat, ?_, fun ending text htext => ?_, fun hlayout => ?_⟩
  · rw [hrun, hpath]
  · obtain ⟨hending, f, hfile, hsets⟩ := hpromised.text path ending text rfl htext
    change path = (c.rendering machine converted format).pathOf ending at hending
    rw [pathOf_rendering] at hending
    rw [hrun, ← hsame.file, ← hending]
    exact ⟨f, hfile, hsame.trans_sets hsets⟩
  · rw [hrun]
    exact hsame.trans (hpromised.unkept hlayout rfl)

/-! ### The first stage that fails -/

theorem passesBefore_arguments : c.PassesBefore .arguments :=
  fun _ h => absurd h (Nat.not_lt_zero _)

theorem PassesBefore.next {stage next : Stage} (hnumber : next.number = stage.number + 1)
    (hbefore : c.PassesBefore stage) (hpasses : c.Passes stage) : c.PassesBefore next := by
  intro earlier hearlier
  rw [hnumber] at hearlier
  rcases Nat.lt_or_eq_of_le (Nat.le_of_lt_succ hearlier) with hlt | heq
  · exact hbefore earlier hlt
  · rw [Stage.number_injective heq]
    exact hpasses

theorem passesBefore_format (h : ¬ (c.arguments.length < 2 ∨ 4 < c.arguments.length)) :
    c.PassesBefore .format :=
  passesBefore_arguments.next rfl (passes_arguments h)

theorem AsksFor.passesBefore {format : OutputFormat} (hformat : c.AsksFor format)
    (h : ¬ (c.arguments.length < 2 ∨ 4 < c.arguments.length)) : c.PassesBefore .load :=
  (passesBefore_format h).next rfl hformat.passes

theorem FailsFirst.unique {stage other : Stage} {report report' : String}
    (h : c.FailsFirst stage report) (h' : c.FailsFirst other report') : report = report' := by
  have hle : stage.number ≤ other.number := by
    by_contra hlt
    exact h.2 other (Nat.lt_of_not_le hlt) report' h'.1
  have hge : other.number ≤ stage.number := by
    by_contra hlt
    exact h'.2 stage (Nat.lt_of_not_le hlt) report h.1
  have heq : stage = other := Stage.number_injective (Nat.le_antisymm hle hge)
  subst heq
  exact h.1.unique h'.1

/-- Either there is a first stage that fails, and its report is all that comes of the command,
or all stages pass and the diagram is delivered. -/
theorem run_cases (c : CommandCall σ) {v : FileView σ} (hlawful : c.disk.Lawful v) :
    (∃ stage report, c.FailsFirst stage report ∧ c.Aborts v report) ∨
      (∀ stage, c.Passes stage) ∧
        ∃ machine converted format, c.Delivered v machine converted format := by
  by_cases hmiscounted : c.arguments.length < 2 ∨ 4 < c.arguments.length
  · refine Or.inl ⟨.arguments, _, ⟨.arguments hmiscounted, passesBefore_arguments⟩, ?_⟩
    rw [Aborts, run_of_miscounted hmiscounted]
    exact ⟨rfl, .refl _⟩
  obtain ⟨hlow, hcount⟩ := not_or.mp hmiscounted
  rw [Nat.not_lt] at hlow hcount
  have hpath : c.arguments[1]? = some c.arguments[1] := List.getElem?_eq_getElem hlow
  have hrun := run_of_counted hpath hcount
  have hread := hlawful.read_same c.arguments[1] c.before
  obtain ⟨e, hparse, hfails⟩ | ⟨format, hformat⟩ := c.asksFor_cases
  · rw [hparse] at hrun
    refine Or.inl ⟨.format, _, ⟨hfails, passesBefore_format hmiscounted⟩, ?_⟩
    rw [Aborts, hrun]
    exact ⟨rfl, .refl _⟩
  have hbefore := hformat.passesBefore hmiscounted
  obtain ⟨e, t, hloaded, hfails, rfl⟩ | ⟨machine, t, hloaded, hload, ht⟩ := loads_cases hpath
  · simp only [hformat.parse, hloaded] at hrun
    refine Or.inl ⟨.load, _, ⟨hfails, hbefore⟩, ?_⟩
    rw [Aborts, hrun]
    exact ⟨rfl, hread⟩
  rw [← ht] at hread
  have hbefore : c.PassesBefore .conversion := hbefore.next rfl hload.passes
  cases hconvert : machine.convert with
  | error e =>
    simp only [hformat.parse, hloaded, hconvert] at hrun
    refine Or.inl ⟨.conversion, _, ⟨.conversion hload hconvert, hbefore⟩, ?_⟩
    rw [Aborts, hrun]
    exact ⟨rfl, hread⟩
  | ok converted =>
    have hbefore : c.PassesBefore .render :=
      hbefore.next rfl (hload.passes_conversion hconvert)
    obtain ⟨answer, u, hends⟩ := (c.rendering machine converted format).exists_ends c.disk t
    have hrun := hload.run_eq hmiscounted hformat hconvert hends
    cases answer with
    | error e =>
      refine Or.inl ⟨.render, _, ⟨.render hformat hload hconvert hends, hbefore⟩, ?_⟩
      rw [Aborts, hrun]
      exact ⟨rfl, hread.trans (hends.same hlawful)⟩
    | ok path =>
      refine Or.inr ⟨fun stage => ?_, machine, converted, format,
        delivered_of_ends hlawful hload hread hconvert hformat hends hrun⟩
      cases stage with
      | arguments => exact passes_arguments hmiscounted
      | format => exact hformat.passes
      | load => exact hload.passes
      | conversion => exact hload.passes_conversion hconvert
      | render => exact hload.passes_render hconvert hformat hends

/-- A lamp with a button. -/
def lamp : Moore :=
  (((Moore.new "off").withOutput "off" "dark").withOutput "on" "light"
    |>.withTransition "off" "press" "on").withTransition "on" "press" "off"

/-- The lamp as a machine of the other kind. -/
def lampMealy : Mealy where
  states := ["off", "on"]
  inputSymbols := ["press"]
  transitions := .ofList [("off", .ofList [("press", ⟨"on", "light"⟩)]),
    ("on", .ofList [("press", ⟨"off", "dark"⟩)])]
  initialState := "off"
  initialOutput := some "dark"
  stateOutputs := .empty

/-- A lamp whose light is not known. -/
def dimLamp : Moore := (Moore.new "off").withTransition "off" "press" "off"

/-- A call with no layout program installed, and with a text in the file of a lamp. -/
def lampCall (text : String) (arguments : List String) : CommandCall Store where
  arguments := "mealy-moore" :: arguments
  disk := Store.disk (fun _ _ _ => .notFound) ["a1"]
  wording := ⟨fun _ => "EOF while parsing a list at line 1 column 1", fun _ => ""⟩
  before := (Store.ofList [("tmp/notes", .empty)]).put ["tmp", "work", "lamp.json"] text.toUTF8

section Lamp

variable {text : String} {rest : List String}

theorem lawful_lampCall : (lampCall text rest).disk.Lawful Store.view := Store.lawful_disk _ _

theorem reads_lampCall : (lampCall text ("lamp.json" :: rest)).Reads "lamp.json"
    (.ok text.toUTF8) (lampCall text rest).before := by
  have hroom : (Store.ofList [("tmp/notes", .empty)]).HasRoom ["tmp", "work", "lamp.json"] := by
    unfold Store.HasRoom
    decide +kernel
  exact ⟨rfl, Prod.ext (Store.read_put hroom (by decide +kernel)) rfl⟩

theorem loads_lampCall {m : Machine} : (lampCall m.definition ("lamp.json" :: rest)).Loads m
    (lampCall m.definition rest).before :=
  ⟨"lamp.json", m.definition, reads_lampCall, m.read_definition⟩

end Lamp

/-- The call to draw the lamp under the base name `out`. -/
def drawCall (format : String) : CommandCall Store :=
  lampCall (Machine.moore lamp).definition ["lamp.json", "out", format]

theorem loads_drawCall (format : String) :
    (drawCall format).Loads (.moore lamp) (drawCall format).before :=
  loads_lampCall

theorem convert_lamp : (Machine.moore lamp).convert = .ok (.mealy lampMealy) := by decide +kernel

end CommandCall

end Transducers
