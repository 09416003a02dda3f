import Transducers.Diagram.Export
import Transducers.Proofs.JsonText

/-!
# Exports and traces are read back

The readers of records give back what the printers write, however it is spelled: an
export with one value a line, a trace without any space.

* `reads_readText`, `reads_readDirection`, `reads_readList`: the values of fields;
* `passes_of`: a field that was not met yet;
* `reads_record`: a record whose fields are all met;
* `reads_export`, `reads_trace`: exports and traces;
* `export_trace_text`: their texts are read back, and no two exports share one.
-/

namespace Transducers

open Json

namespace Json

/-! ## Values of fields -/

theorem reads_readText (t : String) : Reads readText (.text t) t := by
  rintro _ ⟨⟩ gap hgap rest
  obtain ⟨hlt, hhead⟩ := readHead_text hgap t rest
  refine ⟨hlt, ?_⟩
  simp only [readText, hhead, bind, Except.bind]
  rfl

theorem reads_readOptionalText (name : Option String) :
    Reads readOptionalText (optionalJson name) name := by
  cases name with
  | none =>
    rintro _ ⟨⟩ gap hgap rest
    obtain ⟨hlt, hhead⟩ := readHead_null hgap rest
    refine ⟨hlt, ?_⟩
    simp only [readOptionalText, List.cons_append, List.nil_append, hhead, bind, Except.bind]
    rfl
  | some t =>
    rintro _ ⟨⟩ gap hgap rest
    obtain ⟨hlt, hhead⟩ := readHead_text hgap t rest
    refine ⟨hlt, ?_⟩
    simp only [readOptionalText, hhead, bind, Except.bind]
    rfl

theorem readQuoted_text {gap : List Char} (hgap : Blanks gap) (t : String) (rest : List Char) :
    Takes readQuoted (gap ++ (stringChars t ++ rest)) t rest := by
  have hread := readString_stringChars t rest
  rw [stringChars_append] at hread ⊢
  obtain ⟨hlt, hread⟩ := hread
  refine ⟨by simp only [List.length_append] at hlt ⊢; omega, ?_⟩
  rw [readQuoted, skipBlanks_gap hgap (by decide)]
  simp only [hread, bind, Except.bind]
  rfl

theorem reads_readDirection (d : Direction) : Reads readDirection (.text d.name) d := by
  rintro _ ⟨⟩ gap hgap rest
  have hread := readQuoted_text hgap d.name rest
  rw [stringChars_append] at hread ⊢
  obtain ⟨hlt, hread⟩ := hread
  refine ⟨hlt, ?_⟩
  rw [readDirection, skipBlanks_gap hgap (by decide)]
  simp only [readDirectionName, hread, bind, Except.bind, Direction.ofName?_name]
  rfl

theorem reads_readList {α : Type} {item : Reader α} {print : α → Value} {xs : List α}
    (h : ∀ x ∈ xs, Reads item (print x) x) : Reads (readList item) (.list (xs.map print)) xs := by
  intro s hs gap hgap rest
  cases hs with
  | @list gaps _ spell hspell =>
    rw [List.forall_mem_map] at hspell
    rw [List.map_map, List.cons_append, List.append_assoc, List.singleton_append]
    obtain ⟨h₁, hhead⟩ := readHead_list hgap (gaps.between (xs.map (spell ∘ print)) ++ ']' :: rest)
    obtain ⟨h₂, helements⟩ : Takes (elements item true)
        (gaps.between (xs.map (spell ∘ print)) ++ ']' :: rest) xs rest :=
      elements_between gaps (fun x hx => (hspell x hx).begins)
        (fun x hx => (h x hx).takes (hspell x hx)) rest
    refine ⟨length_lt_trans h₁ h₂, ?_⟩
    simp only [readList, hhead, helements, bind, Except.bind]
    rfl

/-! ## Records -/

section Records

variable {σ α β : Type} {record : Record σ α}

theorem passes_of {known last : σ} {name : String} {value : Reader β} {get : σ → Option β}
    {set : σ → β → σ} {v : Value} {x : β} {es : List (String × Value)}
    (hfield : record.fields.find? (·.name = name) = some (.of name value get set))
    (hunknown : get known = none) (hvalue : Reads value v x)
    (hothers : Passes record.member (set known x) es last) :
    Passes record.member known ((name, v) :: es) last := by
  have haccepted : record.member known name =
      .ok ((Field.of name value get set).read known) := by
    simp [Record.member, hfield, Field.of, hunknown]
  refine .cons haccepted (fun s hs gap hgap rest => ?_) hothers
  obtain ⟨hlt, hread⟩ := hvalue s hs gap hgap rest
  refine ⟨hlt, ?_⟩
  simp only [Field.of, hread, bind, Except.bind]
  rfl

/-- **A record** is read from an object whose members lead to all that it needs. -/
theorem reads_record {last : σ} {es : List (String × Value)} {x : α}
    (h : Passes record.member record.start es last) (hfinish : record.finish last = .ok x) :
    Reads record.read (.object es) x := by
  have hok : (record.finish last).mapError Fault.mismatch = .ok x := by
    rw [hfinish]
    rfl
  intro s hs gap hgap rest
  cases hs with
  | @object gaps _ spell hspell =>
    obtain ⟨h₁, hfold⟩ := h.foldMembers gaps hspell rest
    obtain ⟨h₂, hhead⟩ := readHead_object hgap
      (gaps.between (es.map (gaps.member spell)) ++ '\x7d' :: rest)
    rw [List.cons_append, List.append_assoc, List.singleton_append]
    refine ⟨length_lt_trans h₂ h₁, ?_⟩
    simp only [Record.read, hhead, hfold, hok, bind, Except.bind]
    rfl

end Records

end Json

/-! ## Traces -/

theorem reads_step (s : Step) : Reads Step.record.read s.json s :=
  reads_record
    (passes_of rfl rfl (reads_readText s.state) <|
      passes_of rfl rfl (reads_readText s.symbol) <|
      passes_of rfl rfl (reads_readText s.next) <|
      passes_of rfl rfl (reads_readText s.output) .nil)
    rfl

theorem reads_trace (t : Trace) : Reads Trace.record.read t.json t :=
  reads_record
    (passes_of rfl rfl (reads_readText t.initialState) <|
      passes_of rfl rfl (reads_readOptionalText t.initialOutput) <|
      passes_of rfl rfl (reads_readList fun s _ => reads_step s) .nil)
    rfl

/-! ## Exports -/

theorem reads_node (n : Node) : Reads Node.record.read n.json n :=
  reads_record
    (passes_of rfl rfl (reads_readText n.id) <| passes_of rfl rfl (reads_readText n.label) .nil)
    rfl

theorem reads_edge (e : Edge) : Reads Edge.record.read e.json e :=
  reads_record
    (passes_of rfl rfl (reads_readText e.source) <|
      passes_of rfl rfl (reads_readText e.target) <|
      passes_of rfl rfl (reads_readText e.label) .nil)
    rfl

theorem reads_export (x : Export) : Reads Export.record.read x.json x :=
  reads_record
    (passes_of rfl rfl (reads_readText x.name) <|
      passes_of rfl rfl (reads_readDirection x.rank) <|
      passes_of rfl rfl (reads_readOptionalText x.initial) <|
      passes_of rfl rfl (reads_readList fun n _ => reads_node n) <|
      passes_of rfl rfl (reads_readList fun e _ => reads_edge e) .nil)
    rfl

/-! ## Texts -/

theorem fits_optionalJson (room : Nat) (name : Option String) : (optionalJson name).Fits room := by
  cases name with
  | none => exact .null
  | some t => exact .text t

/-- A list of records of which all members are texts. -/
theorem fits_list_records {α : Type} {print : α → Value} {room : Nat}
    (h : ∀ x, ∃ es, print x = .object es ∧ ∀ e ∈ es, ∃ t, e.2 = .text t) (xs : List α) :
    (Value.list (xs.map print)).Fits (room + 2) := by
  refine .list (List.forall_mem_map.mpr fun x _ => ?_)
  obtain ⟨es, hes, htexts⟩ := h x
  rw [hes]
  refine .object fun e he => ?_
  obtain ⟨t, ht⟩ := htexts e he
  rw [ht]
  exact .text t

theorem Trace.fits_json (t : Trace) : t.json.Fits 3 := by
  have hsteps : (Value.list (t.steps.map Step.json)).Fits 2 :=
    fits_list_records (fun s => ⟨_, rfl, by simp⟩) t.steps
  refine .object ?_
  simp only [List.forall_mem_cons]
  exact ⟨.text _, fits_optionalJson 2 _, hsteps, by simp⟩

theorem Export.fits_json (x : Export) : x.json.Fits 3 := by
  have hnodes : (Value.list (x.nodes.map Node.json)).Fits 2 :=
    fits_list_records (fun n => ⟨_, rfl, by simp⟩) x.nodes
  have hedges : (Value.list (x.edges.map Edge.json)).Fits 2 :=
    fits_list_records (fun e => ⟨_, rfl, by simp⟩) x.edges
  refine .object ?_
  simp only [List.forall_mem_cons]
  exact ⟨.text _, .text _, fits_optionalJson 2 _, hnodes, hedges, by simp⟩

theorem readExport_text (x : Export) : readExport x.text = .ok x := by
  refine readAll_of_reads (reads_export x) ?_
  rw [Export.text, Value.pretty, String.toList_ofList]
  exact spelled_prettyChars x.fits_json 0

theorem readTrace_text (t : Trace) : readTrace t.text = .ok t := by
  refine readAll_of_reads (reads_trace t) ?_
  rw [Trace.text, Value.compact, String.toList_ofList]
  exact spelled_compactChars t.fits_json

/-- **Exports and traces are read back.**  Whatever texts an export holds, and however many
nodes and edges, its text describes it; so exports have one text only if they are equal.
The text of a trace describes the trace, with the same outputs and the same final state. -/
theorem export_trace_text :
    (∀ x : Export, readExport x.text = .ok x) ∧
    (∀ x y : Export, x.text = y.text ↔ x = y) ∧
    ∀ t : Trace, readTrace t.text = .ok t ∧
      (readTrace t.text).map Trace.outputs = .ok t.outputs ∧
      (readTrace t.text).map Trace.finalState = .ok t.finalState := by
  refine ⟨readExport_text, fun x y => ⟨fun h => ?_, congrArg Export.text⟩, fun t => ?_⟩
  · have hread := readExport_text x
    rw [h, readExport_text y, Except.ok.injEq] at hread
    exact hread.symm
  · rw [readTrace_text t]
    exact ⟨rfl, rfl, rfl⟩

end Transducers
