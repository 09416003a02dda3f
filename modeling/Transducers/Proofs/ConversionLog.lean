import Transducers.Proofs.ConversionOutcomes
import Transducers.Proofs.MooreForm

/-!
# What a conversion reports

The log of a conversion to Moore goes in step with the Moore states.  Each is reported when it
is made, and one that is made for a state that nothing enters has a notice before its report.
So the whole log can be told from the list of pairs and their ids.

* `Mealy.unentered`: the declared states that nothing enters, the initial one apart;
* `Mealy.recordsOf`: the notice and the report for one Moore state;
* `Synthesis.Logged`: the log is what these say of all pairs, oldest first;
* `Logged.intern`, `Logged.noticed`: one request keeps it so, with and without a notice;
* `Logged.enter`, `Logged.begin`, `Logged.complete`: so do the phases;
* `conversionEvents_eq`: the log of a conversion that succeeds;
* `conversion_log`: its reports and its notices.
-/

namespace Transducers

/-- The state and the output that a notice names. -/
def ConversionEvent.notice? : ConversionEvent → Option (String × String)
  | synthesized _ _ _ => none
  | neverEntered state output => some (state, output)

namespace Mealy

instance (m : Mealy) (next : String) : Decidable (m.Enters next) :=
  decidable_of_iff _ mem_map_enteredPairs

/-- The declared states, each once, that are not initial and that no declared transition
enters. -/
def unentered (m : Mealy) : List String :=
  m.states.eraseDups.filter fun state => state ≠ m.initialState ∧ ¬ m.Enters state

/-- What is reported of a pair and its Moore state. -/
def recordsOf (m : Mealy) (e : (String × String) × String) : List ConversionEvent :=
  if e.1.1 ∈ m.unentered then [.neverEntered e.1.1 e.1.2, .synthesized e.2 e.1.1 e.1.2]
  else [.synthesized e.2 e.1.1 e.1.2]

theorem mem_unentered {m : Mealy} {state : String} :
    state ∈ m.unentered ↔ state ∈ m.states ∧ state ≠ m.initialState ∧ ¬ m.Enters state := by
  simp [unentered]

/-- If the initial state is mapped after the second phase, the declared states that are not are
those that nothing enters. -/
theorem mem_unentered_iff_notMem_begun {m : Mealy}
    (hi : m.initialState ∈ m.begunPairs.map Prod.fst) {state : String} (hs : state ∈ m.states) :
    state ∈ m.unentered ↔ state ∉ m.begunPairs.map Prod.fst := by
  rw [mem_unentered]
  constructor
  · rintro ⟨-, hne, hno⟩
    exact mt (begun_iff_of_ne hne).mp hno
  · intro hn
    have hne : state ≠ m.initialState := fun heq => hn (heq ▸ hi)
    exact ⟨hs, hne, mt (begun_iff_of_ne hne).mpr hn⟩

end Mealy

/-! ## The log goes in step with the pairs -/

namespace Synthesis

/-- The log is what is to be reported of the pairs, oldest first. -/
def Logged (m : Mealy) (k : Synthesis) : Prop :=
  k.events = k.pairs.entries.flatMap m.recordsOf

variable {m : Mealy}

theorem logged_empty : Logged m empty := rfl

/-- A request for a state that is entered or initial needs no notice. -/
theorem Logged.intern {k : Synthesis} (h : Logged m k) {state : String}
    (hs : state ∉ m.unentered) (output : String) : Logged m (k.intern state output) := by
  by_cases hp : (state, output) ∈ k.pairs.keys
  · rwa [intern_of_mem hp]
  · rw [Logged, entries_pairs_intern hp, List.flatMap_append, ← h, intern_of_new hp]
    simp [Mealy.recordsOf, hs]

/-- The first request for a state that nothing enters is noticed. -/
theorem Logged.noticed {k : Synthesis} (h : Logged m k) {state output : String}
    (hs : state ∈ m.unentered) (hp : (state, output) ∉ k.pairs.keys) :
    Logged m ((k.report (.neverEntered state output)).intern state output) := by
  have hp' : (state, output) ∉ (k.report (.neverEntered state output)).pairs.keys := hp
  rw [Logged, entries_pairs_intern hp', List.flatMap_append, intern_of_new hp']
  simp only [report, List.flatMap_singleton, Mealy.recordsOf, if_pos hs, List.append_assoc,
    List.singleton_append]
  rw [h]

/-! ## The phases -/

theorem Logged.enter {k k' : Synthesis} (h : Logged m k) {ps : List (String × String)}
    (hps : ∀ p ∈ ps, p ∈ m.declaredPairs) (hk : enter m k ps = .ok k') : Logged m k' := by
  induction ps generalizing k with
  | nil =>
    cases hk
    exact h
  | cons p ps ih =>
    obtain ⟨state, symbol⟩ := p
    rw [List.forall_mem_cons] at hps
    rw [Synthesis.enter] at hk
    cases ht : m.transition state symbol with
    | error e => simp [ht, abandon] at hk
    | ok t =>
      obtain ⟨hs, hx⟩ := Mealy.mem_declaredPairs.mp hps.1
      have henters : m.Enters t.next := ⟨state, hs, symbol, hx, t.output, ht⟩
      have hnext : t.next ∉ m.unentered := fun hmem => (Mealy.mem_unentered.mp hmem).2.2 henters
      simp only [ht] at hk
      exact ih (h.intern hnext t.output) hps.2 hk

theorem Logged.begin {k k' : Synthesis} {start : String} (h : Logged m k)
    (hk : begin m k = .ok (k', start)) : Logged m k' := by
  have hinitial : m.initialState ∉ m.unentered :=
    fun hmem => (Mealy.mem_unentered.mp hmem).2.1 rfl
  rcases begin_cases hk with rfl | ⟨output, rfl⟩
  · exact h
  · exact h.intern hinitial output

/-- The third phase.  A state that is still unmapped was mapped by neither of the first two, so
nothing enters it. -/
theorem Logged.complete {k k' : Synthesis} (h : Logged m k) (hk : k.Coherent)
    (hbegun : m.begunPairs.map Prod.fst ⊆ k.pairs.keys.map Prod.fst)
    (hi : m.initialState ∈ m.begunPairs.map Prod.fst) {states : List String}
    (hstates : ∀ s ∈ states, s ∈ m.states) (hdone : complete m k states = .ok k') :
    Logged m k' := by
  induction states generalizing k with
  | nil =>
    cases hdone
    exact h
  | cons s states ih =>
    rw [List.forall_mem_cons] at hstates
    rw [Synthesis.complete] at hdone
    by_cases hs : s ∈ k.pairs.keys.map Prod.fst
    · rw [if_pos (hk.contains_derived.mpr hs)] at hdone
      exact ih h hk hbegun hstates.2 hdone
    · have hnot : s ∉ m.begunPairs.map Prod.fst := fun hmem => hs (hbegun hmem)
      have hunentered : s ∈ m.unentered :=
        (Mealy.mem_unentered_iff_notMem_begun hi hstates.1).mpr hnot
      rw [if_neg fun hd => hs (hk.contains_derived.mp hd)] at hdone
      cases ho : m.outputHint s with
      | none => simp [ho, abandon] at hdone
      | some output =>
        have hnew : (s, output) ∉ k.pairs.keys := fun hp => hs (List.mem_map.mpr ⟨_, hp, rfl⟩)
        have hg : Grows k [(s, output)] ((k.report (.neverEntered s output)).intern s output) :=
          (grows_report hk s output).trans (grows_intern (coherent_report hk s output) s output)
        simp only [ho] at hdone
        exact ih (h.noticed hunentered hnew) hg.coherent
          (fun _ hmem => hg.mem_states.mpr (Or.inl (hbegun hmem))) hstates.2 hdone

/-- **The log of the whole work.** -/
theorem logged_of_ofMealy {k : Synthesis} {start : String} (h : ofMealy m = .ok (k, start)) :
    Logged m k := by
  have ht := (finished_of_ofMealy h).total
  have hi : m.initialState ∈ m.begunPairs.map Prod.fst := by
    by_contra hi
    obtain ⟨events, he⟩ := ofMealy_of_initial_unmapped ht hi
    rw [h] at he
    cases he
  obtain ⟨entered, begun, start', he, hb, hg, -⟩ := exists_begun ht hi
  have hbegun : Logged m begun := (logged_empty.enter (fun _ hp => hp) he).begin hb
  simp only [ofMealy, he, hb, bind, Except.bind] at h
  cases hc : Synthesis.complete m begun m.states with
  | error stop => simp [hc] at h
  | ok done =>
    simp only [hc, pure, Except.pure, Except.ok.injEq, Prod.mk.injEq] at h
    obtain ⟨rfl, -⟩ := h
    exact hbegun.complete hg.coherent (fun _ => (keys_begun hg).mpr) hi (fun _ hs => hs) hc

end Synthesis

namespace Mealy

/-! ## Reports and notices -/

theorem filterMap_synthesis?_recordsOf (m : Mealy) (es : List ((String × String) × String)) :
    (es.flatMap m.recordsOf).filterMap ConversionEvent.synthesis? = es := by
  have hone : ∀ e, (m.recordsOf e).filterMap ConversionEvent.synthesis? = [e] := by
    intro e
    unfold recordsOf
    split <;> rfl
  simp only [List.filterMap_flatMap, hone, List.flatMap_singleton']

theorem filterMap_notice?_recordsOf (m : Mealy) (es : List ((String × String) × String)) :
    (es.flatMap m.recordsOf).filterMap ConversionEvent.notice? =
      (es.map Prod.fst).filter fun p => p.1 ∈ m.unentered := by
  induction es with
  | nil => rfl
  | cons e es ih =>
    rw [List.flatMap_cons, List.filterMap_append, ih, List.map_cons]
    by_cases he : e.1.1 ∈ m.unentered
    · simp [recordsOf, he, ConversionEvent.notice?]
    · simp [recordsOf, he, ConversionEvent.notice?]

/-- A notice stands right before the report that it announces. -/
theorem exists_report_after {m : Mealy} {es : List ((String × String) × String)}
    {before after : List ConversionEvent} {state output : String}
    (h : es.flatMap m.recordsOf = before ++ .neverEntered state output :: after) :
    ∃ id rest, after = .synthesized id state output :: rest := by
  induction es generalizing before with
  | nil => simp at h
  | cons e es ih =>
    rw [List.flatMap_cons] at h
    by_cases he : e.1.1 ∈ m.unentered
    · rw [recordsOf, if_pos he] at h
      match before with
      | [] =>
        simp only [List.cons_append, List.nil_append, List.cons.injEq,
          ConversionEvent.neverEntered.injEq] at h
        obtain ⟨⟨rfl, rfl⟩, rfl⟩ := h
        exact ⟨e.2, _, rfl⟩
      | [_] => simp at h
      | _ :: _ :: before =>
        simp only [List.cons_append, List.nil_append, List.cons.injEq] at h
        exact ih h.2.2
    · rw [recordsOf, if_neg he] at h
      match before with
      | [] => simp at h
      | _ :: before =>
        simp only [List.cons_append, List.nil_append, List.cons.injEq] at h
        exact ih h.2

section Converted

variable {m : Mealy} {M : Moore} (h : m.toMoore = .ok M)
include h

/-- **The log of a conversion that succeeds.** -/
theorem conversionEvents_eq :
    m.conversionEvents = (m.splitPairs.zip M.states).flatMap m.recordsOf := by
  obtain ⟨k, start, hk, rfl⟩ := toMoore_eq_ok h
  have hevents : m.conversionEvents = k.events := by simp [conversionEvents, hk]
  rw [hevents, zip_toMoore_eq hk]
  exact Synthesis.logged_of_ofMealy hk

/-- Every state that nothing enters has an output aside. -/
theorem exists_stateOutputs_of_unentered {state : String} (hs : state ∈ m.unentered) :
    ∃ output, m.stateOutputs.get? state = some output := by
  obtain ⟨hmem, hne, hno⟩ := mem_unentered.mp hs
  have hmapped := (exists_toMoore_iff.mp ⟨M, h⟩).2.2 state hmem
  exact Option.ne_none_iff_exists'.mp fun hnone => hmapped ⟨hne, hno, hnone⟩

/-- The pairs of the third phase are those of the states that nothing enters. -/
theorem hintedPairs_eq : m.hintedPairs (m.begunPairs.map Prod.fst) m.states =
    (m.states.filter (· ∈ m.unentered)).map fun s => (s, (m.stateOutputs.get? s).getD "") := by
  have hi : m.initialState ∈ m.begunPairs.map Prod.fst :=
    initialState_begun_iff.mpr (exists_toMoore_iff.mp ⟨M, h⟩).2.1
  have hselect : ∀ s ∈ m.states,
      decide (s ∉ m.begunPairs.map Prod.fst) = decide (s ∈ m.unentered) := by
    intro s hs
    rw [decide_eq_decide, mem_unentered_iff_notMem_begun hi hs]
  rw [hintedPairs, List.filter_congr hselect, ← List.filterMap_eq_map']
  refine List.filterMap_congr fun s hs => ?_
  have hs : s ∈ m.unentered := by simpa using (List.mem_filter.mp hs).2
  obtain ⟨output, ho⟩ := exists_stateOutputs_of_unentered h hs
  simp [ho]

/-- The states that nothing enters have one pair each, in the order of the states. -/
theorem filter_splitPairs_unentered : m.splitPairs.filter (fun p => p.1 ∈ m.unentered) =
    m.unentered.map fun s => (s, (m.stateOutputs.get? s).getD "") := by
  have hbegun : m.begunPairs.filter (fun p => p.1 ∈ m.unentered) = [] := by
    rw [List.filter_eq_nil_iff]
    intro p hp hmem
    have hp : p.1 ∈ m.begunPairs.map Prod.fst := List.mem_map_of_mem hp
    obtain ⟨-, hne, hno⟩ := mem_unentered.mp (of_decide_eq_true hmem)
    exact hno ((begun_iff_of_ne hne).mp hp)
  have hhinted : (m.hintedPairs (m.begunPairs.map Prod.fst) m.states).filter
      (fun p => p.1 ∈ m.unentered) = m.hintedPairs (m.begunPairs.map Prod.fst) m.states := by
    rw [hintedPairs_eq h, List.filter_eq_self]
    intro p hp
    obtain ⟨s, hs, rfl⟩ := List.mem_map.mp hp
    exact (List.mem_filter.mp hs).2
  have hinj : Function.Injective fun s => (s, (m.stateOutputs.get? s).getD "") :=
    fun _ _ heq => congrArg Prod.fst heq
  have hstates : m.states.eraseDups.filter (· ∈ m.unentered) = m.unentered := by
    conv_rhs => rw [unentered]
    refine List.filter_congr fun s hs => ?_
    rw [decide_eq_decide, mem_unentered, and_iff_right (List.mem_eraseDups.mp hs)]
  rw [splitPairs, ← eraseDups_filter, List.filter_append, hbegun, List.nil_append, hhinted,
    hintedPairs_eq h, eraseDups_map hinj, eraseDups_filter, hstates]

theorem filterMap_synthesis?_conversionEvents :
    m.conversionEvents.filterMap ConversionEvent.synthesis? = m.splitPairs.zip M.states := by
  rw [conversionEvents_eq h, filterMap_synthesis?_recordsOf]

theorem filterMap_notice?_conversionEvents :
    m.conversionEvents.filterMap ConversionEvent.notice? =
      m.unentered.map fun s => (s, (m.stateOutputs.get? s).getD "") := by
  have hpairs : (m.splitPairs.zip M.states).map Prod.fst = m.splitPairs :=
    List.map_fst_zip (length_states_toMoore h).ge
  rw [conversionEvents_eq h, filterMap_notice?_recordsOf, hpairs, filter_splitPairs_unentered h]

end Converted

/-- The lines of the log for a pair and its Moore state. -/
def linesOf (m : Mealy) (e : (String × String) × String) : List String :=
  (if e.1.1 ∈ m.unentered then
    ["State '" ++ e.1.1 ++ "' is never entered; using output '" ++ e.1.2 ++ "'"]
  else []) ++
    ["Synthesized Moore state '" ++ e.2 ++ "' for (" ++ e.1.1 ++ ", " ++ e.1.2 ++ ")"]

theorem map_message_recordsOf (m : Mealy) (e : (String × String) × String) :
    (m.recordsOf e).map ConversionEvent.message = m.linesOf e := by
  unfold recordsOf linesOf
  split <;> rfl

/-- **The log tells how each Moore state arose.**  There is one report for each Moore state, in
the order of the states: it names the id, the state and the output of its pair, which is the
output of the Moore state.  There is one notice for each declared state that is not initial and
that no declared transition enters, in the order of the states: it names the output that is kept
aside for the state, and the report of the two follows at once. -/
theorem conversion_log {m : Mealy} {M : Moore} (h : m.toMoore = .ok M) :
    -- reports
    (m.conversionEvents.filterMap ConversionEvent.synthesis?).map Prod.snd = M.states ∧
    (m.conversionEvents.filterMap ConversionEvent.synthesis?).map Prod.fst = m.splitPairs ∧
    (∀ id state output, .synthesized id state output ∈ m.conversionEvents →
      M.output id = .ok output) ∧
    -- notices
    (m.conversionEvents.filterMap ConversionEvent.notice?).map Prod.fst = m.unentered ∧
    (∀ state output, .neverEntered state output ∈ m.conversionEvents →
      m.stateOutputs.get? state = some output) ∧
    (∀ before state output after,
      m.conversionEvents = before ++ .neverEntered state output :: after →
        ∃ id rest, after = .synthesized id state output :: rest) ∧
    -- all lines
    m.conversionEvents.map ConversionEvent.message =
      (m.splitPairs.zip M.states).flatMap m.linesOf := by
  have hlength := length_states_toMoore h
  refine ⟨?_, ?_, ?_, ?_, ?_, ?_, ?_⟩
  · rw [filterMap_synthesis?_conversionEvents h]
    exact List.map_snd_zip hlength.le
  · rw [filterMap_synthesis?_conversionEvents h]
    exact List.map_fst_zip hlength.ge
  · intro id state output hmem
    exact Moore.output_eq_ok_iff.mpr (get?_outputs_toMoore (p := (state, output)) h hmem)
  · rw [filterMap_notice?_conversionEvents h, List.map_map]
    exact List.map_id _
  · intro state output hmem
    have hnotice : (state, output) ∈ m.conversionEvents.filterMap ConversionEvent.notice? :=
      List.mem_filterMap.mpr ⟨_, hmem, rfl⟩
    rw [filterMap_notice?_conversionEvents h] at hnotice
    obtain ⟨s, hs, hpair⟩ := List.mem_map.mp hnotice
    obtain ⟨output', ho⟩ := exists_stateOutputs_of_unentered h hs
    rw [ho, Option.getD_some, Prod.mk.injEq] at hpair
    rw [← hpair.1, ← hpair.2, ho]
  · intro before state output after hevents
    rw [conversionEvents_eq h] at hevents
    exact exists_report_after hevents
  · rw [conversionEvents_eq h, List.map_flatMap]
    exact List.flatMap_congr fun e _ => m.map_message_recordsOf e

theorem conversion_log_hinted :
    ∃ M, hinted.toMoore = .ok M ∧ hinted.unentered = ["D"] ∧
      (∀ id, .synthesized id "D" "w" ∈ hinted.conversionEvents → M.output id = .ok "w") ∧
      hinted.conversionEvents.map ConversionEvent.message =
        ["Synthesized Moore state 'A_x' for (A, x)", "Synthesized Moore state 'A_y' for (A, y)",
          "Synthesized Moore state 'S_-' for (S, -)",
          "State 'D' is never entered; using output 'w'",
          "Synthesized Moore state 'D_w' for (D, w)"] := by
  obtain ⟨-, -, houtput, -, -, -, hlines⟩ := conversion_log (m := hinted) rfl
  refine ⟨_, rfl, by decide +kernel, fun id hid => houtput id "D" "w" hid, ?_⟩
  rw [hlines]
  decide +kernel

end Mealy

end Transducers
