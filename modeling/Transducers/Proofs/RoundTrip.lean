import Mathlib.Data.Set.Function
import Transducers.Proofs.MealyRows
import Transducers.Proofs.MooreForm

/-!
# From Moore to Mealy and back

The Mealy machine of a Moore machine carries each output once: on the transitions
into a state, as the initial output, or aside.  So the way back splits no state.

* `mem_splitPairs_toMealy`: the pairs that need a Moore state on the way back are the
  states that occur, each with its output;
* `exists_rename`: the way back is a renaming;
* `toMoore_toMealy`: when there is a way back, and what it leads to.
-/

namespace Transducers

namespace Moore

/-- The state is declared, initial, or the destination of a declared transition. -/
def Occurs (m : Moore) (state : String) : Prop :=
  state ∈ m.states ∨ state = m.initialState ∨
    ∃ s ∈ m.states, ∃ x ∈ m.inputSymbols, m.transition s x = .ok state

theorem occurs_iff {m : Moore} {state : String} :
    m.Occurs state ↔ state ∈ m.states ∨ state = m.initialState ∨ state ∈ m.entered := by
  simp only [Occurs, mem_entered, transition_eq_ok_iff]

/-! ## The pairs on the way back -/

section Converted

variable {m : Moore} {n : Mealy} (h : m.toMealy = .ok n)
include h

theorem mem_enteredPairs_toMealy {p : String × String} :
    p ∈ n.enteredPairs ↔ p.1 ∈ m.entered ∧ m.outputs.get? p.1 = some p.2 := by
  rw [Mealy.mem_enteredPairs, states_toMealy h, inputSymbols_toMealy h, mem_entered]
  constructor
  · rintro ⟨s, hs, x, hx, ht⟩
    obtain ⟨-, -, hn, ho⟩ := (cell?_toMealy h).mp ht
    exact ⟨⟨s, hs, x, hx, hn⟩, ho⟩
  · rintro ⟨⟨s, hs, x, hx, hn⟩, ho⟩
    exact ⟨s, hs, x, hx, (cell?_toMealy h).mpr ⟨hs, hx, hn, ho⟩⟩

theorem mem_initialPairs_toMealy {p : String × String} :
    p ∈ n.initialPairs ↔ p.1 = m.initialState ∧ m.outputs.get? p.1 = some p.2 := by
  obtain ⟨q, o⟩ := p
  unfold Mealy.initialPairs
  rw [initialOutput_toMealy h, initialState_toMealy h]
  cases ho : m.outputs.get? m.initialState with
  | some output =>
    simp only [List.mem_singleton, Prod.mk.injEq]
    constructor
    · rintro ⟨rfl, rfl⟩
      exact ⟨rfl, ho⟩
    · rintro ⟨rfl, ho'⟩
      rw [ho, Option.some.injEq] at ho'
      exact ⟨rfl, ho'.symm⟩
  | none =>
    have hhint : n.stateOutputs.get? m.initialState = none := by
      rw [Option.eq_none_iff_forall_ne_some]
      intro o' ho'
      exact ((get?_stateOutputs_toMealy h).mp ho').2.1 rfl
    constructor
    · intro hp
      simp [hhint] at hp
    · rintro ⟨rfl, ho'⟩
      rw [ho] at ho'
      cases ho'

theorem mem_begunPairs_toMealy {p : String × String} :
    p ∈ n.begunPairs ↔
      (p.1 ∈ m.entered ∨ p.1 = m.initialState) ∧ m.outputs.get? p.1 = some p.2 := by
  rw [Mealy.begunPairs, List.mem_append, mem_enteredPairs_toMealy h, mem_initialPairs_toMealy h,
    or_and_right]

theorem mapped_toMealy {state : String} : state ∈ n.begunPairs.map Prod.fst ↔
    (state ∈ m.entered ∨ state = m.initialState) ∧ ∃ o, m.outputs.get? state = some o := by
  rw [List.mem_map]
  constructor
  · rintro ⟨p, hp, rfl⟩
    obtain ⟨hs, ho⟩ := (mem_begunPairs_toMealy h).mp hp
    exact ⟨hs, p.2, ho⟩
  · rintro ⟨hs, o, ho⟩
    exact ⟨(state, o), (mem_begunPairs_toMealy h).mpr ⟨hs, ho⟩, rfl⟩

/-- **One pair for each state.**  On the way back every state that occurs needs the
Moore state with its own output, and no other. -/
theorem mem_splitPairs_toMealy {p : String × String} :
    p ∈ n.splitPairs ↔ m.Occurs p.1 ∧ m.outputs.get? p.1 = some p.2 := by
  rw [Mealy.splitPairs, List.mem_eraseDups, List.mem_append, mem_begunPairs_toMealy h,
    Mealy.mem_hintedPairs, mapped_toMealy h, get?_stateOutputs_toMealy h, states_toMealy h,
    occurs_iff]
  constructor
  · rintro (⟨he | hi, ho⟩ | ⟨hs, -, -, -, -, ho⟩)
    · exact ⟨Or.inr (Or.inr he), ho⟩
    · exact ⟨Or.inr (Or.inl hi), ho⟩
    · exact ⟨Or.inl hs, ho⟩
  · rintro ⟨hocc, ho⟩
    by_cases hb : p.1 ∈ m.entered ∨ p.1 = m.initialState
    · exact Or.inl ⟨hb, ho⟩
    · rw [not_or] at hb
      rcases hocc with hs | hi | he
      · exact Or.inr ⟨hs, fun hm => hm.1.elim hb.1 hb.2, hs, hb.2, hb.1, ho⟩
      · exact absurd hi hb.2
      · exact absurd he hb.1

/-! ## When there is a way back -/

theorem firstMissing?_toMealy : n.firstMissing? = none := by
  refine List.find?_eq_none.mpr ?_
  rintro ⟨s, x⟩ hp hnone
  rw [Mealy.mem_declaredPairs, states_toMealy h, inputSymbols_toMealy h] at hp
  obtain ⟨t, ht⟩ := exists_toMealy_iff.mp ⟨n, h⟩ s hp.1 x hp.2
  have hcell : n.transitions.cell? s x = some t :=
    (cell?_toMealy h).mpr ⟨hp.1, hp.2, transitionTo_eq_ok_iff.mp ht⟩
  simp [hcell] at hnone

theorem initial_mapped_toMealy : n.initialState ∈ n.begunPairs.map Prod.fst ↔
    ∃ o, m.outputs.get? m.initialState = some o := by
  rw [mapped_toMealy h, initialState_toMealy h]
  constructor
  · exact fun hm => hm.2
  · exact fun ho => ⟨Or.inr rfl, ho⟩

/-- The first state without a Moore state on the way back is the first without output. -/
theorem firstUnmapped?_toMealy :
    n.firstUnmapped? = m.states.find? fun state => m.outputs.get? state = none := by
  unfold Mealy.firstUnmapped?
  rw [states_toMealy h, ← List.head?_filter, ← List.head?_filter]
  congr 1
  refine List.filter_congr fun s hs => ?_
  rw [decide_eq_decide]
  constructor
  · rintro ⟨hm, hnone⟩
    rw [Option.eq_none_iff_forall_ne_some]
    intro o ho
    by_cases hb : s ∈ m.entered ∨ s = m.initialState
    · exact hm ((mapped_toMealy h).mpr ⟨hb, o, ho⟩)
    · rw [not_or] at hb
      have := (get?_stateOutputs_toMealy h).mpr ⟨hs, hb.2, hb.1, ho⟩
      rw [hnone] at this
      cases this
  · intro hnone
    constructor
    · intro hm
      obtain ⟨-, o, ho⟩ := (mapped_toMealy h).mp hm
      rw [hnone] at ho
      cases ho
    · rw [Option.eq_none_iff_forall_ne_some]
      intro o ho
      obtain ⟨-, -, -, ho⟩ := (get?_stateOutputs_toMealy h).mp ho
      rw [hnone] at ho
      cases ho

theorem toMoore_of_initial_silent (hi : m.outputs.get? m.initialState = none) :
    n.toMoore = .error (.unmappedInitialState m.initialState) := by
  have hn : n.initialState ∉ n.begunPairs.map Prod.fst := by
    rw [initial_mapped_toMealy h, hi]
    simp
  obtain ⟨events, he⟩ := Synthesis.ofMealy_of_initial_unmapped (firstMissing?_toMealy h) hn
  rw [Mealy.toMoore_of_error he, initialState_toMealy h]

theorem toMoore_of_silent {output state : String}
    (hi : m.outputs.get? m.initialState = some output)
    (hs : m.states.find? (fun s => m.outputs.get? s = none) = some state) :
    n.toMoore = .error (.unmappedState state) := by
  have hmapped := (initial_mapped_toMealy h).mpr ⟨output, hi⟩
  rw [← firstUnmapped?_toMealy h] at hs
  obtain ⟨events, he⟩ := Synthesis.ofMealy_of_unmapped (firstMissing?_toMealy h) hmapped hs
  rw [Mealy.toMoore_of_error he]

theorem exists_toMoore {output : String} (hi : m.outputs.get? m.initialState = some output)
    (hs : m.states.find? (fun s => m.outputs.get? s = none) = none) :
    ∃ b, n.toMoore = .ok b := by
  have hmapped := (initial_mapped_toMealy h).mpr ⟨output, hi⟩
  rw [← firstUnmapped?_toMealy h] at hs
  obtain ⟨k, start, hk, -⟩ := Synthesis.exists_finished (firstMissing?_toMealy h) hmapped hs
  exact ⟨k.toMoore n start, by simp [Mealy.toMoore, hk]⟩

/-! ## The renaming -/

/-- On the way back every state that occurs has an output. -/
theorem Occurs.exists_output {b : Moore} (hb : n.toMoore = .ok b) {state : String}
    (hs : m.Occurs state) : ∃ output, m.outputs.get? state = some output := by
  cases hi : m.outputs.get? m.initialState with
  | none =>
    rw [toMoore_of_initial_silent h hi] at hb
    cases hb
  | some output =>
    cases hf : m.states.find? fun s => m.outputs.get? s = none with
    | some silent =>
      rw [toMoore_of_silent h hi hf] at hb
      cases hb
    | none =>
      rcases occurs_iff.mp hs with hs | rfl | he
      · have := List.find?_eq_none.mp hf state hs
        exact Option.ne_none_iff_exists'.mp (by simpa using this)
      · exact ⟨output, hi⟩
      · exact exists_output_of_entered h he

/-- **The way back is a renaming**: each state that occurs becomes the Moore state
made for it with its output. -/
theorem exists_rename {b : Moore} (hb : n.toMoore = .ok b) : ∃ f : String → String,
    ∀ state output, m.Occurs state → m.outputs.get? state = some output →
      n.Makes (state, output) (f state) := by
  have hmade : ∀ state, ∃ id, ∀ output, m.Occurs state → m.outputs.get? state = some output →
      n.Makes (state, output) id := by
    intro state
    by_cases hs : m.Occurs state
    · obtain ⟨output, ho⟩ := hs.exists_output h hb
      have hp : (state, output) ∈ n.splitPairs := (mem_splitPairs_toMealy h).mpr ⟨hs, ho⟩
      obtain ⟨id, hid⟩ := (Mealy.exists_makes_iff hb).mpr hp
      refine ⟨id, fun output' _ ho' => ?_⟩
      rw [ho, Option.some.injEq] at ho'
      exact ho' ▸ hid
    · exact ⟨state, fun _ hs' => absurd hs' hs⟩
  choose f hf using hmade
  exact ⟨f, hf⟩

variable {b : Moore} (hb : n.toMoore = .ok b) {f : String → String}
  (hf : ∀ state output, m.Occurs state → m.outputs.get? state = some output →
    n.Makes (state, output) (f state))
include hb hf

theorem bijOn_rename : Set.BijOn f {state | m.Occurs state} {id | id ∈ b.states} := by
  refine ⟨?_, ?_, ?_⟩
  · intro state hs
    obtain ⟨output, ho⟩ := Occurs.exists_output h hb hs
    exact (Mealy.mem_states_toMoore hb).mpr ⟨_, hf state output hs ho⟩
  · intro s hs s' hs' heq
    obtain ⟨o, ho⟩ := Occurs.exists_output h hb hs
    obtain ⟨o', ho'⟩ := Occurs.exists_output h hb hs'
    have hmake' := hf s' o' hs' ho'
    rw [← heq] at hmake'
    have hpair := Mealy.Makes.unique hb (hf s o hs ho) hmake'
    exact congrArg Prod.fst hpair
  · intro id hid
    obtain ⟨⟨s, o⟩, hp⟩ := (Mealy.mem_states_toMoore hb).mp hid
    obtain ⟨hs, ho⟩ := (mem_splitPairs_toMealy h).mp ((Mealy.exists_makes_iff hb).mp ⟨id, hp⟩)
    exact ⟨s, hs, Mealy.Makes.id_unique hb (hf s o hs ho) hp⟩

theorem rename_initialState : f m.initialState = b.initialState := by
  obtain ⟨o, hid⟩ := Mealy.splitInto_initialState hb
  rw [initialState_toMealy h] at hid
  obtain ⟨hs, ho⟩ := (mem_splitPairs_toMealy h).mp ((Mealy.exists_makes_iff hb).mp ⟨_, hid⟩)
  exact Mealy.Makes.id_unique hb (hf _ o hs ho) hid

theorem cell?_rename {state symbol next : String} (hs : state ∈ m.states)
    (hx : symbol ∈ m.inputSymbols) (hn : m.transitions.cell? state symbol = some next) :
    b.transitions.cell? (f state) symbol = some (f next) := by
  have hocc : m.Occurs next := occurs_iff.mpr (Or.inr (Or.inr (mem_entered.mpr ⟨_, hs, _, hx, hn⟩)))
  obtain ⟨o, ho⟩ := Occurs.exists_output h hb (occurs_iff.mpr (Or.inl hs))
  obtain ⟨o', ho'⟩ := hocc.exists_output h hb
  refine (Mealy.cell?_toMoore hb).mpr ⟨state, ⟨next, o'⟩, ?_, ?_, ⟨o, hf _ o (Or.inl hs) ho⟩,
    (cell?_toMealy h).mpr ⟨hs, hx, hn, ho'⟩, hf next o' hocc ho'⟩
  · rw [states_toMealy h]
    exact hs
  · rw [inputSymbols_toMealy h]
    exact hx

/-- Where the names with outputs are different, the renaming appends the output. -/
theorem rename_eq_name (hnames : ∀ s s' o o', m.Occurs s → m.Occurs s' →
      m.outputs.get? s = some o → m.outputs.get? s' = some o' →
      s ++ "_" ++ o = s' ++ "_" ++ o' → s = s')
    {state output : String} (hs : m.Occurs state) (ho : m.outputs.get? state = some output) :
    f state = state ++ "_" ++ output := by
  refine Mealy.Makes.eq_name hb ?_ (hf state output hs ho)
  rintro ⟨s, o⟩ hp ⟨s', o'⟩ hq heq
  obtain ⟨hs, ho⟩ := (mem_splitPairs_toMealy h).mp hp
  obtain ⟨hs', ho'⟩ := (mem_splitPairs_toMealy h).mp hq
  have hss := hnames s s' o o' hs hs' ho ho' heq
  simp only at ho ho'
  rw [← hss, ho, Option.some.injEq] at ho'
  rw [hss, ho']

end Converted

/-- **From Moore to Mealy and back.**  The way back exists exactly when the initial
state and every declared state have an output; otherwise it fails with the initial
state or else with the first declared state that has none.  It leads to the same
machine under other names, and where the names with outputs are different the output
is appended to each name. -/
theorem toMoore_toMealy {m : Moore} {n : Mealy} (h : m.toMealy = .ok n) :
    ((∃ b, n.toMoore = .ok b) ↔
      (∃ o, m.output m.initialState = .ok o) ∧ ∀ s ∈ m.states, ∃ o, m.output s = .ok o) ∧
    (m.output m.initialState = .error (.missingOutput m.initialState) →
      n.toMoore = .error (.unmappedInitialState m.initialState)) ∧
    (∀ before state after o, m.output m.initialState = .ok o →
      m.states = before ++ state :: after → (∀ s ∈ before, ∃ o, m.output s = .ok o) →
      m.output state = .error (.missingOutput state) →
      n.toMoore = .error (.unmappedState state)) ∧
    (∀ b, n.toMoore = .ok b → ∃ f : String → String,
      Set.BijOn f {q | m.Occurs q} {id | id ∈ b.states} ∧
      f m.initialState = b.initialState ∧
      (∀ q, m.Occurs q → ∃ o, m.output q = .ok o ∧ b.output (f q) = .ok o) ∧
      (∀ s ∈ m.states, ∀ x ∈ m.inputSymbols, ∃ q, m.transition s x = .ok q ∧
        b.transition (f s) x = .ok (f q)) ∧
      ((∀ q q' o o', m.Occurs q → m.Occurs q' → m.output q = .ok o → m.output q' = .ok o' →
          q ++ "_" ++ o = q' ++ "_" ++ o' → q = q') →
        ∀ q o, m.Occurs q → m.output q = .ok o → f q = q ++ "_" ++ o)) := by
  simp only [output_eq_error_iff, output_eq_ok_iff, transition_eq_ok_iff]
  refine ⟨⟨?_, ?_⟩, toMoore_of_initial_silent h, ?_, ?_⟩
  · rintro ⟨b, hb⟩
    exact ⟨Occurs.exists_output h hb (Or.inr (Or.inl rfl)),
      fun s hs => Occurs.exists_output h hb (Or.inl hs)⟩
  · rintro ⟨⟨o, hi⟩, hall⟩
    refine exists_toMoore h hi (List.find?_eq_none.mpr fun s hs hnone => ?_)
    obtain ⟨o, ho⟩ := hall s hs
    simp [ho] at hnone
  · intro before state after o hi hstates hbefore hnone
    refine toMoore_of_silent h hi ?_
    rw [hstates, List.find?_append, List.find?_eq_none.mpr, Option.none_or, List.find?_cons]
    · simp [hnone]
    · intro s hs hs'
      obtain ⟨o, ho⟩ := hbefore s hs
      simp [ho] at hs'
  · intro b hb
    obtain ⟨f, hf⟩ := exists_rename h hb
    refine ⟨f, bijOn_rename h hb hf, rename_initialState h hb hf, ?_, ?_, ?_⟩
    · intro q hq
      obtain ⟨o, ho⟩ := hq.exists_output h hb
      exact ⟨o, ho, Mealy.get?_outputs_toMoore hb (hf q o hq ho)⟩
    · intro s hs x hx
      obtain ⟨t, ht⟩ := exists_toMealy_iff.mp ⟨n, h⟩ s hs x hx
      obtain ⟨hn, -⟩ := transitionTo_eq_ok_iff.mp ht
      exact ⟨t.next, hn, cell?_rename h hb hf hs hx hn⟩
    · intro hnames q o hq ho
      exact rename_eq_name h hb hf hnames hq ho

/-- Nothing enters the second state of this machine. -/
def unentered : Moore :=
  ((((new "A").withOutput "A" "x").withOutput "D" "w").withTransition "A" "0"
    "A").withTransition "D" "0" "A"

theorem toMoore_unentered :
    ∃ n, unentered.toMealy = .ok n ∧ ∃ b, n.toMoore = .ok b ∧
      ∃ f : String → String, f "A" = b.initialState ∧ b.output (f "D") = .ok "w" := by
  have hround := toMoore_toMealy (m := unentered) rfl
  obtain ⟨b, hb⟩ := hround.1.mpr ⟨⟨"x", rfl⟩, by
    intro s hs
    have hs : s ∈ ["A", "D"] := hs
    rw [List.mem_pair] at hs
    rcases hs with rfl | rfl
    · exact ⟨"x", rfl⟩
    · exact ⟨"w", rfl⟩⟩
  obtain ⟨f, -, hinit, houtput, -, -⟩ := hround.2.2.2 b hb
  obtain ⟨o, ho, hbo⟩ := houtput "D" (Or.inl (by decide))
  cases ho
  exact ⟨_, rfl, b, hb, f, hinit, hbo⟩

end Moore

end Transducers
