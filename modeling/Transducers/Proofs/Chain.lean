import Transducers.Machine
import Transducers.Proofs.MealyRuns

/-!
# Chains of conversions

The Moore machine of a closed machine has no gaps left: `Moore.WellFormed`.  Two
conversions of such a machine lead to such a machine again, with as many states,
and every machine on the way answers every word alike; so a chain never ends.

* `wellFormed_toMoore`: what the first conversion establishes;
* `exists_toMealy_toMoore_iff`: when the second conversion succeeds;
* `exists_two_conversions`: what two conversions keep;
* `exists_chain`: a chain from a machine without gaps, two conversions at a time;
* `chain_toMoore`: a chain from a Mealy machine.
-/

namespace Transducers

namespace Machine

def states : Machine → List String
  | mealy m => m.states
  | moore m => m.states

def inputSymbols : Machine → List String
  | mealy m => m.inputSymbols
  | moore m => m.inputSymbols

/-- Over these symbols every run of both machines succeeds, with the same outputs. -/
def AnswersAs (symbols : List String) (x y : Machine) : Prop :=
  ∀ word : List String, (∀ a ∈ word, a ∈ symbols) →
    ∃ t t', x.run word = .ok t ∧ y.run word = .ok t' ∧ t'.outputs = t.outputs

theorem AnswersAs.trans {symbols : List String} {x y z : Machine} (h : AnswersAs symbols x y)
    (h' : AnswersAs symbols y z) : AnswersAs symbols x z := by
  intro word hw
  obtain ⟨t, t', ht, ht', ho⟩ := h word hw
  obtain ⟨u, u', hu, hu', ho'⟩ := h' word hw
  rw [ht', Except.ok.injEq] at hu
  rw [← hu, ho] at ho'
  exact ⟨t, u', ht, hu', ho'⟩

theorem AnswersAs.left {symbols : List String} {x y : Machine} (h : AnswersAs symbols x y) :
    AnswersAs symbols x x := by
  intro word hw
  obtain ⟨t, -, ht, -, -⟩ := h word hw
  exact ⟨t, t, ht, ht, rfl⟩

theorem chain_succ_moore {m : Moore} {n : Mealy} (h : m.toMealy = .ok n) (k : Nat) :
    chain (k + 1) (.moore m) = chain k (.mealy n) := by
  simp only [chain, convert, h, Except.map, bind, Except.bind]

theorem chain_succ_mealy {m : Mealy} {M : Moore} (h : m.toMoore = .ok M) (k : Nat) :
    chain (k + 1) (.mealy m) = chain k (.moore M) := by
  simp only [chain, convert, h, Except.map, bind, Except.bind]

end Machine

/-! ## Machines without gaps -/

/-- A Moore machine that can be run from any declared state, and never leaves them. -/
structure Moore.WellFormed (m : Moore) : Prop where
  initial : m.initialState ∈ m.states
  nodup : m.states.Nodup
  next : ∀ state ∈ m.states, ∀ symbol ∈ m.inputSymbols, ∃ next ∈ m.states,
    m.transitions.cell? state symbol = some next
  output : ∀ state ∈ m.states, ∃ output, m.outputs.get? state = some output

namespace Mealy

/-- On a closed machine every pair that needs a Moore state is one of a declared state. -/
theorem Closed.declared {m : Mealy} (hc : m.Closed) {p : String × String}
    (hp : p ∈ m.splitPairs) : p.1 ∈ m.states := by
  rw [splitPairs, List.mem_eraseDups, List.mem_append, begunPairs, List.mem_append] at hp
  rcases hp with (he | hi) | hh
  · obtain ⟨s, hs, x, hx, ht⟩ := mem_enteredPairs.mp he
    exact hc.next s hs x hx _ ht
  · rw [fst_of_mem_initialPairs hi]
    exact hc.initial
  · exact (mem_hintedPairs.mp hh).1

/-- **What one conversion establishes.** -/
theorem wellFormed_toMoore {m : Mealy} {M : Moore} (hc : m.Closed) (h : m.toMoore = .ok M) :
    M.WellFormed where
  initial := by
    obtain ⟨o, ho⟩ := splitInto_initialState h
    exact (mem_states_toMoore h).mpr ⟨_, ho⟩
  nodup := nodup_states_toMoore h
  next := by
    intro id hid x hx
    obtain ⟨⟨s, o⟩, hp⟩ := (mem_states_toMoore h).mp hid
    have hs : s ∈ m.states := hc.declared ((exists_makes_iff h).mp ⟨id, hp⟩)
    rw [inputSymbols_toMoore h] at hx
    obtain ⟨t, ht⟩ := exists_cell? h hs hx
    obtain ⟨next, hn⟩ := exists_makes_target h hs hx ht
    exact ⟨next, (mem_states_toMoore h).mpr ⟨_, hn⟩,
      (cell?_toMoore h).mpr ⟨s, t, hs, hx, ⟨o, hp⟩, ht, hn⟩⟩
  output := by
    intro id hid
    obtain ⟨p, hp⟩ := (mem_states_toMoore h).mp hid
    exact ⟨p.2, get?_outputs_toMoore h hp⟩

/-- The Moore machine can be converted back only if its states are all split from
declared ones, or if there is no symbol to ask for. -/
theorem exists_toMealy_toMoore_iff {m : Mealy} {M : Moore} (h : m.toMoore = .ok M) :
    (∃ n, M.toMealy = .ok n) ↔ m.inputSymbols = [] ∨ m.Closed := by
  rw [Moore.exists_toMealy_iff, inputSymbols_toMoore h]
  constructor
  · intro htotal
    cases hsym : m.inputSymbols with
    | nil => exact Or.inl rfl
    | cons x₀ xs =>
      have hx₀ : x₀ ∈ m.inputSymbols := by simp [hsym]
      have hdeclared : ∀ s o id, m.Makes (s, o) id → s ∈ m.states := by
        intro s o id hid
        obtain ⟨t, ht⟩ := htotal id ((mem_states_toMoore h).mpr ⟨_, hid⟩) x₀ hx₀
        obtain ⟨hcell, -⟩ := Moore.transitionTo_eq_ok_iff.mp ht
        obtain ⟨s', _, hs', -, ⟨o', ho'⟩, -, -⟩ := (cell?_toMoore h).mp hcell
        have hpair := Makes.unique h ho' hid
        simp only [Prod.mk.injEq] at hpair
        exact hpair.1 ▸ hs'
      refine Or.inr ⟨?_, ?_⟩
      · obtain ⟨o, ho⟩ := splitInto_initialState h
        exact hdeclared _ o _ ho
      · intro s hs x hx t ht
        obtain ⟨id, hid⟩ := exists_makes_target h hs hx ht
        exact hdeclared _ t.output id hid
  · rintro (hnil | hc) id hid x hx
    · rw [hnil] at hx
      cases hx
    · have hM := wellFormed_toMoore hc h
      obtain ⟨next, hnext, hcell⟩ := hM.next id hid x (by rw [inputSymbols_toMoore h]; exact hx)
      obtain ⟨o, ho⟩ := hM.output next hnext
      exact ⟨⟨next, o⟩, Moore.transitionTo_eq_ok_iff.mpr ⟨hcell, ho⟩⟩

end Mealy

namespace Moore

/-! ## One conversion -/

variable {m : Moore} (hm : m.WellFormed)
include hm

theorem WellFormed.occurs_iff {state : String} : m.Occurs state ↔ state ∈ m.states := by
  rw [Moore.occurs_iff]
  constructor
  · rintro (hs | rfl | he)
    · exact hs
    · exact hm.initial
    · obtain ⟨s, hs, x, hx, hn⟩ := mem_entered.mp he
      obtain ⟨next, hnext, hn'⟩ := hm.next s hs x hx
      rw [hn, Option.some.injEq] at hn'
      exact hn' ▸ hnext
  · exact Or.inl

theorem WellFormed.exists_toMealy : ∃ n, m.toMealy = .ok n := by
  refine exists_toMealy_iff.mpr fun s hs x hx => ?_
  obtain ⟨next, hnext, hcell⟩ := hm.next s hs x hx
  obtain ⟨o, ho⟩ := hm.output next hnext
  exact ⟨⟨next, o⟩, transitionTo_eq_ok_iff.mpr ⟨hcell, ho⟩⟩

theorem WellFormed.closed : m.Closed where
  initial := hm.initial
  next := by
    intro s hs x hx next hn
    obtain ⟨next', hnext, hcell⟩ := hm.next s hs x hx
    rw [transition_eq_ok_iff, hcell, Option.some.injEq] at hn
    exact hn ▸ hnext

theorem WellFormed.answersAs_toMealy {n : Mealy} (h : m.toMealy = .ok n) :
    Machine.AnswersAs m.inputSymbols (.moore m) (.mealy n) := by
  intro word hw
  obtain ⟨t, ht⟩ := hm.closed.exists_run_toMealy h hw
  obtain ⟨o, ho⟩ := hm.output m.initialState hm.initial
  exact ⟨_, t, run_of_run_toMealy h ho ht, ht, rfl⟩

/-! ## Two conversions -/

theorem WellFormed.length_states {n : Mealy} {b : Moore} (hn : m.toMealy = .ok n)
    (hb : n.toMoore = .ok b) : b.states.length = m.states.length := by
  obtain ⟨f, hf⟩ := exists_rename hn hb
  obtain ⟨hmaps, hinj, hsurj⟩ := bijOn_rename hn hb hf
  have hperm : (m.states.map f).Perm b.states := by
    rw [List.perm_ext_iff_of_nodup _ (Mealy.nodup_states_toMoore hb)]
    · intro id
      rw [List.mem_map]
      constructor
      · rintro ⟨s, hs, rfl⟩
        exact hmaps (hm.occurs_iff.mpr hs)
      · intro hid
        obtain ⟨s, hs, rfl⟩ := hsurj hid
        exact ⟨s, hm.occurs_iff.mp hs, rfl⟩
    · exact hm.nodup.map_on fun s hs s' hs' heq =>
        hinj (hm.occurs_iff.mpr hs) (hm.occurs_iff.mpr hs') heq
  rw [← hperm.length_eq, List.length_map]

/-- **What two conversions keep.**  There and back, a machine without gaps is
renamed: it has no gaps, as many states, and answers alike. -/
theorem WellFormed.exists_two_conversions : ∃ n b, m.toMealy = .ok n ∧ n.toMoore = .ok b ∧
    b.WellFormed ∧ b.states.length = m.states.length ∧ b.inputSymbols = m.inputSymbols ∧
    Machine.AnswersAs m.inputSymbols (.moore m) (.moore b) := by
  obtain ⟨n, hn⟩ := hm.exists_toMealy
  obtain ⟨o, ho⟩ := hm.output m.initialState hm.initial
  obtain ⟨b, hb⟩ : ∃ b, n.toMoore = .ok b := by
    refine exists_toMoore hn ho (List.find?_eq_none.mpr fun s hs hnone => ?_)
    obtain ⟨o', ho'⟩ := hm.output s hs
    simp [ho'] at hnone
  have hc := hm.closed.toMealy hn
  have hsym : b.inputSymbols = m.inputSymbols := by
    rw [Mealy.inputSymbols_toMoore hb, inputSymbols_toMealy hn]
  refine ⟨n, b, hn, hb, Mealy.wellFormed_toMoore hc hb, hm.length_states hn hb, hsym, ?_⟩
  refine (hm.answersAs_toMealy hn).trans fun word hw => hc.run_toMoore_eq hb fun x hx => ?_
  rw [inputSymbols_toMealy hn]
  exact hw x hx

/-! ## Any number of conversions -/

/-- **Chains from a machine without gaps.**  Two conversions at a time, such a chain
never ends. -/
theorem WellFormed.exists_chain (k : Nat) : ∃ x, Machine.chain k (.moore m) = .ok x ∧
    x.states.length = m.states.length ∧ x.inputSymbols = m.inputSymbols ∧
    Machine.AnswersAs m.inputSymbols (.moore m) x := by
  induction k using Nat.twoStepInduction generalizing m with
  | zero =>
    obtain ⟨n, hn⟩ := hm.exists_toMealy
    exact ⟨.moore m, rfl, rfl, rfl, (hm.answersAs_toMealy hn).left⟩
  | one =>
    obtain ⟨n, hn⟩ := hm.exists_toMealy
    refine ⟨.mealy n, ?_, ?_, inputSymbols_toMealy hn, hm.answersAs_toMealy hn⟩
    · rw [Machine.chain_succ_moore hn, Machine.chain]
    · rw [Machine.states, states_toMealy hn]
  | more k ih _ =>
    obtain ⟨n, b, hn, hb, hb', hlength, hsym, hanswers⟩ := hm.exists_two_conversions
    obtain ⟨x, hx, hlength', hsym', hanswers'⟩ := ih hb'
    rw [hsym] at hanswers'
    refine ⟨x, ?_, hlength'.trans hlength, hsym'.trans hsym, hanswers.trans hanswers'⟩
    rw [Machine.chain_succ_moore hn, Machine.chain_succ_mealy hb]
    exact hx

end Moore

/-- **Chains of conversions.**  After its first conversion a Mealy machine can be
converted on exactly if it is closed or has no symbols.  A closed machine can be
converted any number of times: from the first conversion on the number of states and
the symbols stay, and every machine on the way answers every word alike. -/
theorem chain_toMoore {m : Mealy} {M : Moore} (h : m.toMoore = .ok M) :
    ((∃ n, M.toMealy = .ok n) ↔ m.inputSymbols = [] ∨ m.Closed) ∧
    (m.Closed → ∀ k, ∃ x, Machine.chain k (.mealy m) = .ok x ∧
      (1 ≤ k → x.states.length = M.states.length) ∧ x.inputSymbols = m.inputSymbols ∧
      ∀ word : List String, (∀ a ∈ word, a ∈ m.inputSymbols) →
        ∃ t t', m.run word = .ok t ∧ x.run word = .ok t' ∧ t'.outputs = t.outputs) := by
  refine ⟨Mealy.exists_toMealy_toMoore_iff h, fun hc k => ?_⟩
  have hanswers : Machine.AnswersAs m.inputSymbols (.mealy m) (.moore M) :=
    fun word hw => hc.run_toMoore_eq h hw
  cases k with
  | zero =>
    exact ⟨.mealy m, rfl, fun hk => absurd hk (by decide), rfl, hanswers.left⟩
  | succ k =>
    obtain ⟨x, hx, hlength, hsym, hanswers'⟩ := (Mealy.wellFormed_toMoore hc h).exists_chain k
    rw [Mealy.inputSymbols_toMoore h] at hsym hanswers'
    refine ⟨x, ?_, fun _ => hlength, hsym, hanswers.trans hanswers'⟩
    rw [Machine.chain_succ_mealy h]
    exact hx

/-- This machine is split in its first conversion, `C` being entered with two outputs. -/
def splitting : Mealy :=
  ((((Mealy.new "A").withTransition "A" "0" "C" "z").withTransition "A" "1" "C"
    "x").withTransition "C" "0" "A" "y").withTransition "C" "1" "C" "z"

theorem chain_splitting :
    ∃ M, splitting.toMoore = .ok M ∧ M.states = ["C_z", "C_x", "A_y"] ∧
      ∃ x, Machine.chain 5 (.mealy splitting) = .ok x ∧ x.states.length = 3 := by
  have hc : splitting.Closed := ⟨by decide, by decide⟩
  obtain ⟨x, hx, hlength, -, -⟩ := (chain_toMoore (m := splitting) rfl).2 hc 5
  exact ⟨_, rfl, rfl, x, hx, hlength (by decide)⟩

end Transducers
