import Mathlib.Computability.Language
import PatternAutomata.Proofs.Nfa.Closure
import PatternAutomata.Run.Simulation

/-!
# Runs of ε-automata and paths

After any input, the set that a run keeps is the set of the states at the end of the paths from the
start that read the input.  A set that is closed under the edges that read nothing loses no path
when the first symbol of the rest is read, and this is what the induction over the input uses.  So a
run accepts the language of the automaton: the words along the paths from the start to the accepting
state.
-/

namespace PatternAutomata

/-- The computation succeeds and says whether the property holds. -/
def Decides (result : Except Fault Bool) (property : Prop) : Prop :=
  ∃ answer, result = .ok answer ∧ (answer = true ↔ property)

namespace Nfa

variable {nfa : Nfa} {set : StateSet} {word : List Char}

/-- The words along the paths from the start to the accepting state. -/
def language (nfa : Nfa) : Language Char :=
  { word | Path (links nfa.nodes) nfa.start word nfa.accept }

/-- The states an ε-automaton can be in after an input. -/
def activeAfter (nfa : Nfa) (input : List Char) : Except Fault StateSet := do
  let start ← nfa.initial
  input.foldlM nfa.advance start

/-! ### Edges that read nothing -/

/-- No edge that reads nothing leaves the set. -/
def Saturated (nfa : Nfa) (set : StateSet) : Prop :=
  ∀ p ∈ set, ∀ q, links nfa.nodes p .epsilon q → q ∈ set

theorem path_of_reaches {p q : StateId} (h : nfa.Reaches .epsilon p q) :
    Path (links nfa.nodes) p [] q := by
  induction h with
  | refl => exact Path.nil _
  | tail _ hedge ih => exact ih.epsilon_concat hedge

theorem saturated_of_yields {result : Except Fault StateSet} {property : StateId → Prop}
    (h : Yields result fun q => ∃ p, property p ∧ nfa.Reaches .epsilon p q)
    (hset : result = .ok set) : nfa.Saturated set := by
  intro p hp q hedge
  obtain ⟨r, hr, hreach⟩ := (h.mem_iff hset p).mp hp
  exact (h.mem_iff hset q).mpr ⟨r, hr, hreach.tail hedge⟩

/-! ### One symbol -/

theorem advance_yields (hset : nfa.Within set) (symbol : Char) :
    Yields (nfa.advance set symbol) fun q =>
      ∃ r, (∃ p ∈ set, links nfa.nodes p (.symbol symbol) r) ∧ nfa.Reaches .epsilon r q :=
  step_closure_yields hset .epsilon symbol

theorem initial_yields : Yields nfa.initial fun q => nfa.Reaches .epsilon nfa.start q :=
  nfa.start_closure_yields .epsilon

/-! ### A whole input -/

theorem mem_of_path_nil (hsat : nfa.Saturated set) {p q : StateId} (hp : p ∈ set)
    (h : Path (links nfa.nodes) p word q) (hword : word = []) : q ∈ set := by
  induction h with
  | nil => exact hp
  | @step p r q label rest hedge _ ih =>
    cases label with
    | epsilon => exact ih (hsat p hp r hedge) hword
    | symbol c => cases hword

/-- A path from a saturated set that reads a symbol first reads it on an edge out of the set. -/
theorem exists_first_move (hsat : nfa.Saturated set) {p q : StateId} (hp : p ∈ set)
    {symbol : Char} {input : List Char} (h : Path (links nfa.nodes) p input q)
    (hinput : input = symbol :: word) :
    ∃ r, (∃ p ∈ set, links nfa.nodes p (.symbol symbol) r) ∧ Path (links nfa.nodes) r word q := by
  induction h with
  | nil => cases hinput
  | @step p r q label rest hedge hrest ih =>
    cases label with
    | epsilon => exact ih (hsat p hp r hedge) hinput
    | symbol c =>
      cases hinput
      exact ⟨r, ⟨p, hp, hedge⟩, hrest⟩

theorem foldlM_advance_yields (hrange : nfa.Within set) (hsat : nfa.Saturated set) :
    Yields (word.foldlM nfa.advance set) fun q => ∃ p ∈ set, Path (links nfa.nodes) p word q := by
  induction word generalizing set with
  | nil =>
    refine ⟨set, rfl, fun q => ⟨fun hq => ⟨q, hq, Path.nil q⟩, ?_⟩⟩
    rintro ⟨p, hp, hpath⟩
    exact mem_of_path_nil hsat hp hpath rfl
  | cons symbol word ih =>
    have hadvance := advance_yields hrange symbol
    obtain ⟨next, hnext, hmem⟩ := hadvance
    have hrange' : nfa.Within next := by
      intro q hq
      obtain ⟨r, ⟨p, -, hedge⟩, hreach⟩ := (hmem q).mp hq
      exact lt_of_reaches (target_lt_of_links nfa.closed hedge) hreach
    have hsat' : nfa.Saturated next := saturated_of_yields ⟨next, hnext, hmem⟩ hnext
    have hfold : (symbol :: word).foldlM nfa.advance set = word.foldlM nfa.advance next := by
      rw [List.foldlM_cons, hnext]
      rfl
    rw [hfold]
    refine (ih hrange' hsat').congr fun q => ⟨?_, ?_⟩
    · rintro ⟨p', hp', hpath⟩
      obtain ⟨r, ⟨p, hp, hedge⟩, hreach⟩ := (hmem p').mp hp'
      exact ⟨p, hp, Path.step hedge ((path_of_reaches hreach).append hpath)⟩
    · rintro ⟨p, hp, hpath⟩
      obtain ⟨r, hedge, hrest⟩ := exists_first_move hsat hp hpath rfl
      exact ⟨r, (hmem r).mpr ⟨r, hedge, .refl⟩, hrest⟩

/-- After an input, an ε-automaton can be in the states at the end of the paths from the start that
read the input. -/
theorem activeAfter_yields (nfa : Nfa) (input : List Char) :
    Yields (nfa.activeAfter input) fun q => Path (links nfa.nodes) nfa.start input q := by
  obtain ⟨start, hstart, hmem⟩ := @initial_yields nfa
  have hrange : nfa.Within start := fun q hq => lt_of_reaches nfa.start_lt ((hmem q).mp hq)
  have hsat : nfa.Saturated start := by
    intro p hp q hedge
    exact (hmem q).mpr (((hmem p).mp hp).tail hedge)
  have hactive : nfa.activeAfter input = input.foldlM nfa.advance start := by
    rw [activeAfter, hstart]
    rfl
  rw [hactive]
  refine (foldlM_advance_yields hrange hsat).congr fun q => ⟨?_, ?_⟩
  · rintro ⟨p, hp, hpath⟩
    exact (path_of_reaches ((hmem p).mp hp)).append hpath
  · intro hpath
    exact ⟨nfa.start, (hmem nfa.start).mpr .refl, hpath⟩

/-- **Runs and paths.**  A run of an ε-automaton accepts exactly its language. -/
theorem accepts_decides (nfa : Nfa) (input : List Char) :
    Decides (nfa.accepts input) (input ∈ nfa.language) := by
  obtain ⟨final, hfinal, hmem⟩ := nfa.activeAfter_yields input
  have haccepts : nfa.accepts input = .ok (final.contains nfa.accept) := by
    have hbind : nfa.accepts input = nfa.activeAfter input >>= fun set =>
        .ok (set.contains nfa.accept) := (bind_assoc ..).symm
    rw [hbind, hfinal]
    rfl
  exact ⟨_, haccepts, StateSet.contains_iff.trans (hmem nfa.accept)⟩

end Nfa

end PatternAutomata
