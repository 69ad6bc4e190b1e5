import PatternAutomata.Proofs.Listing.Labels
import PatternAutomata.Proofs.Nfa.Sealing
import PatternAutomata.Proofs.Run.Verdicts

/-!
# The language of a graph

Seen as a graph, an automaton of either kind has a language: the words along the paths from the
start to the accepting states.  A run accepts this language.  For an ε-automaton the edges of the
graph have to be those that a run follows, which needs that no entry for a symbol hides another one.
In a deterministic automaton no edge reads nothing and a symbol is read on one edge at most, so the
run is the only path.
-/

namespace PatternAutomata

variable {p q r : StateId} {symbol : Char} {label : Label} {word rest : List Char}

/-- The words along the paths from the start to the accepting states. -/
def Graph.language (graph : Graph) : Language Char :=
  { word | ∃ q, Path graph.links graph.start word q ∧ graph.isAccepting q = true }

/-! ### ε-automata -/

namespace Nfa

variable {nfa : Nfa}

theorem Node.mem_labeled_iff {node : Node} :
    (symbol, q) ∈ node.labeled ↔ ∃ entry ∈ node.moves, entry.1 = symbol ∧ q ∈ entry.2 := by
  constructor
  · intro h
    obtain ⟨entry, hentry, hedge⟩ := List.mem_flatMap.mp h
    obtain ⟨target, htarget, heq⟩ := List.mem_map.mp hedge
    cases heq
    exact ⟨entry, hentry, rfl, htarget⟩
  · rintro ⟨entry, hentry, rfl, hq⟩
    exact List.mem_flatMap.mpr ⟨entry, hentry, List.mem_map.mpr ⟨q, hq, rfl⟩⟩

theorem Node.Tidy.has_iff {node : Node} (h : node.Tidy) :
    (Edges.mk node.labeled node.epsilon).Has label q ↔ q ∈ node.along label := by
  cases label with
  | epsilon => exact Iff.rfl
  | symbol c =>
    constructor
    · intro hedge
      obtain ⟨entry, hentry, rfl, hq⟩ := Node.mem_labeled_iff.mp hedge
      show q ∈ node.on entry.1
      rw [h.on_eq hentry]
      exact hq
    · intro hq
      exact Node.mem_labeled_iff.mpr (Node.exists_entry_of_mem_on hq)

theorem Sealed.graph_links_iff (h : nfa.Sealed) :
    nfa.graph.links p label q ↔ links nfa.nodes p label q := by
  rw [Graph.links_iff]
  constructor
  · rintro ⟨edges, hedges, hhas⟩
    obtain ⟨node, hnode, rfl⟩ := graph_edges_iff.mp hedges
    have htidy := h.tidy node (Array.mem_of_getElem? hnode)
    exact ⟨node, hnode, htidy.has_iff.mp hhas⟩
  · rintro ⟨node, hnode, hq⟩
    have htidy := h.tidy node (Array.mem_of_getElem? hnode)
    exact ⟨_, graph_edges_iff.mpr ⟨node, hnode, rfl⟩, htidy.has_iff.mpr hq⟩

theorem Sealed.mem_graph_language_iff (h : nfa.Sealed) :
    word ∈ nfa.graph.language ↔ word ∈ nfa.language := by
  constructor
  · rintro ⟨q, hpath, haccept⟩
    obtain rfl : q = nfa.accept := of_decide_eq_true haccept
    exact hpath.mono fun _ _ _ hedge => h.graph_links_iff.mp hedge
  · intro hpath
    refine ⟨nfa.accept, ?_, decide_eq_true rfl⟩
    exact Path.mono (fun _ _ _ hedge => h.graph_links_iff.mpr hedge) hpath

end Nfa

/-! ### Deterministic automata -/

namespace Dfa

variable {dfa : Dfa}

theorem graph_links_symbol_iff :
    dfa.graph.links p (.symbol symbol) q ↔ dfa.next p symbol = .ok (some q) := by
  rw [Graph.links_iff]
  constructor
  · rintro ⟨edges, hedges, hhas⟩
    obtain ⟨row, hrow, rfl⟩ := graph_edges_iff.mp hedges
    exact (mem_zip_iff_next hrow).mp hhas
  · intro hnext
    obtain ⟨row, i, hrow, -⟩ := exists_cell_of_next hnext
    exact ⟨_, graph_edges_iff.mpr ⟨row, hrow, rfl⟩, (mem_zip_iff_next hrow).mpr hnext⟩

theorem not_graph_links_epsilon : ¬ dfa.graph.links p .epsilon q := by
  rw [Graph.links_iff]
  rintro ⟨edges, hedges, hhas⟩
  obtain ⟨row, -, rfl⟩ := graph_edges_iff.mp hedges
  cases hhas

theorem eq_of_path_nil (h : Path dfa.graph.links q word r) (hword : word = []) : r = q := by
  cases h with
  | nil => rfl
  | @step _ _ _ label _ hedge _ =>
    cases label with
    | epsilon => exact absurd hedge not_graph_links_epsilon
    | symbol c => cases hword

theorem exists_next_of_path (h : Path dfa.graph.links q word r) (hword : word = symbol :: rest) :
    ∃ p, dfa.next q symbol = .ok (some p) ∧ Path dfa.graph.links p rest r := by
  cases h with
  | nil => cases hword
  | @step _ p _ label _ hedge hrest =>
    cases label with
    | epsilon => exact absurd hedge not_graph_links_epsilon
    | symbol c =>
      cases hword
      exact ⟨p, graph_links_symbol_iff.mp hedge, hrest⟩

theorem acceptsFrom_decides_path (h : dfa.graph.Closed) (hq : q < dfa.size) (word : List Char) :
    Decides (dfa.acceptsFrom q word)
      (∃ r, Path dfa.graph.links q word r ∧ dfa.isAccepting r = true) := by
  induction word generalizing q with
  | nil =>
    refine ⟨dfa.isAccepting q, rfl, ?_⟩
    constructor
    · intro haccept
      exact ⟨q, Path.nil q, haccept⟩
    · rintro ⟨r, hpath, haccept⟩
      rwa [eq_of_path_nil hpath rfl] at haccept
  | cons symbol word ih =>
    rcases exists_next h hq symbol with hnext | ⟨target, htarget, hnext⟩
    · refine ⟨false, ?_, ?_⟩
      · simp only [acceptsFrom, hnext, bind, Except.bind]
        rfl
      · constructor
        · intro hfalse
          cases hfalse
        · rintro ⟨r, hpath, -⟩
          obtain ⟨p, hp, -⟩ := exists_next_of_path hpath rfl
          rw [hnext] at hp
          cases hp
    · obtain ⟨accepted, haccepts, hiff⟩ := ih htarget
      refine ⟨accepted, ?_, hiff.trans ?_⟩
      · simp only [acceptsFrom, hnext, haccepts, bind, Except.bind]
      · constructor
        · rintro ⟨r, hpath, haccept⟩
          exact ⟨r, Path.step (graph_links_symbol_iff.mpr hnext) hpath, haccept⟩
        · rintro ⟨r, hpath, haccept⟩
          obtain ⟨p, hp, hrest⟩ := exists_next_of_path hpath rfl
          rw [hnext] at hp
          cases hp
          exact ⟨r, hrest, haccept⟩

end Dfa

/-! ### Either kind -/

/-- The automata that can be made: an ε-automaton comes out of an arena, and a deterministic
automaton out of such an ε-automaton. -/
inductive Automaton.Built : Automaton → Prop where
  | nfa {nfa : Nfa} (h : nfa.Sealed) : Built (.nfa nfa)
  | dfa {nfa : Nfa} {dfa : Dfa} {mode : ClosureMode} (h : nfa.Sealed)
    (hdfa : nfa.determinize mode = .ok dfa) : Built (.dfa dfa)

namespace Automaton.Built

variable {automaton : Automaton}

theorem graph_closed (h : automaton.Built) : automaton.graph.Closed := by
  cases h with
  | @nfa nfa _ => exact nfa.graph_closed
  | @dfa nfa dfa mode _ hdfa =>
    obtain ⟨other, hother, hlaws⟩ := nfa.exists_determinize mode
    rw [hdfa] at hother
    cases hother
    exact hlaws.graph_closed

/-- A run accepts the language of the graph. -/
theorem accepts_decides (h : automaton.Built) (word : List Char) :
    Decides (automaton.accepts word) (word ∈ automaton.graph.language) := by
  have hclosed := h.graph_closed
  cases h with
  | @nfa nfa hsealed =>
    obtain ⟨accepted, haccepts, hiff⟩ := nfa.accepts_decides word
    exact ⟨accepted, haccepts, hiff.trans hsealed.mem_graph_language_iff.symm⟩
  | @dfa _ dfa _ _ _ => exact Dfa.acceptsFrom_decides_path hclosed dfa.start_lt word

end Automaton.Built

end PatternAutomata
