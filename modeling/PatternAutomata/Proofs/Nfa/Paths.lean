import PatternAutomata.Nfa.Closure
import PatternAutomata.Symbol

/-!
# Paths

A path follows the edges of an automaton and reads the word that their labels spell; an edge that
reads nothing adds nothing to the word.  Paths are defined over any relation of labelled edges, so
that the same laws serve a finished automaton and one under construction.  The laws say how paths
are joined and when a path of one relation is a path of another: it is enough that the edges agree
on a set of states which no edge leaves.
-/

namespace PatternAutomata

/-- The word that an edge reads. -/
def Label.word : Label → List Char
  | .symbol c => [c]
  | .epsilon => []

/-- The edges of an automaton: from which state, with which label, to which state. -/
abbrev Links := StateId → Label → StateId → Prop

/-- A path from a state to a state, with the word that is read along it. -/
inductive Path (links : Links) : StateId → List Char → StateId → Prop where
  | nil (p : StateId) : Path links p [] p
  | step {p q r : StateId} {label : Label} {word : List Char} :
      links p label q → Path links q word r → Path links p (label.word ++ word) r

namespace Path

variable {links other : Links} {p q r : StateId} {u v : List Char}

theorem edge {label : Label} (h : links p label q) : Path links p label.word q := by
  simpa using Path.step h (Path.nil q)

theorem append (h : Path links p u q) (h' : Path links q v r) : Path links p (u ++ v) r := by
  induction h with
  | nil => exact h'
  | step hedge _ ih =>
    rw [List.append_assoc]
    exact Path.step hedge (ih h')

theorem epsilon_cons (hedge : links p .epsilon q) (h : Path links q v r) : Path links p v r :=
  Path.step hedge h

theorem epsilon_concat (h : Path links p u q) (hedge : links q .epsilon r) : Path links p u r := by
  simpa [Label.word] using h.append (Path.edge hedge)

/-- Where the edges out of a set of states stay in the set and belong to another relation, paths
out of the set belong to it too. -/
theorem transfer (inside : StateId → Prop)
    (hinside : ∀ p, inside p → ∀ label q, links p label q → inside q ∧ other p label q)
    (hp : inside p) (h : Path links p u q) : Path other p u q := by
  induction h with
  | nil => exact Path.nil _
  | step hedge _ ih =>
    obtain ⟨hq, hother⟩ := hinside _ hp _ _ hedge
    exact Path.step hother (ih hq)

theorem mono (hle : ∀ p label q, links p label q → other p label q) (h : Path links p u q) :
    Path other p u q :=
  Path.transfer (fun _ => True) (fun _ _ _ _ hedge => ⟨trivial, hle _ _ _ hedge⟩) trivial h

theorem exists_first (hne : p ≠ q) (h : Path links p u q) :
    ∃ label r v, u = label.word ++ v ∧ links p label r ∧ Path links r v q := by
  cases h with
  | nil => exact absurd rfl hne
  | step hedge hrest => exact ⟨_, _, _, rfl, hedge, hrest⟩

theorem eq_nil_of_final (hfinal : ∀ label r, ¬ links p label r) (h : Path links p u q) :
    u = [] ∧ q = p := by
  cases h with
  | nil => exact ⟨rfl, rfl⟩
  | step hedge _ => exact absurd hedge (hfinal _ _)

end Path

/-! ### The edges of an ε-automaton -/

namespace Nfa

/-- The targets of a node's edges with a label. -/
def Node.along (node : Node) : Label → List StateId
  | .symbol c => node.on c
  | .epsilon => node.epsilon

/-- The edges of an array of nodes. -/
def links (nodes : Array Node) : Links := fun p label q =>
  ∃ node, nodes[p]? = some node ∧ q ∈ node.along label

theorem links_iff_mem_along {nodes : Array Node} {node : Node} {p q : StateId} {label : Label}
    (hnode : nodes[p]? = some node) : links nodes p label q ↔ q ∈ node.along label := by
  constructor
  · rintro ⟨other, hother, hq⟩
    rw [hnode] at hother
    cases hother
    exact hq
  · intro hq
    exact ⟨node, hnode, hq⟩

theorem lt_of_links {nodes : Array Node} {p q : StateId} {label : Label}
    (h : links nodes p label q) : p < nodes.size := by
  obtain ⟨node, hnode, -⟩ := h
  exact (Array.getElem?_eq_some_iff.mp hnode).1

theorem Node.mem_targets_of_mem_along {node : Node} {label : Label} {q : StateId}
    (h : q ∈ node.along label) : q ∈ node.targets := by
  cases label with
  | symbol c => exact mem_targets_of_mem_on h
  | epsilon => exact List.mem_append_right _ h

theorem target_lt_of_links {nodes : Array Node} (hclosed : Closed nodes) {p q : StateId}
    {label : Label} (h : links nodes p label q) : q < nodes.size := by
  obtain ⟨node, hnode, hq⟩ := h
  exact hclosed node (Array.mem_of_getElem? hnode) q (Node.mem_targets_of_mem_along hq)

theorem Node.exists_entry_of_mem_on {node : Node} {symbol : Char} {q : StateId}
    (h : q ∈ node.on symbol) : ∃ entry ∈ node.moves, entry.1 = symbol ∧ q ∈ entry.2 := by
  unfold on at h
  split at h
  · next entry hfind =>
    have hsymbol := List.find?_some hfind
    exact ⟨entry, List.mem_of_find?_eq_some hfind, of_decide_eq_true hsymbol, h⟩
  · cases h

theorem mem_alphabet_iff {nfa : Nfa} {symbol : Char} :
    symbol ∈ nfa.alphabet ↔ ∃ node ∈ nfa.nodes, ∃ entry ∈ node.moves, entry.1 = symbol := by
  unfold alphabet
  rw [mem_ascendingOf fun c d h => Char.toNat_inj.mp h]
  simp

theorem mem_alphabet_of_links {nfa : Nfa} {p q : StateId} {symbol : Char}
    (h : links nfa.nodes p (.symbol symbol) q) : symbol ∈ nfa.alphabet := by
  obtain ⟨node, hnode, hq⟩ := h
  obtain ⟨entry, hentry, hsymbol, -⟩ := Node.exists_entry_of_mem_on hq
  exact mem_alphabet_iff.mpr ⟨node, Array.mem_of_getElem? hnode, entry, hentry, hsymbol⟩

end Nfa

end PatternAutomata
