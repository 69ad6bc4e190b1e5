import Mathlib.Data.List.Nodup
import PatternAutomata.Proofs.Nfa.Sealing

/-!
# The edges of an ε-automaton

The edges as one list, state by state, in the order in which the states keep them.  In a sealed
automaton no edge is kept twice, for every operation adds an edge only where it is not there yet.
And the edges of the list are those that moves and closures follow, so a path may be read along
either.
-/

namespace PatternAutomata

/-- The symbol that an edge with the label reads. -/
def Label.symbol? : Label → Option Char
  | .symbol c => some c
  | .epsilon => none

namespace Nfa

/-- An edge from a state to a state. -/
structure Edge where
  source : StateId
  label : Label
  target : StateId
deriving DecidableEq, Repr

/-- The edges out of a state, those that read a symbol first. -/
def Node.edgesFrom (source : StateId) (node : Node) : List Edge :=
  node.labeled.map (fun (symbol, target) => ⟨source, .symbol symbol, target⟩)
    ++ node.epsilon.map (fun target => ⟨source, .epsilon, target⟩)

def edgesOf (nodes : Array Node) : List Edge :=
  nodes.toList.zipIdx.flatMap fun (node, source) => node.edgesFrom source

/-- The edges that an automaton keeps. -/
def edges (nfa : Nfa) : List Edge :=
  edgesOf nfa.nodes

/-- The kept edges as a relation. -/
def Leads (nfa : Nfa) : Links := fun p label q =>
  Edge.mk p label q ∈ nfa.edges

/-! ### Edges that are kept once -/

/-- Different items have different places. -/
theorem pairwise_zipIdx {α : Type} (xs : List α) :
    xs.zipIdx.Pairwise fun entry other => entry.2 ≠ other.2 := by
  have hplaces : (xs.zipIdx.map Prod.snd).Nodup := by
    rw [List.zipIdx_map_snd]
    exact List.nodup_range'
  exact List.pairwise_map.mp hplaces

/-- No edge of a node is kept twice. -/
structure Node.Simple (node : Node) : Prop where
  moves_nodup : ∀ entry ∈ node.moves, entry.2.Nodup
  epsilon_nodup : node.epsilon.Nodup

theorem nodup_appendNew {xs : List StateId} (h : xs.Nodup) (x : StateId) : (appendNew xs x).Nodup := by
  unfold appendNew
  split
  · exact h
  · next hx =>
    rw [← List.concat_eq_append]
    exact h.concat hx

namespace Node

variable {node : Node} {symbol : Char} {target p q : StateId} {label : Label}
  {moves : List (Char × List StateId)}

theorem simple_empty : Simple {} :=
  ⟨nofun, List.nodup_nil⟩

theorem targets_nodup_addTarget (h : ∀ entry ∈ moves, entry.2.Nodup) :
    ∀ entry ∈ addTarget symbol target moves, entry.2.Nodup := by
  induction moves with
  | nil => simp [addTarget]
  | cons entry moves ih =>
    obtain ⟨hfirst, hrest⟩ := List.forall_mem_cons.mp h
    simp only [addTarget]
    split
    · exact List.forall_mem_cons.mpr ⟨nodup_appendNew hfirst target, hrest⟩
    · exact List.forall_mem_cons.mpr ⟨hfirst, ih hrest⟩

theorem Simple.addMove (h : node.Simple) : (node.addMove symbol target).Simple :=
  ⟨targets_nodup_addTarget h.moves_nodup, h.epsilon_nodup⟩

theorem Simple.addEpsilon (h : node.Simple) : (node.addEpsilon target).Simple :=
  ⟨h.moves_nodup, nodup_appendNew h.epsilon_nodup target⟩

theorem Tidy.mem_labeled_iff (h : node.Tidy) : (symbol, q) ∈ node.labeled ↔ q ∈ node.on symbol := by
  constructor
  · intro hmem
    obtain ⟨entry, hentry, hpair⟩ := List.mem_flatMap.mp hmem
    obtain ⟨target, htarget, heq⟩ := List.mem_map.mp hpair
    cases heq
    rwa [h.on_eq hentry]
  · intro hmem
    obtain ⟨entry, hentry, rfl, hq⟩ := exists_entry_of_mem_on hmem
    exact List.mem_flatMap.mpr ⟨entry, hentry, List.mem_map_of_mem hq⟩

theorem Tidy.mem_edgesFrom_iff (h : node.Tidy) :
    ⟨p, label, q⟩ ∈ node.edgesFrom p ↔ q ∈ node.along label := by
  cases label with
  | symbol c => simp [edgesFrom, along, h.mem_labeled_iff]
  | epsilon => simp [edgesFrom, along]

theorem source_of_mem_edgesFrom {edge : Edge} (h : edge ∈ node.edgesFrom p) : edge.source = p := by
  rcases List.mem_append.mp h with h | h
  · obtain ⟨_, -, rfl⟩ := List.mem_map.mp h
    rfl
  · obtain ⟨_, -, rfl⟩ := List.mem_map.mp h
    rfl

theorem nodup_labeled (htidy : node.Tidy) (hsimple : node.Simple) : node.labeled.Nodup := by
  refine List.nodup_flatMap.mpr ⟨?_, ?_⟩
  · intro entry hentry
    refine (hsimple.moves_nodup entry hentry).map fun q r h => ?_
    exact congrArg Prod.snd h
  · refine List.Pairwise.imp ?_ (List.pairwise_map.mp htidy.nodup)
    intro entry other hne pair hpair hpair'
    obtain ⟨q, -, rfl⟩ := List.mem_map.mp hpair
    obtain ⟨r, -, heq⟩ := List.mem_map.mp hpair'
    exact hne (congrArg Prod.fst heq).symm

theorem nodup_edgesFrom (htidy : node.Tidy) (hsimple : node.Simple) : (node.edgesFrom p).Nodup := by
  refine List.Nodup.append ?_ ?_ ?_
  · refine (nodup_labeled htidy hsimple).map ?_
    rintro ⟨symbol, q⟩ ⟨symbol', q'⟩ h
    cases h
    rfl
  · refine hsimple.epsilon_nodup.map fun q r h => ?_
    cases h
    rfl
  · intro edge hmove hepsilon
    obtain ⟨move, -, rfl⟩ := List.mem_map.mp hmove
    obtain ⟨q, -, heq⟩ := List.mem_map.mp hepsilon
    cases heq

end Node

theorem Arena.Built.simple {arena : Arena} (h : arena.Built) :
    ∀ node ∈ arena.nodes, node.Simple := by
  induction h with
  | empty => exact fun node hnode => absurd hnode (Array.not_mem_empty node)
  | addState _ ih =>
    intro node hnode
    rcases Array.mem_push.mp hnode with hnode | rfl
    · exact ih node hnode
    · exact Node.simple_empty
  | addMove _ hnext ih =>
    obtain ⟨hsource, hnodes⟩ := nodes_addMove hnext
    rw [hnodes]
    exact forall_mem_set ih hsource (ih _ (Array.getElem_mem hsource)).addMove
  | addEpsilon _ hnext ih =>
    obtain ⟨hsource, hnodes⟩ := nodes_addEpsilon hnext
    rw [hnodes]
    exact forall_mem_set ih hsource (ih _ (Array.getElem_mem hsource)).addEpsilon

namespace Sealed

variable {nfa : Nfa} {p q : StateId} {label : Label}

theorem simple (h : nfa.Sealed) : ∀ node ∈ nfa.nodes, node.Simple := by
  obtain ⟨arena, start, accept, hbuilt, hfinish⟩ := h
  rw [Arena.nodes_finish hfinish]
  exact hbuilt.simple

theorem leads_iff (h : nfa.Sealed) : nfa.Leads p label q ↔ links nfa.nodes p label q := by
  constructor
  · intro hedge
    obtain ⟨⟨node, source⟩, hnode, hmem⟩ := List.mem_flatMap.mp hedge
    obtain rfl : p = source := Node.source_of_mem_edgesFrom hmem
    have hnode' : nfa.nodes[p]? = some node := by
      simpa using List.mem_zipIdx_iff_getElem?.mp hnode
    have htidy := h.tidy node (Array.mem_of_getElem? hnode')
    exact ⟨node, hnode', htidy.mem_edgesFrom_iff.mp hmem⟩
  · rintro ⟨node, hnode, hq⟩
    have htidy := h.tidy node (Array.mem_of_getElem? hnode)
    refine List.mem_flatMap.mpr ⟨(node, p), ?_, htidy.mem_edgesFrom_iff.mpr hq⟩
    simpa [List.mem_zipIdx_iff_getElem?] using hnode

/-- The kept edges are those that moves and closures follow. -/
theorem leads_eq (h : nfa.Sealed) : nfa.Leads = links nfa.nodes := by
  funext p label q
  exact propext h.leads_iff

theorem nodup_edges (h : nfa.Sealed) : nfa.edges.Nodup := by
  refine List.nodup_flatMap.mpr ⟨?_, ?_⟩
  · rintro ⟨node, source⟩ hnode
    have hmem : node ∈ nfa.nodes := Array.mem_toList_iff.mp (List.fst_mem_of_mem_zipIdx hnode)
    exact Node.nodup_edgesFrom (h.tidy node hmem) (h.simple node hmem)
  · -- the edges of two nodes have different sources
    refine (pairwise_zipIdx nfa.nodes.toList).imp ?_
    intro entry other hne edge hedge hedge'
    exact hne ((Node.source_of_mem_edgesFrom hedge).symm.trans
      (Node.source_of_mem_edgesFrom hedge'))

end Sealed

end Nfa

end PatternAutomata
