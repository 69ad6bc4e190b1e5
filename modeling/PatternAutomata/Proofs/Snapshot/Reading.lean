import Mathlib.Computability.EpsilonNFA
import PatternAutomata.Proofs.Listing.Language
import PatternAutomata.Snapshot.Basic

/-!
# Snapshots read as automata

What a snapshot records of a listing is an ε-automaton over printed names.  Different labels have
different names, and the labels name the part of the graph that its start reaches; so every path
from the start is a path of the snapshot and the other way round.  The states that are left out lie
on no such path, so the snapshot accepts what the automaton accepts.
-/

namespace PatternAutomata

/-- The symbol that an edge reads, if it reads one. -/
def Label.read? : Label → Option Char
  | .symbol c => some c
  | .epsilon => none

theorem Label.reduceOption_read? (label : Label) (reads : List (Option Char)) :
    (label.read? :: reads).reduceOption = label.word ++ reads.reduceOption := by
  cases label with
  | symbol c => exact List.reduceOption_cons_of_some c reads
  | epsilon => exact List.reduceOption_cons_of_none reads

/-- The start, the accepting states and the edges of a snapshot as an ε-automaton over names. -/
def Snapshot.machine (snapshot : Snapshot) : εNFA Char String where
  step source read :=
    { target | ∃ edge ∈ snapshot.edges,
      edge.source = source ∧ edge.label.read? = read ∧ edge.target = target }
  start := { snapshot.start }
  accept := { name | name ∈ snapshot.accepts }

theorem Listing.name_injective : Function.Injective name := by
  intro i j h
  have hchars := congrArg String.toList h
  simp only [name, String.toList_append] at hchars
  have hdigits := congrArg (fun digits => Nat.ofDigitChars 10 digits 0)
    (List.append_cancel_left hchars)
  simpa [Nat.toString_eq_ofList_toDigits] using hdigits

/-! ### What is recorded -/

/-- The start, the accepting states and the edges of the snapshot are those of the listing, by their
names. -/
structure Snapshot.Records (snapshot : Snapshot) (listing : Listing) : Prop where
  start_eq : snapshot.start = Listing.name listing.start
  accepts_eq : snapshot.accepts = listing.accepts.map Listing.name
  edges_eq : snapshot.edges = listing.edges.map fun edge =>
    ⟨Listing.name edge.source, edge.label, Listing.name edge.target⟩

theorem Snapshot.ofListing_records (kind : AutomatonKind) (tokens : String)
    (regex : Option String) (closure : ClosureMode) (listing : Listing) :
    (ofListing kind tokens regex closure listing).Records listing :=
  ⟨rfl, rfl, rfl⟩

namespace Snapshot.Records

open Listing

variable {snapshot : Snapshot} {graph : Graph} {states : List StateId} {p q : StateId}
  {label : Label} {word : List Char} {reads : List (Option Char)} {source target : String}

/-- An edge of the graph is an edge between the names of its ends. -/
theorem mem_step (h : snapshot.Records (graph.listingOf states)) (hstates : graph.Enumerates states)
    (hp : p ∈ states) (hedge : graph.links p label q) :
    name (states.idxOf q) ∈ snapshot.machine.step (name (states.idxOf p)) label.read? := by
  refine ⟨⟨name (states.idxOf p), label, name (states.idxOf q)⟩, ?_, rfl, rfl, rfl⟩
  rw [h.edges_eq]
  apply List.mem_map.mpr
  refine ⟨⟨states.idxOf p, label, states.idxOf q⟩, ?_, rfl⟩
  exact Graph.mem_edges_iff.mpr ⟨p, q, (hstates.idxOf_eq_iff hp).mp rfl, hedge, rfl⟩

/-- An edge out of the name of a state is an edge of the graph out of that state. -/
theorem exists_edge_of_mem_step (h : snapshot.Records (graph.listingOf states))
    (hstates : graph.Enumerates states) (hp : p ∈ states) {read : Option Char}
    (hstep : target ∈ snapshot.machine.step (name (states.idxOf p)) read) :
    ∃ label q, graph.links p label q ∧ label.read? = read ∧ target = name (states.idxOf q) := by
  obtain ⟨edge, hedge, hsource, hread, htarget⟩ := hstep
  rw [h.edges_eq] at hedge
  obtain ⟨⟨i, label, j⟩, hlisted, rfl⟩ := List.mem_map.mp hedge
  obtain ⟨p', q, hp', hlink, rfl⟩ := Graph.mem_edges_iff.mp hlisted
  have hi : states.idxOf p = i := name_injective hsource.symm
  rw [(hstates.idxOf_eq_iff hp).mp hi] at hp'
  cases hp'
  exact ⟨label, q, hlink, hread, htarget.symm⟩

theorem exists_isPath (h : snapshot.Records (graph.listingOf states))
    (hstates : graph.Enumerates states) (hp : p ∈ states) (hpath : Path graph.links p word q) :
    q ∈ states ∧ ∃ reads, reads.reduceOption = word ∧
      snapshot.machine.IsPath (name (states.idxOf p)) (name (states.idxOf q)) reads := by
  induction hpath with
  | nil => exact ⟨hp, [], rfl, .nil _⟩
  | @step p r q label word hedge _ ih =>
    have hr : r ∈ states := hstates.mem_of_links p hp label r hedge
    obtain ⟨hq, reads, hword, hrest⟩ := ih hr
    refine ⟨hq, label.read? :: reads, ?_, ?_⟩
    · rw [Label.reduceOption_read?, hword]
    · exact .cons _ _ _ _ _ (h.mem_step hstates hp hedge) hrest

theorem exists_path (h : snapshot.Records (graph.listingOf states))
    (hstates : graph.Enumerates states) (hp : p ∈ states)
    (hpath : snapshot.machine.IsPath source target reads)
    (hsource : source = name (states.idxOf p)) :
    ∃ q ∈ states, target = name (states.idxOf q) ∧ Path graph.links p reads.reduceOption q := by
  induction hpath generalizing p with
  | nil => exact ⟨p, hp, hsource, Path.nil p⟩
  | cons middle source target read reads hstep _ ih =>
    rw [hsource] at hstep
    obtain ⟨label, r, hedge, rfl, hmiddle⟩ := h.exists_edge_of_mem_step hstates hp hstep
    have hr : r ∈ states := hstates.mem_of_links p hp label r hedge
    obtain ⟨q, hq, htarget, hrest⟩ := ih hr hmiddle
    refine ⟨q, hq, htarget, ?_⟩
    rw [Label.reduceOption_read?]
    exact Path.step hedge hrest

theorem mem_accept_iff (h : snapshot.Records (graph.listingOf states))
    (hstates : graph.Enumerates states) (hq : q ∈ states) :
    name (states.idxOf q) ∈ snapshot.machine.accept ↔ graph.isAccepting q = true := by
  show name (states.idxOf q) ∈ snapshot.accepts ↔ _
  have hlabel := (hstates.idxOf_eq_iff hq).mp rfl
  rw [h.accepts_eq, List.mem_map_of_injective name_injective, Graph.mem_accepts_iff]
  constructor
  · rintro ⟨q', hq', haccept⟩
    rw [hlabel] at hq'
    cases hq'
    exact haccept
  · intro haccept
    exact ⟨q, hlabel, haccept⟩

theorem start_eq_name (h : snapshot.Records (graph.listingOf states))
    (hstates : graph.Enumerates states) :
    graph.start ∈ states ∧ snapshot.start = name (states.idxOf graph.start) := by
  have hstart : graph.start ∈ states := List.mem_of_getElem? hstates.start_first
  have hzero : states.idxOf graph.start = 0 :=
    (hstates.idxOf_eq_iff hstart).mpr hstates.start_first
  refine ⟨hstart, ?_⟩
  rw [h.start_eq, hzero]
  rfl

/-- The snapshot of a listed graph accepts the language of the graph. -/
theorem mem_machine_accepts_iff (h : snapshot.Records (graph.listingOf states))
    (hstates : graph.Enumerates states) :
    word ∈ snapshot.machine.accepts ↔ word ∈ graph.language := by
  obtain ⟨hstart, hname⟩ := h.start_eq_name hstates
  rw [εNFA.mem_accepts_iff_exists_path]
  constructor
  · rintro ⟨source, target, reads, hsource, haccept, rfl, hpath⟩
    have hsource' : source = name (states.idxOf graph.start) := hsource.trans hname
    obtain ⟨q, hq, rfl, hrun⟩ := h.exists_path hstates hstart hpath hsource'
    exact ⟨q, hrun, (h.mem_accept_iff hstates hq).mp haccept⟩
  · rintro ⟨q, hrun, haccept⟩
    obtain ⟨hq, reads, hword, hpath⟩ := h.exists_isPath hstates hstart hrun
    exact ⟨_, _, reads, hname.symm, (h.mem_accept_iff hstates hq).mpr haccept, hword, hpath⟩

end Snapshot.Records

/-! ### Faithful snapshots -/

/-- **Faithful snapshots.**  Every automaton that can be made is listed, and the start, the accepting
states and the edges that a snapshot records of the listing, read as an ε-automaton over the printed
names, accept a word exactly if a run of the automaton does. -/
theorem Automaton.Built.snapshot_accepts {automaton : Automaton} (h : automaton.Built)
    (tokens : String) (regex : Option String) (closure : ClosureMode) :
    ∃ listing, automaton.list = .ok listing ∧
      ∀ word, Decides (automaton.accepts word)
        (word ∈ (Snapshot.ofListing automaton.kind tokens regex closure listing).machine.accepts) := by
  obtain ⟨states, hstates, hlist⟩ := h.graph_closed.exists_enumeration
  refine ⟨_, hlist, fun word => ?_⟩
  obtain ⟨accepted, haccepts, hiff⟩ := h.accepts_decides word
  have hrecords := Snapshot.ofListing_records automaton.kind tokens regex closure
    (automaton.graph.listingOf states)
  exact ⟨accepted, haccepts, hiff.trans (hrecords.mem_machine_accepts_iff hstates).symm⟩

theorem Automaton.Built.snapshot_accepts_of_concat :
    ∃ nfa dfa, Nfa.ofPostfix [.symbol 'a', .symbol 'b', .concat] = .ok nfa ∧
      nfa.determinize .reachability = .ok dfa ∧ Automaton.Built (.dfa dfa) ∧
      ∃ listing, Automaton.list (.dfa dfa) = .ok listing ∧
        ∀ word, Decides (Automaton.accepts (.dfa dfa) word)
          (word ∈ (Snapshot.ofListing .dfa "ab." none .reachability listing).machine.accepts) := by
  obtain ⟨nfa, hnfa, -⟩ := Nfa.ofPostfix_postfixOf (.concat (.symbol 'a') (.symbol 'b'))
  obtain ⟨dfa, hdfa, -⟩ := nfa.exists_determinize .reachability
  have hbuilt : Automaton.Built (.dfa dfa) := .dfa (Nfa.ofPostfix_sealed hnfa) hdfa
  exact ⟨nfa, dfa, hnfa, hdfa, hbuilt, hbuilt.snapshot_accepts "ab." none .reachability⟩

end PatternAutomata
