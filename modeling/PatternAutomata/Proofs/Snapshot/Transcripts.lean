import PatternAutomata.Listing.Written
import PatternAutomata.Proofs.Listing.Preorder
import PatternAutomata.Proofs.Snapshot.Reading

/-!
# Transcripts of snapshots

A listing writes its transcript line by line, each with its end; a snapshot puts the lines of its
own together with line ends between them.  The lines of the edges and of the start are the same.
The last line names the accepting states and is the same if there is one; if there is none, the
listing says so and the snapshot names nothing.  So the two transcripts agree for the automata that
reach an accepting state, and for no others.
-/

namespace PatternAutomata

variable {listing : Listing} {snapshot : Snapshot} {automaton : Automaton}

/-! ### Lines -/

/-- Lines with line ends between them; the first ones are each written with its end. -/
theorem intercalate_lines (lines : List String) (next : String) (rest : List String) :
    "\n".intercalate (lines ++ next :: rest) =
      String.join (lines.map fun line => line ++ "\n") ++ "\n".intercalate (next :: rest) := by
  induction lines with
  | nil => rw [List.nil_append, List.map_nil, String.join_nil, String.empty_append]
  | cons line lines ih =>
    have hne : lines ++ next :: rest ≠ [] := List.append_ne_nil_of_right_ne_nil _ nofun
    rw [List.cons_append, String.intercalate_cons_of_ne_nil hne, ih, List.map_cons,
      String.join_cons, String.append_assoc, String.append_assoc, String.append_assoc]

/-- A snapshot writes an edge as a listing does without colours. -/
theorem Snapshot.edgeLine_eq (edge : ListedEdge) :
    edgeLine ⟨Listing.name edge.source, edge.label, Listing.name edge.target⟩ =
      Listing.edgeLine .plain edge := by
  have hline : edgeLine ⟨Listing.name edge.source, edge.label, Listing.name edge.target⟩ =
      Listing.name edge.source ++ " -- " ++ edge.label.text ++ " --> " ++
        Listing.name edge.target := by
    simp only [edgeLine, String.append_assoc]
    rfl
  rw [hline]
  simp [Listing.edgeLine, Palette.paint, Palette.plain, String.append_assoc]

/-- What a listing writes without colours before it names the accepting states. -/
def Listing.preamble (listing : Listing) : String :=
  String.join (listing.edges.map fun edge => edgeLine .plain edge ++ "\n")
    ++ "\n" ++ "Start: " ++ name listing.start ++ "\n" ++ "Accept: "

/-- A snapshot writes the same, and then the names of the accepting states as they are. -/
theorem Snapshot.Records.transcript_eq (h : snapshot.Records listing) :
    snapshot.transcript =
      listing.preamble ++ ", ".intercalate (listing.accepts.map Listing.name) := by
  have hlines : snapshot.edges.map edgeLine = listing.edges.map (Listing.edgeLine .plain) := by
    rw [h.edges_eq, List.map_map]
    exact List.map_congr_left fun edge _ => edgeLine_eq edge
  simp only [transcript]
  rw [intercalate_lines, hlines, List.map_map, h.start_eq, h.accepts_eq]
  simp only [Listing.preamble, String.intercalate_cons_cons, String.intercalate_singleton,
    String.empty_append, String.append_assoc]
  rfl

theorem Listing.transcript_eq :
    listing.transcript .plain =
      listing.preamble ++ acceptNames .plain listing.accepts ++ "\n" := by
  have hstart : Palette.plain.paint Palette.plain.state (name listing.start) =
      name listing.start := Palette.paint_plain _
  simp only [transcript, preamble, hstart]

theorem Listing.acceptNames_plain (accepts : List Nat) :
    acceptNames .plain accepts =
      if accepts = [] then "(none)" else ", ".intercalate (accepts.map name) := by
  have hdim : Palette.plain.paint Palette.plain.dim "(none)" = "(none)" := Palette.paint_plain _
  have haccept : ∀ label, Palette.plain.paint Palette.plain.accept (name label) = name label :=
    fun label => Palette.paint_plain _
  simp only [acceptNames, List.isEmpty_iff, hdim, haccept]

/-- The snapshot leaves out the end of the last line. -/
theorem Snapshot.Records.transcript_of_accepts (h : snapshot.Records listing)
    (haccepts : listing.accepts ≠ []) :
    snapshot.transcript ++ "\n" = listing.transcript .plain := by
  rw [Listing.transcript_eq, Listing.acceptNames_plain, if_neg haccepts, h.transcript_eq]

/-- Where nothing is accepted, the snapshot also leaves out that it says so. -/
theorem Snapshot.Records.transcript_of_no_accepts (h : snapshot.Records listing)
    (haccepts : listing.accepts = []) :
    snapshot.transcript ++ "(none)\n" = listing.transcript .plain := by
  have hnone : ", ".intercalate (([] : List Nat).map Listing.name) = "" := rfl
  rw [Listing.transcript_eq, Listing.acceptNames_plain, if_pos haccepts, h.transcript_eq, haccepts,
    hnone, String.append_empty, String.append_assoc]
  rfl

/-! ### Automata -/

/-- Some path leads from the start to an accepting state. -/
def Graph.ReachesAccepting (graph : Graph) : Prop :=
  ∃ state, graph.Reaches state ∧ graph.isAccepting state = true

theorem Graph.Walks.accepts_ne_nil_iff {graph : Graph} {states : List StateId}
    (h : graph.Walks [graph.start] [] states) :
    (graph.listingOf states).accepts ≠ [] ↔ graph.ReachesAccepting := by
  constructor
  · intro hne
    obtain ⟨label, hlabel⟩ := List.exists_mem_of_ne_nil _ hne
    obtain ⟨state, hstate, haccept⟩ := mem_accepts_iff.mp hlabel
    exact ⟨state, h.mem_iff_reaches.mp (List.mem_of_getElem? hstate), haccept⟩
  · rintro ⟨state, hreaches, haccept⟩
    obtain ⟨label, hlabel⟩ := List.mem_iff_getElem?.mp (h.mem_iff_reaches.mpr hreaches)
    exact List.ne_nil_of_mem (mem_accepts_iff.mpr ⟨state, hlabel, haccept⟩)

/-- Every transition ends at a state.  An ε-automaton is made so; the rows of a table can name other
states. -/
def Automaton.InRange : Automaton → Prop
  | .nfa _ => True
  | .dfa machine => ∀ row ∈ machine.table, ∀ target ∈ row, target < machine.size

theorem Automaton.InRange.graph_closed (h : automaton.InRange) : automaton.graph.Closed := by
  cases automaton with
  | nfa machine => exact machine.graph_closed
  | dfa machine => exact Dfa.graph_closed h

/-- **The two transcripts.**  An automaton whose transitions end at states is listed.  A snapshot of
it writes the transcript of the listing, but for the last line end, exactly if the start reaches an
accepting state; if it reaches none, the snapshot writes nothing where the listing says so. -/
theorem Automaton.InRange.snapshot_transcript_iff (h : automaton.InRange) (tokens : String)
    (regex : Option String) (closure : ClosureMode) :
    ∃ listing, automaton.list = .ok listing ∧
      ((Snapshot.ofListing automaton.kind tokens regex closure listing).transcript ++ "\n" =
          listing.render .text false ↔ automaton.graph.ReachesAccepting) ∧
      (¬ automaton.graph.ReachesAccepting →
        (Snapshot.ofListing automaton.kind tokens regex closure listing).transcript ++ "(none)\n" =
          listing.render .text false) := by
  obtain ⟨states, hwalks, hlist⟩ := h.graph_closed.exists_list
  have hrecords := Snapshot.ofListing_records automaton.kind tokens regex closure
    (automaton.graph.listingOf states)
  have hiff := hwalks.accepts_ne_nil_iff
  have hnone : ¬ automaton.graph.ReachesAccepting →
      (Snapshot.ofListing automaton.kind tokens regex closure
        (automaton.graph.listingOf states)).transcript ++ "(none)\n" =
          (automaton.graph.listingOf states).render .text false := by
    intro hreaches
    exact hrecords.transcript_of_no_accepts (Decidable.not_not.mp (hreaches ∘ hiff.mp))
  refine ⟨automaton.graph.listingOf states, hlist, ⟨fun heq => ?_, fun hreaches => ?_⟩, hnone⟩
  · -- the two endings are different texts
    by_contra hreaches
    have hends := (String.append_right_inj _).mp (heq.trans (hnone hreaches).symm)
    exact absurd hends (by decide)
  · exact hrecords.transcript_of_accepts (hiff.mpr hreaches)

/-- A table in which the letter leads from the start, which does not accept, to a state that does
and stays there. -/
theorem Automaton.InRange.snapshot_transcript_of_loop :
    ∃ dfa : Dfa, dfa.alphabet = ['a'] ∧ dfa.table = #[[1], [1]] ∧ dfa.start = 0 ∧
      ∃ listing, (Automaton.dfa dfa).list = .ok listing ∧
        (Snapshot.ofListing .dfa "a" none .epsilon listing).transcript ++ "\n" =
          listing.render .text false := by
  let dfa : Dfa :=
    { alphabet := ['a']
      table := #[[1], [1]]
      subsets := #[.singleton 0, .singleton 1]
      accepting := .singleton 1
      start := 0
      dead := none
      alphabet_ascending := List.pairwise_singleton ..
      row_length := by decide
      subsets_size := rfl
      start_lt := by decide }
  have hrows : ∀ row ∈ dfa.table, ∀ target ∈ row, target < dfa.size := by decide
  have hrange : (Automaton.dfa dfa).InRange := hrows
  have hreaches : dfa.graph.ReachesAccepting :=
    ⟨1, (Graph.Reaches.start dfa.graph).of_target (by decide), by decide⟩
  obtain ⟨listing, hlist, hiff, -⟩ := hrange.snapshot_transcript_iff "a" none .epsilon
  exact ⟨dfa, rfl, rfl, rfl, listing, hlist, hiff.mpr hreaches⟩

/-- Two states without edges, the second of them accepting. -/
theorem snapshot_transcript_ne_of_unreached :
    ∃ nfa : Nfa, nfa.Sealed ∧ nfa.size = 2 ∧ nfa.start = 0 ∧ nfa.accept = 1 ∧
      ∃ listing, (Automaton.nfa nfa).list = .ok listing ∧
        (Snapshot.ofListing .nfa "a" none .epsilon listing).transcript = "\nStart: S0\nAccept: " ∧
        listing.render .text false = "\nStart: S0\nAccept: (none)\n" ∧
        (Snapshot.ofListing .nfa "a" none .epsilon listing).transcript ++ "\n" ≠
          listing.render .text false := by
  have hstates : Nfa.Arena.Built Nfa.Arena.empty.addState.2.addState.2 :=
    .addState (.addState .empty)
  exact ⟨_, ⟨_, 0, 1, hstates, rfl⟩, rfl, rfl, rfl, ⟨[0], [], []⟩, rfl, rfl, rfl, by decide⟩

end PatternAutomata
