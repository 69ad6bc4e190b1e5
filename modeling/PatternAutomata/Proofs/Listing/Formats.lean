import Mathlib.Tactic.TFAE
import PatternAutomata.Proofs.Json.Unambiguous
import PatternAutomata.Proofs.Listing.Renaming
import PatternAutomata.Proofs.Listing.Spanning
import PatternAutomata.Proofs.Snapshot.Transcripts

/-!
# What the formats of a listing tell

The transcript, the drawing and the JSON of a listing are put together from names, labels and marks
in such a way that each can be taken apart again.  The drawing and the JSON tell the number of
states, the edges and the accepting states.  The transcript does not tell the number of states, but
the edges do.  So any two listings that are written the same in one format are written the same in
the others, and they differ at most in the states that they list.
-/

namespace PatternAutomata

namespace Listing

variable {listing other : Listing} {rest more : List Char}

/-! ### Names and labels -/

theorem toList_name (label : Nat) : (name label).toList = 'S' :: Nat.toDigits 10 label := by
  have hname : name label = "S" ++ toString label := rfl
  simp [hname]

theorem delimited_name : Delimited (fun _ => True) NoDigit fun label => (name label).toList := by
  intro label label' rest more _ _ hrest hmore h
  simp only [toList_name, List.cons_append] at h
  exact delimited_toDigits trivial trivial hrest hmore (List.cons.inj h).2

theorem delimited_label : Delimited Label.IsWritable (fun _ => True) Label.chars := by
  intro label label' rest more hlabel hlabel' _ _ h
  have hlength : label.chars.length = label'.chars.length := by cases label <;> cases label' <;> rfl
  obtain ⟨hchars, hrest⟩ := List.append_inj h hlength
  have hparse := congrArg Label.parse? hchars
  rw [Label.parse?_chars hlabel, Label.parse?_chars hlabel'] at hparse
  exact ⟨Option.some.inj hparse, hrest⟩

/-- All labels can be read back. -/
def Writable (listing : Listing) : Prop :=
  ∀ edge ∈ listing.edges, edge.label.IsWritable

/-! ### Transcripts -/

/-- The line of an edge, with its end. -/
def lineOf (edge : ListedEdge) : List Char :=
  (name edge.source).toList ++ (" -- ".toList ++ (edge.label.chars ++ (" --> ".toList
    ++ ((name edge.target).toList ++ ['\n']))))

theorem delimited_lineOf :
    Delimited (fun edge : ListedEdge => edge.label.IsWritable) (fun _ => True) lineOf := by
  intro edge edge' rest more hlabel hlabel' _ _ h
  obtain ⟨source, label, target⟩ := edge
  obtain ⟨source', label', target'⟩ := edge'
  have hblank := @noDigit_append " -- ".toList (by decide)
  have hend := @noDigit_append ['\n'] (by decide)
  simp only [lineOf, List.append_assoc] at h
  obtain ⟨rfl, hshaft⟩ := delimited_name trivial trivial (hblank _) (hblank _) h
  obtain ⟨rfl, hhead⟩ := delimited_label hlabel hlabel' trivial trivial
    (List.append_cancel_left hshaft)
  obtain ⟨rfl, hrest⟩ := delimited_name trivial trivial (hend _) (hend _)
    (List.append_cancel_left hhead)
  exact ⟨rfl, List.append_cancel_left hrest⟩

theorem delimited_lines : Delimited (∀ edge ∈ ·, edge.label.IsWritable)
    (fun rest => rest.head? = some '\n') (List.flatMap lineOf) := by
  refine delimited_lineOf.flatMap (fun _ _ => trivial) (fun _ _ => trivial) ?_
  intro edge rest _ h
  rw [lineOf, toList_name] at h
  cases h

/-- The names of accepting states behind the first one. -/
def moreNames (accepts : List Nat) : List Char :=
  accepts.flatMap fun label => ", ".toList ++ (name label).toList

theorem noDigit_moreNames (accepts : List Nat) : NoDigit (moreNames accepts ++ []) := by
  cases accepts with
  | nil => exact nofun
  | cons label accepts =>
    rw [moreNames, List.flatMap_cons, List.append_assoc, List.append_assoc]
    exact noDigit_append (by decide) _

theorem delimited_moreNames : Delimited (fun _ => True) (· = []) moreNames := by
  have hname : Delimited (fun _ => True) NoDigit
      fun label => ", ".toList ++ (name label).toList := by
    intro label label' rest more _ _ hrest hmore h
    simp only [List.append_assoc] at h
    exact delimited_name trivial trivial hrest hmore (List.append_cancel_left h)
  refine (hname.flatMap (fun label rest => ?_) ?_ ?_).mono fun _ _ _ _ => trivial
  · rw [List.append_assoc]
    exact noDigit_append (by decide) _
  · rintro rest rfl
    exact nofun
  · rintro label rest - h
    simp at h

theorem toList_intercalate_name (label : Nat) (accepts : List Nat) :
    (", ".intercalate ((label :: accepts).map name)).toList =
      (name label).toList ++ moreNames accepts := by
  induction accepts generalizing label with
  | nil => exact (List.append_nil _).symm
  | cons next accepts ih =>
    have hnames : moreNames (next :: accepts) =
        (", ".toList ++ (name next).toList) ++ moreNames accepts := List.flatMap_cons
    rw [List.map_cons, List.map_cons, String.intercalate_cons_cons, ← List.map_cons,
      String.toList_append, String.toList_append, ih, hnames]
    simp only [List.append_assoc]

theorem cons_eq_of_intercalate_name_eq {label label' : Nat} {accepts accepts' : List Nat}
    (h : ", ".intercalate ((label :: accepts).map name) =
      ", ".intercalate ((label' :: accepts').map name)) :
    label :: accepts = label' :: accepts' := by
  have hchars := congrArg (String.toList · ++ []) h
  simp only [toList_intercalate_name, List.append_assoc] at hchars
  obtain ⟨rfl, hmore⟩ := delimited_name trivial trivial (noDigit_moreNames accepts)
    (noDigit_moreNames accepts') hchars
  obtain ⟨rfl, -⟩ := delimited_moreNames trivial trivial rfl rfl hmore
  rfl

/-- Names do not say that there are none. -/
theorem none_ne_intercalate_name (label : Nat) (accepts : List Nat) :
    "(none)" ≠ ", ".intercalate ((label :: accepts).map name) := by
  intro h
  have hchars := congrArg String.toList h
  rw [toList_intercalate_name, toList_name] at hchars
  exact absurd (List.cons.inj hchars).1 (by decide)

theorem acceptNames_injective : Function.Injective (acceptNames .plain) := by
  intro accepts accepts' h
  rw [acceptNames_plain, acceptNames_plain] at h
  cases accepts with
  | nil =>
    cases accepts' with
    | nil => rfl
    | cons label' accepts' => exact absurd h (none_ne_intercalate_name label' accepts')
  | cons label accepts =>
    cases accepts' with
    | nil => exact absurd h.symm (none_ne_intercalate_name label accepts)
    | cons label' accepts' =>
      rw [if_neg nofun, if_neg nofun] at h
      exact cons_eq_of_intercalate_name_eq h

theorem toList_edgeLine (edge : ListedEdge) :
    (edgeLine .plain edge ++ "\n").toList = lineOf edge := by
  simp [edgeLine, lineOf, Palette.paint, Palette.plain, Label.text]

theorem toList_transcript (listing : Listing) :
    (listing.transcript .plain).toList =
      listing.edges.flatMap lineOf ++ ("\nStart: S0\nAccept: ".toList
        ++ ((acceptNames .plain listing.accepts).toList ++ ['\n'])) := by
  have hlines : (String.join (listing.edges.map fun edge => edgeLine .plain edge ++ "\n")).toList =
      listing.edges.flatMap lineOf := by
    rw [String.toList_join, List.flatMap_map]
    exact List.flatMap_congr fun edge _ => toList_edgeLine edge
  have hstart : "\n" ++ "Start: " ++ name 0 ++ "\n" ++ "Accept: " = "\nStart: S0\nAccept: " := by
    decide
  have hpreamble : listing.preamble =
      String.join (listing.edges.map fun edge => edgeLine .plain edge ++ "\n")
        ++ "\nStart: S0\nAccept: " := by
    rw [← hstart]
    simp only [preamble, start, String.append_assoc]
  rw [transcript_eq, hpreamble, String.toList_append, String.toList_append, String.toList_append,
    hlines, List.append_assoc, List.append_assoc]
  rfl

/-- A transcript tells the edges and the accepting states. -/
theorem eq_of_transcript_eq (h : listing.Writable) (h' : other.Writable)
    (htranscript : listing.transcript .plain = other.transcript .plain) :
    listing.edges = other.edges ∧ listing.accepts = other.accepts := by
  have hchars := congrArg String.toList htranscript
  rw [toList_transcript, toList_transcript] at hchars
  obtain ⟨hedges, hrest⟩ := delimited_lines h h' rfl rfl hchars
  have hnames := List.append_inj_left' (List.append_cancel_left hrest) rfl
  exact ⟨hedges, acceptNames_injective (String.toList_inj.mp hnames)⟩

/-! ### Drawings -/

/-- The line of a state in a drawing, by its label and whether it accepts. -/
def drawnState (state : Nat × Bool) : List Char :=
  "  S".toList ++ (Nat.toDigits 10 state.1 ++ (" [shape=".toList
    ++ ((if state.2 then "doublecircle" else "circle").toList ++ "];\n".toList)))

/-- The line of an edge in a drawing. -/
def drawnEdge (edge : ListedEdge) : List Char :=
  "  S".toList ++ (Nat.toDigits 10 edge.source ++ (" -> S".toList
    ++ (Nat.toDigits 10 edge.target ++ (" [label=\"".toList
      ++ (edge.label.chars ++ "\"];\n".toList)))))

theorem delimited_drawnState : Delimited (fun _ => True) (fun _ => True) drawnState := by
  intro state state' rest more _ _ _ _ h
  obtain ⟨label, accepts⟩ := state
  obtain ⟨label', accepts'⟩ := state'
  have hblank := @noDigit_append " [shape=".toList (by decide)
  simp only [drawnState, List.append_assoc] at h
  obtain ⟨rfl, hattributes⟩ := delimited_toDigits trivial trivial (hblank _) (hblank _)
    (List.append_cancel_left h)
  have hshape := List.append_cancel_left hattributes
  cases accepts <;> cases accepts'
  · exact ⟨rfl, List.append_cancel_left (List.append_cancel_left hshape)⟩
  · simp at hshape
  · simp at hshape
  · exact ⟨rfl, List.append_cancel_left (List.append_cancel_left hshape)⟩

theorem delimited_drawnEdge :
    Delimited (fun edge : ListedEdge => edge.label.IsWritable) (fun _ => True) drawnEdge := by
  intro edge edge' rest more hlabel hlabel' _ _ h
  obtain ⟨source, label, target⟩ := edge
  obtain ⟨source', label', target'⟩ := edge'
  have harrow := @noDigit_append " -> S".toList (by decide)
  have hblank := @noDigit_append " [label=\"".toList (by decide)
  simp only [drawnEdge, List.append_assoc] at h
  obtain ⟨rfl, hshaft⟩ := delimited_toDigits trivial trivial (harrow _) (harrow _)
    (List.append_cancel_left h)
  obtain ⟨rfl, hattributes⟩ := delimited_toDigits trivial trivial (hblank _) (hblank _)
    (List.append_cancel_left hshaft)
  obtain ⟨rfl, hrest⟩ := delimited_label hlabel hlabel' trivial trivial
    (List.append_cancel_left hattributes)
  exact ⟨rfl, List.append_cancel_left hrest⟩

/-- No state is drawn next. -/
def NoDrawnState (text : List Char) : Prop :=
  ∀ state rest, text ≠ drawnState state ++ rest

theorem noDrawnState_edges (edges : List ListedEdge) :
    NoDrawnState (edges.flatMap drawnEdge ++ "\x7d\n".toList) := by
  intro state rest h
  cases edges with
  | nil => simp [drawnState] at h
  | cons edge edges =>
    have harrow := @noDigit_append " -> S".toList (by decide)
    have hblank := @noDigit_append " [shape=".toList (by decide)
    simp only [List.flatMap_cons, drawnEdge, drawnState, List.append_assoc] at h
    obtain ⟨-, hrest⟩ := delimited_toDigits trivial trivial (harrow _) (hblank _)
      (List.append_cancel_left h)
    simp at hrest

theorem delimited_drawnStates :
    Delimited (fun _ => True) NoDrawnState (List.flatMap drawnState) := by
  refine (delimited_drawnState.flatMap (fun _ _ => trivial) (fun _ _ => trivial) ?_).mono
    fun _ _ _ _ => trivial
  exact fun state rest _ h => h state rest rfl

theorem delimited_drawnEdges : Delimited (∀ edge ∈ ·, edge.label.IsWritable)
    (· = "\x7d\n".toList) (List.flatMap drawnEdge) := by
  refine delimited_drawnEdge.flatMap (fun _ _ => trivial) (fun _ _ => trivial) ?_
  intro edge rest _ h
  simp [drawnEdge] at h

/-- The states of a listing as they are drawn. -/
def drawn (listing : Listing) : List (Nat × Bool) :=
  (List.range listing.size).map fun label => (label, decide (label ∈ listing.accepts))

theorem toList_dotState (listing : Listing) (label : Nat) :
    (listing.dotState label).toList =
      drawnState (label, decide (label ∈ listing.accepts)) := by
  have hline : listing.dotState label = "  S" ++ toString label ++ " [shape="
      ++ (if label ∈ listing.accepts then "doublecircle" else "circle") ++ "];\n" := rfl
  simp [hline, drawnState]

theorem toList_dotEdge (edge : ListedEdge) : (dotEdge edge).toList = drawnEdge edge := by
  have hline : dotEdge edge = "  S" ++ toString edge.source ++ " -> S" ++ toString edge.target
      ++ " [label=\"" ++ edge.label.text ++ "\"];\n" := rfl
  simp [hline, drawnEdge, Label.text]

theorem toList_dot (listing : Listing) :
    listing.dot.toList = "digraph G \x7b\n  rankdir=LR;\n".toList
      ++ (listing.drawn.flatMap drawnState
        ++ (listing.edges.flatMap drawnEdge ++ "\x7d\n".toList)) := by
  have hstates : (String.join ((List.range listing.size).map listing.dotState)).toList =
      listing.drawn.flatMap drawnState := by
    rw [String.toList_join, List.flatMap_map, drawn, List.flatMap_map]
    exact List.flatMap_congr fun label _ => toList_dotState listing label
  have hedges : (String.join (listing.edges.map dotEdge)).toList =
      listing.edges.flatMap drawnEdge := by
    rw [String.toList_join, List.flatMap_map]
    exact List.flatMap_congr fun edge _ => toList_dotEdge edge
  have happend (first second third last : String) : (first ++ second ++ third ++ last).toList =
      first.toList ++ (second.toList ++ (third.toList ++ last.toList)) := by
    simp only [String.toList_append, List.append_assoc]
  unfold dot
  rw [happend, hstates, hedges]

/-- A drawing tells the number of states, which of them accept, and the edges. -/
theorem eq_of_dot_eq (h : listing.Writable) (h' : other.Writable) (hdot : listing.dot = other.dot) :
    listing.size = other.size ∧ listing.edges = other.edges ∧
      ∀ label < listing.size, label ∈ listing.accepts ↔ label ∈ other.accepts := by
  have hchars := congrArg String.toList hdot
  rw [toList_dot, toList_dot] at hchars
  obtain ⟨hstates, hrest⟩ := delimited_drawnStates trivial trivial (noDrawnState_edges _)
    (noDrawnState_edges _) (List.append_cancel_left hchars)
  obtain ⟨hedges, -⟩ := delimited_drawnEdges h h' rfl rfl hrest
  have hsize : listing.size = other.size := by
    simpa [drawn] using congrArg List.length hstates
  refine ⟨hsize, hedges, fun label hlabel => ?_⟩
  rw [drawn, drawn, ← hsize, List.map_inj_left] at hstates
  have hdecide := (Prod.mk.inj (hstates label (List.mem_range.mpr hlabel))).2
  exact decide_eq_decide.mp hdecide

/-! ### JSON -/

theorem eq_of_map_eq_map {α β : Type} {f : α → β} {xs ys : List α}
    (hinj : ∀ a ∈ xs, ∀ b ∈ ys, f a = f b → a = b) (h : xs.map f = ys.map f) : xs = ys := by
  induction xs generalizing ys with
  | nil => exact (List.map_eq_nil_iff.mp h.symm).symm
  | cons a xs ih =>
    cases ys with
    | nil => cases h
    | cons b ys =>
      obtain ⟨hab, hrest⟩ := List.cons.inj h
      have hsame : a = b := hinj a (List.mem_cons_self ..) b (List.mem_cons_self ..) hab
      have hlists : xs = ys := by
        refine ih (fun x hx y hy => ?_) hrest
        exact hinj x (List.mem_cons_of_mem _ hx) y (List.mem_cons_of_mem _ hy)
      rw [hsame, hlists]

/-- The JSON of a listing tells the number of states, the edges and the accepting states. -/
theorem eq_of_toJson_eq (h : listing.Writable) (h' : other.Writable)
    (hjson : listing.toJson = other.toJson) :
    listing.size = other.size ∧ listing.edges = other.edges ∧ listing.accepts = other.accepts := by
  simp only [toJson, Json.Value.object.injEq, Json.Value.number.injEq, Json.Value.list.injEq,
    List.cons.injEq, Prod.mk.injEq, true_and, and_true] at hjson
  obtain ⟨hsize, -, haccepts, hedges⟩ := hjson
  refine ⟨hsize, eq_of_map_eq_map ?_ hedges, List.map_injective_iff.mpr ?_ haccepts⟩
  · intro edge hedge edge' hedge' heq
    obtain ⟨source, label, target⟩ := edge
    obtain ⟨source', label', target'⟩ := edge'
    simp only [Json.Value.object.injEq, Json.Value.number.injEq, Json.Value.text.injEq,
      List.cons.injEq, Prod.mk.injEq, true_and, and_true] at heq
    obtain ⟨rfl, htext, rfl⟩ := heq
    have hchars := congrArg (· ++ []) (String.ofList_injective htext)
    obtain ⟨rfl, -⟩ := delimited_label (h _ hedge) (h' _ hedge') trivial trivial hchars
    rfl
  · exact fun label label' heq => Json.Value.number.inj heq

end Listing

/-! ### Formats -/

/-- **The formats of a listing.**  Take the listings of any two graphs, with labels that can be read
back.  They have the same transcript if and only if they have the same drawing, if and only if they
have the same JSON, on many lines or on one, and if and only if they have the same number of states,
the same edges in the same order and the same accepting states. -/
theorem Graph.formats_tfae {graph graph' : Graph} {listing listing' : Listing}
    (h : graph.list = .ok listing) (h' : graph'.list = .ok listing')
    (hlabels : listing.Writable) (hlabels' : listing'.Writable) :
    [listing.render .text false = listing'.render .text false,
      listing.render .dot false = listing'.render .dot false,
      listing.render .json false = listing'.render .json false,
      listing.toJson.render .compact = listing'.toJson.render .compact,
      listing.size = listing'.size ∧ listing.edges = listing'.edges ∧
        listing.accepts = listing'.accepts].TFAE := by
  have hrender (hsame : listing.size = listing'.size ∧ listing.edges = listing'.edges ∧
      listing.accepts = listing'.accepts) (format : ListingFormat) :
      listing.render format false = listing'.render format false := by
    obtain ⟨states, edges, accepts⟩ := listing
    obtain ⟨hsize, rfl, rfl⟩ := hsame
    exact Listing.render_eq hsize format false
  tfae_have 1 → 5 := by
    intro htext
    obtain ⟨hedges, haccepts⟩ := Listing.eq_of_transcript_eq hlabels hlabels' htext
    exact ⟨size_eq_of_edges_eq h h' hedges, hedges, haccepts⟩
  tfae_have 2 → 5 := by
    intro hdot
    obtain ⟨hsize, hedges, haccepts⟩ := Listing.eq_of_dot_eq hlabels hlabels' hdot
    exact ⟨hsize, hedges, accepts_eq_of_mem_iff h h' hsize haccepts⟩
  tfae_have 3 → 5 := by
    intro hjson
    have hpretty := (Json.Layout.ofChoice_isBlank true).render_injective
    exact Listing.eq_of_toJson_eq hlabels hlabels' (hpretty ((String.append_left_inj _).mp hjson))
  tfae_have 4 → 5 := by
    intro hjson
    have hcompact := (Json.Layout.ofChoice_isBlank false).render_injective
    exact Listing.eq_of_toJson_eq hlabels hlabels' (hcompact hjson)
  tfae_have 5 → 1 := fun hsame => hrender hsame .text
  tfae_have 5 → 2 := fun hsame => hrender hsame .dot
  tfae_have 5 → 3 := fun hsame => hrender hsame .json
  tfae_have 5 → 4 := by
    rintro ⟨hsize, hedges, haccepts⟩
    simp only [Listing.toJson, Listing.start, hsize, hedges, haccepts]
  tfae_finish

/-- Two graphs with the names of two states exchanged; each has an edge that reads nothing. -/
theorem Graph.formats_tfae_of_swap :
    ∃ (first second : Graph) (listing listing' : Listing),
      first.list = .ok listing ∧ second.list = .ok listing' ∧ listing.Writable ∧ listing'.Writable ∧
        listing.states = [0, 2, 1] ∧ listing'.states = [0, 1, 2] ∧
        [listing.render .text false = listing'.render .text false,
          listing.render .dot false = listing'.render .dot false,
          listing.render .json false = listing'.render .json false,
          listing.toJson.render .compact = listing'.toJson.render .compact,
          listing.size = listing'.size ∧ listing.edges = listing'.edges ∧
            listing.accepts = listing'.accepts].TFAE := by
  let first : Listing :=
    ⟨[0, 1, 2], [⟨0, .symbol 'a', 2⟩, ⟨0, .epsilon, 1⟩, ⟨2, .symbol 'b', 0⟩], [1]⟩
  let second : Listing :=
    ⟨[0, 1, 2], [⟨0, .symbol 'a', 1⟩, ⟨0, .epsilon, 2⟩, ⟨1, .symbol 'b', 0⟩], [2]⟩
  have hfirst : first.graph.list = .ok ⟨[0, 2, 1], second.edges, [2]⟩ := rfl
  have hsecond : second.graph.list = .ok second := rfl
  have hlabels : second.Writable := by
    simp [second, Listing.Writable, Label.IsWritable, isSymbol]
  exact ⟨first.graph, second.graph, _, _, hfirst, hsecond, hlabels, hlabels, rfl, rfl,
    Graph.formats_tfae hfirst hsecond hlabels hlabels⟩

end PatternAutomata
