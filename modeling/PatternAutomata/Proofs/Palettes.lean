import PatternAutomata.Listing.Written
import PatternAutomata.Proofs.Run.Tracing

/-!
# Colours do not change what is written

A colour is a sequence of an escape character, a bracket and parameters up to the letter `m`.  In a
coloured text such sequences stand around names, labels and marks, none of which can be taken for a
part of one.  So what is left of the coloured text without the sequences is the plain text, and the
line feeds of both are the same; this is kept when texts are put together.
-/

namespace PatternAutomata

namespace Text

variable {c : Char} {text rest parameters : List Char}

/-! ### Sequences -/

/-- The text without the sequences in it.  A sequence that has no end is none. -/
def withoutSequences : List Char → List Char
  | [] => []
  | '\x1b' :: '[' :: rest =>
    match _h : rest.dropWhile (· ≠ 'm') with
    | [] => '\x1b' :: '[' :: withoutSequences rest
    | _ :: behind => withoutSequences behind
  | c :: rest => c :: withoutSequences rest
termination_by text => text.length
decreasing_by
  · simp only [List.length_cons]
    omega
  · have hle := (List.dropWhile_suffix (l := rest) (· ≠ 'm')).length_le
    rw [_h, List.length_cons] at hle
    simp only [List.length_cons]
    omega
  · exact Nat.lt_succ_self _

theorem withoutSequences_sequence (h : 'm' ∉ parameters) (rest : List Char) :
    withoutSequences ('\x1b' :: '[' :: (parameters ++ 'm' :: rest)) = withoutSequences rest := by
  have hend : (parameters ++ 'm' :: rest).dropWhile (· ≠ 'm') = 'm' :: rest := by
    rw [List.dropWhile_append_of_pos]
    · simp
    · intro c hc
      simp only [ne_eq, decide_not, Bool.not_eq_eq_eq_not, Bool.not_true, decide_eq_false_iff_not]
      rintro rfl
      exact h hc
  rw [withoutSequences]
  split
  · next hnone =>
    rw [hend] at hnone
    cases hnone
  · next hsome =>
    rw [hend] at hsome
    cases hsome
    rfl

/-- A character begins no sequence unless it is an escape before a bracket. -/
theorem withoutSequences_cons (h : c ≠ '\x1b' ∨ rest.head? ≠ some '[') :
    withoutSequences (c :: rest) = c :: withoutSequences rest := by
  rw [withoutSequences]
  rintro more hc rfl
  rcases h with h | h
  · exact h hc
  · exact h rfl

/-- The text is one sequence, on one line. -/
def IsSequence (text : List Char) : Prop :=
  ∃ parameters, 'm' ∉ parameters ∧ '\n' ∉ parameters ∧
    text = '\x1b' :: '[' :: (parameters ++ ['m'])

/-- The text stays when sequences are taken off, whatever sequence or text without a bracket at its
start comes next. -/
def IsInert (text : List Char) : Prop :=
  ∀ rest, rest.head? ≠ some '[' → withoutSequences (text ++ rest) = text ++ withoutSequences rest

theorem IsSequence.withoutSequences_append (h : IsSequence text) (rest : List Char) :
    withoutSequences (text ++ rest) = withoutSequences rest := by
  obtain ⟨parameters, hend, -, rfl⟩ := h
  rw [List.cons_append, List.cons_append, List.append_assoc]
  exact withoutSequences_sequence hend rest

theorem IsSequence.head?_append (h : IsSequence text) (rest : List Char) :
    (text ++ rest).head? ≠ some '[' := by
  obtain ⟨parameters, -, -, rfl⟩ := h
  exact nofun

theorem IsSequence.newline_not_mem (h : IsSequence text) : '\n' ∉ text := by
  obtain ⟨parameters, -, hline, rfl⟩ := h
  simp [hline]

theorem withoutSequences_append (h : '\x1b' ∉ text) (rest : List Char) :
    withoutSequences (text ++ rest) = text ++ withoutSequences rest := by
  induction text with
  | nil => rfl
  | cons c text ih =>
    obtain ⟨hc, htext⟩ := List.ne_and_not_mem_of_not_mem_cons h
    rw [List.cons_append, withoutSequences_cons (.inl (Ne.symm hc)), ih htext]
    rfl

theorem isInert_of_not_mem (h : '\x1b' ∉ text) : IsInert text :=
  fun rest _ => withoutSequences_append h rest

/-- A single character is no sequence, even if it is an escape. -/
theorem isInert_singleton (c : Char) : IsInert [c] :=
  fun _ hrest => withoutSequences_cons (.inr hrest)

end Text

open Text

/-! ### Coloured texts -/

/-- The first text is the second with colours: the sequences apart they are the same, whatever comes
next, and they have the same line feeds. -/
structure IsColoring (colored plain : String) : Prop where
  append_eq : ∀ rest, withoutSequences (colored.toList ++ rest) =
    plain.toList ++ withoutSequences rest
  count_eq : colored.toList.count '\n' = plain.toList.count '\n'

/-- Every colour is a sequence, and so is the end of colours. -/
structure Palette.IsSequences (palette : Palette) : Prop where
  state : IsSequence palette.state.toList
  symbol : IsSequence palette.symbol.toList
  accept : IsSequence palette.accept.toList
  dim : IsSequence palette.dim.toList
  reset : IsSequence palette.reset.toList

theorem Palette.ansi_isSequences : Palette.ansi.IsSequences where
  state := ⟨['3', '4'], by decide, by decide, by decide⟩
  symbol := ⟨['3', '2'], by decide, by decide, by decide⟩
  accept := ⟨['1', ';', '3', '4'], by decide, by decide, by decide⟩
  dim := ⟨['2'], by decide, by decide, by decide⟩
  reset := ⟨['0'], by decide, by decide, by decide⟩

namespace IsColoring

variable {colored plain colored' plain' text start : String} {palette : Palette}

theorem withoutSequences_eq (h : IsColoring colored plain) :
    withoutSequences colored.toList = plain.toList := by
  have hrest := h.append_eq []
  rwa [List.append_nil, withoutSequences, List.append_nil] at hrest

theorem append (h : IsColoring colored plain) (h' : IsColoring colored' plain') :
    IsColoring (colored ++ colored') (plain ++ plain') where
  append_eq rest := by
    rw [String.toList_append, String.toList_append, List.append_assoc, h.append_eq, h'.append_eq,
      List.append_assoc]
  count_eq := by
    rw [String.toList_append, String.toList_append, List.count_append, List.count_append,
      h.count_eq, h'.count_eq]

/-- A text without escapes is not coloured. -/
theorem self (h : '\x1b' ∉ text.toList) : IsColoring text text where
  append_eq := withoutSequences_append h
  count_eq := rfl

/-- A text between a colour and the end of colours. -/
theorem paint (hpalette : palette.IsSequences) (hstart : IsSequence start.toList)
    (htext : IsInert text.toList) :
    IsColoring (palette.paint start text) (Palette.plain.paint "" text) where
  append_eq rest := by
    have hreset := hpalette.reset
    rw [Palette.paint_plain, Palette.paint, String.toList_append, String.toList_append,
      List.append_assoc, List.append_assoc, hstart.withoutSequences_append,
      htext _ (hreset.head?_append rest), hreset.withoutSequences_append]
  count_eq := by
    have hbefore := List.count_eq_zero.mpr hstart.newline_not_mem
    have hafter := List.count_eq_zero.mpr hpalette.reset.newline_not_mem
    rw [Palette.paint_plain, Palette.paint, String.toList_append, String.toList_append,
      List.count_append, List.count_append, hbefore, hafter, Nat.zero_add, Nat.add_zero]

theorem join {α : Type} {items : List α} {f g : α → String}
    (h : ∀ item ∈ items, IsColoring (f item) (g item)) :
    IsColoring (String.join (items.map f)) (String.join (items.map g)) := by
  induction items with
  | nil =>
    rw [List.map_nil, List.map_nil, String.join_nil]
    exact self (by decide)
  | cons item items ih =>
    obtain ⟨hitem, hitems⟩ := List.forall_mem_cons.mp h
    rw [List.map_cons, List.map_cons, String.join_cons, String.join_cons]
    exact hitem.append (ih hitems)

theorem intercalate {α : Type} {items : List α} {f g : α → String} {separator : String}
    (hseparator : '\x1b' ∉ separator.toList)
    (h : ∀ item ∈ items, IsColoring (f item) (g item)) :
    IsColoring (separator.intercalate (items.map f)) (separator.intercalate (items.map g)) := by
  induction items with
  | nil =>
    rw [List.map_nil, List.map_nil, String.intercalate_nil]
    exact self (by decide)
  | cons item items ih =>
    obtain ⟨hitem, hitems⟩ := List.forall_mem_cons.mp h
    cases items with
    | nil =>
      rw [List.map_singleton, List.map_singleton, String.intercalate_singleton,
        String.intercalate_singleton]
      exact hitem
    | cons next more =>
      simp only [List.map_cons, String.intercalate_cons_cons] at ih ⊢
      exact (hitem.append (self hseparator)).append (ih hitems)

end IsColoring

/-! ### Listings -/

section

variable {palette : Palette}

theorem escape_not_mem_toString (n : Nat) : '\x1b' ∉ (toString n).toList := by
  rw [Nat.toString_eq_ofList_toDigits, String.toList_ofList]
  intro hmem
  exact absurd (Nat.isDigit_of_mem_toDigits (by decide) (by decide) hmem) (by decide)

theorem isInert_numbered {before : String} (h : '\x1b' ∉ before.toList) (n : Nat) :
    IsInert (before ++ toString n).toList := by
  apply isInert_of_not_mem
  rw [String.toList_append]
  intro hmem
  rcases List.mem_append.mp hmem with hmem | hmem
  · exact h hmem
  · exact escape_not_mem_toString n hmem

namespace Palette.IsSequences

variable (h : palette.IsSequences)

include h

theorem name (label : Nat) :
    IsColoring (palette.paint palette.state (Listing.name label))
      (Palette.plain.paint Palette.plain.state (Listing.name label)) :=
  .paint h h.state (isInert_numbered (by decide) label)

theorem accepting (label : Nat) :
    IsColoring (palette.paint palette.accept (Listing.name label))
      (Palette.plain.paint Palette.plain.accept (Listing.name label)) :=
  .paint h h.accept (isInert_numbered (by decide) label)

theorem mark {mark : String} (hmark : '\x1b' ∉ mark.toList) :
    IsColoring (palette.paint palette.dim mark) (Palette.plain.paint Palette.plain.dim mark) :=
  .paint h h.dim (isInert_of_not_mem hmark)

theorem label (label : Label) :
    IsColoring (palette.paint palette.symbol label.text)
      (Palette.plain.paint Palette.plain.symbol label.text) := by
  apply IsColoring.paint h h.symbol
  rw [Label.text, String.toList_ofList]
  cases label with
  | symbol c => exact isInert_singleton c
  | epsilon => exact isInert_singleton epsilonSign

theorem edgeLine (edge : ListedEdge) :
    IsColoring (Listing.edgeLine palette edge) (Listing.edgeLine .plain edge) := by
  have hblank : IsColoring " " " " := .self (by decide)
  have hshaft := h.mark (by decide : '\x1b' ∉ "--".toList)
  have hhead := h.mark (by decide : '\x1b' ∉ "-->".toList)
  have hsource := (h.name edge.source).append hblank
  have hlabel := ((hsource.append hshaft).append hblank).append (h.label edge.label)
  exact (((hlabel.append hblank).append hhead).append hblank).append (h.name edge.target)

theorem acceptNames (accepts : List Nat) :
    IsColoring (Listing.acceptNames palette accepts) (Listing.acceptNames .plain accepts) := by
  unfold Listing.acceptNames
  split
  · exact h.mark (by decide)
  · exact .intercalate (by decide) fun label _ => h.accepting label

theorem transcript (listing : Listing) :
    IsColoring (listing.transcript palette) (listing.transcript .plain) := by
  have hend : IsColoring "\n" "\n" := .self (by decide)
  have hstart : IsColoring "Start: " "Start: " := .self (by decide)
  have haccept : IsColoring "Accept: " "Accept: " := .self (by decide)
  have hedges : IsColoring
      (String.join (listing.edges.map fun edge => Listing.edgeLine palette edge ++ "\n"))
      (String.join (listing.edges.map fun edge => Listing.edgeLine .plain edge ++ "\n")) :=
    .join fun edge _ => (h.edgeLine edge).append hend
  have hsecond := ((hedges.append hend).append hstart).append (h.name listing.start)
  exact (((hsecond.append hend).append haccept).append (h.acceptNames listing.accepts)).append hend

/-! ### Traces -/

theorem active (verbosity : Verbosity) (active : Active) :
    IsColoring (active.text palette verbosity) (active.text .plain verbosity) := by
  cases active with
  | state id => exact .paint h h.state (isInert_numbered (by decide) id)
  | states set =>
    cases verbosity with
    | normal =>
      have hnumber : IsColoring s!"{set.size} " s!"{set.size} " :=
        (IsColoring.self (escape_not_mem_toString set.size)).append (.self (by decide))
      refine hnumber.append (.self ?_)
      split <;> decide
    | verbose =>
      have hids : IsColoring
          (",".intercalate (set.ids.map fun id => palette.paint palette.state s!"{id}"))
          (",".intercalate (set.ids.map fun id =>
            Palette.plain.paint Palette.plain.state s!"{id}")) :=
        .intercalate (by decide) fun id _ =>
          .paint h h.state (isInert_of_not_mem (escape_not_mem_toString id))
      exact (IsColoring.append (.self (by decide)) hids).append (.self (by decide))

theorem eventStart (position : Nat) (symbol : Char) :
    IsColoring (eventStart palette position symbol) (eventStart .plain position symbol) := by
  have hblank : IsColoring " " " " := .self (by decide)
  have hblanks : IsColoring "  " "  " := .self (by decide)
  have hnumber : IsColoring (padNumber position) (padNumber position) := by
    apply IsColoring.self
    rw [padNumber, String.toList_append, String.toList_ofList]
    intro hmem
    rcases List.mem_append.mp hmem with hmem | hmem
    · exact absurd (List.eq_of_mem_replicate hmem) (by decide)
    · exact escape_not_mem_toString position hmem
  have hsymbol : IsColoring (palette.paint palette.symbol symbol.toString)
      (Palette.plain.paint Palette.plain.symbol symbol.toString) := by
    apply IsColoring.paint h h.symbol
    rw [Char.toString_eq_singleton, String.toList_singleton]
    exact isInert_singleton symbol
  have harrow := h.mark (by decide : '\x1b' ∉ "->".toList)
  exact ((((hnumber.append hblanks).append hsymbol).append hblank).append harrow).append hblank

/-- A line of a trace, whatever happened. -/
theorem line (verbosity : Verbosity) (event : Event) :
    IsColoring (event.line palette verbosity) (event.line .plain verbosity) := by
  cases event with
  | start active =>
    have hkind (kind : AutomatonKind) : '\x1b' ∉ (kind.text ++ " start").toList := by
      cases kind <;> decide
    have hmark := h.mark (hkind active.kind)
    exact (hmark.append (.self (by decide))).append (h.active verbosity active)
  | step position symbol active =>
    exact (h.eventStart position symbol).append (h.active verbosity active)
  | stuck position symbol => exact (h.eventStart position symbol).append (.self (by decide))
  | finish verdict =>
    cases verdict with
    | accepted =>
      exact .paint h h.accept (isInert_of_not_mem (by decide : '\x1b' ∉ "accepted".toList))
    | rejected => exact IsColoring.self (by decide : '\x1b' ∉ "rejected".toList)

end Palette.IsSequences

end

/-! ### Automata -/

/-- **Colours.**  The listing of an automaton that can be made, written with colours, is the listing
without colours once the sequences are taken off; and so is every line that a tracer writes of a run
on any input, whether it names the active states or counts them.  The numbers of lines are the
same. -/
theorem Automaton.Built.colors_change_nothing {automaton : Automaton} (h : automaton.Built) :
    (∃ listing, automaton.list = .ok listing ∧
      withoutSequences (listing.render .text true).toList = (listing.render .text false).toList ∧
      (listing.render .text true).toList.count '\n' =
        (listing.render .text false).toList.count '\n') ∧
    ∀ verbosity input, ∃ accepted colored plain,
      automaton.runWith (lineTracer .ansi verbosity) [] input = .ok (accepted, colored) ∧
      automaton.runWith (lineTracer .plain verbosity) [] input = .ok (accepted, plain) ∧
      colored.map (fun line => withoutSequences line.toList) = plain.map String.toList ∧
      colored.map (fun line => line.toList.count '\n') =
        plain.map (fun line => line.toList.count '\n') := by
  have hansi := Palette.ansi_isSequences
  constructor
  · obtain ⟨states, -, hlist⟩ := h.graph_closed.exists_list
    have htranscript := hansi.transcript (automaton.graph.listingOf states)
    exact ⟨_, hlist, htranscript.withoutSequences_eq, htranscript.count_eq⟩
  · intro verbosity input
    obtain ⟨accepted, haccepts, events, htrace⟩ := exists_gives h.graph_closed input
    -- the same events are told to both tracers
    have hlines palette : automaton.runWith (lineTracer palette verbosity) [] input =
        .ok (accepted, (events ++ [Event.finish (.ofBool accepted)]).map
          (Event.line palette verbosity)) := by
      rw [runWith_eq, htrace, haccepts, ok_bind, ok_bind, foldl_tell_lineTracer, List.nil_append]
      rfl
    refine ⟨accepted, _, _, hlines .ansi, hlines .plain, ?_, ?_⟩
    · rw [List.map_map, List.map_map]
      exact List.map_congr_left fun event _ => (hansi.line verbosity event).withoutSequences_eq
    · rw [List.map_map, List.map_map]
      exact List.map_congr_left fun event _ => (hansi.line verbosity event).count_eq

/-- An automaton with several active states at a time, and with an input on which it gets stuck. -/
theorem Automaton.Built.colors_change_nothing_of_compile :
    ∃ compiled, compile "(a|b)*c" ⟨.nfa, .epsilon⟩ = .ok compiled ∧ compiled.automaton.Built ∧
      (∃ listing, compiled.automaton.list = .ok listing ∧
        withoutSequences (listing.render .text true).toList = (listing.render .text false).toList ∧
        (listing.render .text true).toList.count '\n' =
          (listing.render .text false).toList.count '\n') ∧
      ∃ accepted colored plain,
        compiled.automaton.runWith (lineTracer .ansi .verbose) [] ['b', 'c', 'a'] =
          .ok (accepted, colored) ∧
        compiled.automaton.runWith (lineTracer .plain .verbose) [] ['b', 'c', 'a'] =
          .ok (accepted, plain) ∧
        colored.map (fun line => withoutSequences line.toList) = plain.map String.toList ∧
        colored.map (fun line => line.toList.count '\n') =
          plain.map (fun line => line.toList.count '\n') := by
  have hcheck : check "(a|b)*c".toList = [] := by decide
  obtain ⟨compiled, hcompiled, hbuilt⟩ := exists_built_of_check hcheck ⟨.nfa, .epsilon⟩
  obtain ⟨hlisting, hlines⟩ := hbuilt.colors_change_nothing
  exact ⟨compiled, hcompiled, hbuilt, hlisting, hlines .verbose ['b', 'c', 'a']⟩

end PatternAutomata
