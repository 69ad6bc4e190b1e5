import PatternAutomata.CommandLine.Outcome
import PatternAutomata.Proofs.Run.Tables
import PatternAutomata.Proofs.Run.Verdicts
import PatternAutomata.Proofs.Snapshot.Restoring

/-!
# Commands that agree

One pattern can be asked about in several ways: directly, by a traced run, or through the text of
its snapshot.  All ways lead to the same compiled pattern, because what is read back from the
exported text is the compiled pattern itself.  So the commands differ only in what they write about
it: a suite has in its table the verdicts that single runs end with, and a loaded snapshot is
written as the pattern is.

There is one thing that single runs do and a suite does not: they have no table, and so they answer
for an input that is too long for the column of a table.  A suite with such an input writes nothing.
-/

namespace PatternAutomata

open Json

variable {compiled : Compiled} {options : CompileOptions} {input : String} {accepted : Bool}

namespace CommandLine

variable {source : PatternSource} {content : String} {pretty : Bool}

/-! ### Answers about a compiled pattern -/

/-- The pattern compiles, the content is the text of its snapshot, and the same compiled pattern is
read back from the content. -/
structure Exports (source : PatternSource) (options : CompileOptions) (pretty : Bool)
    (compiled : Compiled) (content : String) : Prop where
  compile_eq : PatternAutomata.compile source.text options = .ok compiled
  closed : compiled.automaton.graph.Closed
  snapshotText_eq : ∀ colored, snapshotText source options pretty colored = .ok content
  parse_eq : Compiled.parse content.toList = .ok compiled

theorem PatternSource.compile_eq (h : PatternAutomata.compile source.text options = .ok compiled)
    (colored : Bool) : source.compile options colored = .ok compiled := by
  simp only [PatternSource.compile, h, Except.mapError]

theorem exists_exports (h : PatternAutomata.check source.text.toList = [])
    (options : CompileOptions) (pretty : Bool) :
    ∃ compiled content, Exports source options pretty compiled content := by
  obtain ⟨compiled, snapshot, hcompile, hclosed, hsnapshot, hparse⟩ :=
    exists_restored h options pretty
  refine ⟨compiled, snapshot.render (.ofChoice pretty) ++ "\n", hcompile, hclosed, ?_, ?_⟩
  · intro colored
    simp only [snapshotText, PatternSource.compile_eq hcompile, hsnapshot, Except.mapError, bind,
      Except.bind]
    rfl
  · rw [String.toList_append]
    apply hparse
    intro c hc
    rw [List.mem_singleton.mp hc]
    rfl

/-- Without colours, the last event of a run is written as its verdict. -/
theorem line_finish (verbosity : Verbosity) (verdict : Verdict) :
    Event.line (.ofChoice false) verbosity (.finish verdict) = verdict.text := by
  cases verdict with
  | accepted => exact Palette.paint_plain Verdict.accepted.text
  | rejected => rfl

theorem acceptedIn_concat (events : List Event) (accepted : Bool) :
    acceptedIn (events ++ [.finish (.ofBool accepted)]) = accepted := by
  rw [acceptedIn, List.getLast?_concat]
  cases accepted <;> rfl

namespace Exports

variable {listing : Listing}

theorem execAnswer_eq (h : Exports source options pretty compiled content)
    (hgives : compiled.automaton.Gives input.toList accepted) (colored : Bool) :
    execAnswer source input options colored =
      .ok (.verdict ((Verdict.ofBool accepted).text ++ "\n") accepted) := by
  simp only [execAnswer, PatternSource.compile_eq h.compile_eq, hgives.accepts_eq, Except.mapError,
    bind, Except.bind]
  rfl

/-- The verdict stands on the last line of a traced run. -/
theorem exists_traceAnswer (h : Exports source options pretty compiled content)
    (hgives : compiled.automaton.Gives input.toList accepted) (verbosity : Verbosity) :
    ∃ lines : List String, traceAnswer source input options verbosity false =
      .ok (.verdict
        (String.join ((lines ++ [(Verdict.ofBool accepted).text]).map (· ++ "\n"))) accepted) := by
  obtain ⟨events, htrace⟩ := hgives.exists_trace
  refine ⟨events.map (Event.line (.ofChoice false) verbosity), ?_⟩
  simp only [traceAnswer, PatternSource.compile_eq h.compile_eq, htrace, Except.mapError,
    acceptedIn_concat, bind, Except.bind]
  rw [List.map_append, List.map_append, List.map_map, List.map_singleton, List.map_singleton,
    line_finish]
  rfl

theorem suiteAnswer_eq (h : Exports source options pretty compiled content)
    (inputs : List String) (colored : Bool) :
    suiteAnswer source inputs options colored = suiteTable compiled.automaton inputs := by
  simp only [suiteAnswer, PatternSource.compile_eq h.compile_eq, bind, Except.bind]

theorem dumpAnswer_eq (h : Exports source options pretty compiled content)
    (hlist : compiled.automaton.list = .ok listing) (format : ListingFormat) (colored : Bool) :
    dumpAnswer source options format colored = .ok (.success (listing.render format colored)) := by
  simp only [dumpAnswer, PatternSource.compile_eq h.compile_eq, listOf, hlist, Except.mapError,
    bind, Except.bind]
  rfl

theorem loadSnapshot_eq (h : Exports source options pretty compiled content) (path : String) :
    loadSnapshot path content = .ok compiled := by
  simp only [loadSnapshot, h.parse_eq, Except.mapError]

end Exports

section Tables

variable {automaton : Automaton} {inputs : List String} {cases : List Case}

theorem suiteTable_eq (h : automaton.runSuite inputs = .ok cases)
    (hlength : ∀ c ∈ cases, c.input.length ≤ Suite.widestColumn) :
    suiteTable automaton inputs = .ok (.success (Suite.table cases ++ "\n")) := by
  simp only [suiteTable, h, Suite.written_eq_ok hlength, Except.mapError, bind, Except.bind]
  rfl

theorem suiteTable_of_long {c : Case} (h : automaton.runSuite inputs = .ok cases) (hc : c ∈ cases)
    (hlength : Suite.widestColumn < c.input.length) :
    suiteTable automaton inputs = .error (.crash "Formatting argument out of range") := by
  simp only [suiteTable, h, Suite.written_eq_error hc hlength, Except.mapError, bind, Except.bind]
  rfl

end Tables

theorem loadAnswer_of_ne_nil {inputs : List String} (h : inputs ≠ []) (compiled : Compiled)
    (format : ListingFormat) (colored : Bool) :
    loadAnswer compiled inputs format colored = suiteTable compiled.automaton inputs := by
  simp only [loadAnswer, if_neg (mt List.isEmpty_iff.mp h)]

theorem loadAnswer_nil {listing : Listing} (hlist : compiled.automaton.list = .ok listing)
    (format : ListingFormat) (colored : Bool) :
    loadAnswer compiled [] format colored =
      .ok (.success ((if format = .text then loadHeader compiled colored else "") ++
        listing.render format colored)) := by
  simp only [loadAnswer, List.isEmpty_nil, if_true, listOf, hlist, Except.mapError, bind,
    Except.bind]
  rfl

/-! ### Requests in a directory -/

/-- What a request leaves behind when it is run in a directory. -/
def Request.outcomeIn (request : Request) (directory : Directory) : Outcome :=
  ((request.run memoryHost).run directory).1

/-- In the directory, the pattern of a command is read as the source. -/
def PatternChoice.ReadsIn (pattern : PatternChoice) (directory : Directory)
    (source : PatternSource) : Prop :=
  ((readPattern memoryHost pattern).run directory).1 = .ok source

/-- In the directory, the content is read at the path. -/
def Directory.Holds (directory : Directory) (path content : String) : Prop :=
  ((readText memoryHost path).run directory).1 = .ok content

theorem wantsColor_memoryHost (color : ColorChoice) :
    wantsColor memoryHost color = pure (decide (color = .always)) := by
  cases color <;> rfl

section Running

variable {α : Type} {read : StateM Directory (Except Outcome α)} {value : α}
  {directory : Directory}

/-- What is read decides how the run goes on. -/
theorem run_read (h : (read.run directory).1 = .ok value)
    (next : Except Outcome α → StateM Directory Outcome) :
    ((read >>= next).run directory).1 = ((next (.ok value)).run (read.run directory).2).1 := by
  show ((next (read.run directory).1).run (read.run directory).2).1 = _
  rw [h]

end Running

namespace Exports

variable {pattern : PatternChoice} {directory folder : Directory} {path : String}
  {inputs : List String}

theorem store_outcome (h : Exports source options pretty compiled content)
    (hpattern : pattern.ReadsIn directory source) (color : ColorChoice) :
    Request.outcomeIn (.store pattern options none pretty color) directory = .success content := by
  simp only [Request.outcomeIn, Request.run, wantsColor_memoryHost, pure_bind]
  rw [run_read hpattern]
  simp only [h.snapshotText_eq]
  rfl

theorem exec_outcome (h : Exports source options pretty compiled content)
    (hpattern : pattern.ReadsIn directory source)
    (hgives : compiled.automaton.Gives input.toList accepted) (color : ColorChoice) :
    Request.outcomeIn (.exec pattern (some input) options color) directory =
      .verdict ((Verdict.ofBool accepted).text ++ "\n") accepted := by
  simp only [Request.outcomeIn, Request.run, wantsColor_memoryHost, pure_bind]
  rw [run_read hpattern]
  exact congrArg Outcome.of (h.execAnswer_eq hgives _)

theorem exists_trace_outcome (h : Exports source options pretty compiled content)
    (hpattern : pattern.ReadsIn directory source)
    (hgives : compiled.automaton.Gives input.toList accepted) (verbose : Nat)
    {color : ColorChoice} (hcolor : color ≠ .always) :
    ∃ lines : List String,
      Request.outcomeIn (.trace pattern (some input) options verbose color) directory =
        .verdict (String.join ((lines ++ [(Verdict.ofBool accepted).text]).map (· ++ "\n")))
          accepted := by
  obtain ⟨lines, hanswer⟩ := h.exists_traceAnswer hgives (verbosityOf verbose)
  refine ⟨lines, ?_⟩
  simp only [Request.outcomeIn, Request.run, wantsColor_memoryHost, pure_bind,
    decide_eq_false hcolor]
  rw [run_read hpattern]
  exact congrArg Outcome.of hanswer

theorem suite_outcome (h : Exports source options pretty compiled content)
    (hpattern : pattern.ReadsIn directory source) (hinputs : inputs ≠ []) (color : ColorChoice) :
    Request.outcomeIn (.suite pattern ⟨inputs, none⟩ options color) directory =
      .of (suiteTable compiled.automaton inputs) := by
  simp only [Request.outcomeIn, Request.run, wantsColor_memoryHost, pure_bind]
  rw [run_read hpattern, ← h.suiteAnswer_eq inputs (decide (color = .always))]
  exact congrArg Outcome.of (if_neg (mt List.isEmpty_iff.mp hinputs))

theorem dump_outcome (h : Exports source options pretty compiled content)
    (hpattern : pattern.ReadsIn directory source) {listing : Listing}
    (hlist : compiled.automaton.list = .ok listing) (format : ListingFormat)
    (color : ColorChoice) :
    Request.outcomeIn (.dump pattern options format color) directory =
      .success (listing.render format (decide (color = .always))) := by
  simp only [Request.outcomeIn, Request.run, wantsColor_memoryHost, pure_bind]
  rw [run_read hpattern]
  exact congrArg Outcome.of (h.dumpAnswer_eq hlist _ _)

theorem load_outcome (h : Exports source options pretty compiled content)
    (hcontent : folder.Holds path content) (inputs : List String) (format : ListingFormat)
    (color : ColorChoice) :
    Request.outcomeIn (.load path ⟨inputs, none⟩ format color) folder =
      .of (loadAnswer compiled inputs format (decide (color = .always))) := by
  simp only [Request.outcomeIn, Request.run, wantsColor_memoryHost, pure_bind]
  rw [run_read hcontent]
  simp only [h.loadSnapshot_eq]
  rfl

end Exports

/-! ### Agreement -/

/-- An input is answered with a verdict: a single run writes the verdict and has its exit status,
and without colours a traced run ends with the same line and has the same status. -/
structure Answered (pattern : PatternChoice) (options : CompileOptions) (directory : Directory)
    (input : String) (verdict : Verdict) : Prop where
  run : ∀ color, Request.outcomeIn (.exec pattern (some input) options color) directory =
    ⟨verdict.text ++ "\n", "", if verdict = .accepted then 0 else 1⟩
  trace : ∀ verbose color, color ≠ .always → ∃ lines : List String,
    Request.outcomeIn (.trace pattern (some input) options verbose color) directory =
      ⟨String.join ((lines ++ [verdict.text]).map (· ++ "\n")), "",
        if verdict = .accepted then 0 else 1⟩

/-- What the commands say about a pattern in one directory, and about a snapshot at a path of
another. -/
structure Agree (pattern : PatternChoice) (options : CompileOptions) (directory : Directory)
    (path : String) (folder : Directory) : Prop where
  /-- A loaded snapshot and the pattern have the same table, or both have none. -/
  tables : ∀ inputs, inputs ≠ [] → ∀ format color color',
    Request.outcomeIn (.load path ⟨inputs, none⟩ format color) folder =
      Request.outcomeIn (.suite pattern ⟨inputs, none⟩ options color') directory
  /-- Single runs answer for every input. -/
  answers : ∀ input, ∃ verdict, Answered pattern options directory input verdict
  /-- If no input is too long, a suite writes a table with a row for each input, in order.  The
  verdicts that are read off the rows are those that single runs of the inputs write. -/
  rows : ∀ inputs, inputs ≠ [] → (∀ input ∈ inputs, input.length ≤ 65535) →
    ∃ table cases,
      (∀ color, Request.outcomeIn (.suite pattern ⟨inputs, none⟩ options color) directory =
        ⟨table ++ "\n", "", 0⟩) ∧
      cases.map Case.input = inputs ∧ Suite.IsTable cases table ∧
      (∀ others, others.map Case.input = inputs → Suite.IsTable others table → others = cases) ∧
      ∀ c ∈ cases, Answered pattern options directory c.input c.verdict
  /-- If an input is too long, a suite writes no table and stops. -/
  stops : ∀ inputs, (∃ input ∈ inputs, 65535 < input.length) → ∀ color,
    Request.outcomeIn (.suite pattern ⟨inputs, none⟩ options color) directory =
      ⟨"", "Formatting argument out of range\n", 101⟩
  /-- A loaded snapshot and the pattern have the same drawing and the same JSON. -/
  drawings : ∀ format, format ≠ .text → ∀ color color',
    Request.outcomeIn (.load path ⟨[], none⟩ format color) folder =
      Request.outcomeIn (.dump pattern options format color') directory
  /-- The transcript of a loaded snapshot is that of the pattern with some lines before it. -/
  transcripts : ∀ color, ∃ header transcript,
    Request.outcomeIn (.dump pattern options .text color) directory = ⟨transcript, "", 0⟩ ∧
      Request.outcomeIn (.load path ⟨[], none⟩ .text color) folder =
        ⟨header ++ transcript, "", 0⟩

theorem render_eq_of_ne_text {listing : Listing} {format : ListingFormat} (h : format ≠ .text)
    (colored colored' : Bool) :
    listing.render format colored = listing.render format colored' := by
  cases format with
  | text => exact absurd rfl h
  | dot => rfl
  | json => rfl

namespace Exports

variable {pattern : PatternChoice} {directory folder : Directory} {path : String}

theorem answered (h : Exports source options pretty compiled content)
    (hpattern : pattern.ReadsIn directory source)
    (hgives : compiled.automaton.Gives input.toList accepted) :
    Answered pattern options directory input (.ofBool accepted) where
  run color := by
    rw [h.exec_outcome hpattern hgives]
    cases accepted <;> rfl
  trace verbose color hcolor := by
    obtain ⟨lines, htrace⟩ := h.exists_trace_outcome hpattern hgives verbose hcolor
    refine ⟨lines, ?_⟩
    rw [htrace]
    cases accepted <;> rfl

theorem stops (h : Exports source options pretty compiled content)
    (hpattern : pattern.ReadsIn directory source) {inputs : List String} (hinput : input ∈ inputs)
    (hlength : Suite.widestColumn < input.length) (color : ColorChoice) :
    Request.outcomeIn (.suite pattern ⟨inputs, none⟩ options color) directory =
      ⟨"", "Formatting argument out of range\n", 101⟩ := by
  obtain ⟨cases, hcases, hinputs, -⟩ := Automaton.exists_runSuite h.closed inputs
  rw [← hinputs] at hinput
  obtain ⟨c, hc, rfl⟩ := List.mem_map.mp hinput
  rw [h.suite_outcome hpattern (hinputs ▸ List.ne_nil_of_mem hinput),
    suiteTable_of_long hcases hc hlength]
  rfl

theorem agree (h : Exports source options pretty compiled content)
    (hpattern : pattern.ReadsIn directory source) (hcontent : folder.Holds path content) :
    Agree pattern options directory path folder where
  tables inputs hinputs format color color' := by
    rw [h.load_outcome hcontent, h.suite_outcome hpattern hinputs,
      loadAnswer_of_ne_nil hinputs]
  answers input := by
    obtain ⟨accepted, hgives⟩ := Automaton.exists_gives h.closed input.toList
    exact ⟨_, h.answered hpattern hgives⟩
  rows inputs hne hlength := by
    obtain ⟨cases, hcases, hinputs, hverdicts⟩ := Automaton.exists_runSuite h.closed inputs
    have hwidth : ∀ c ∈ cases, c.input.length ≤ Suite.widestColumn := by
      intro c hc
      apply hlength
      rw [← hinputs]
      exact List.mem_map_of_mem hc
    have htable := Suite.isTable_table cases
    refine ⟨Suite.table cases, cases, fun color => ?_, hinputs, htable, ?_, fun c hc => ?_⟩
    · rw [h.suite_outcome hpattern hne, suiteTable_eq hcases hwidth]
      rfl
    · intro others hothers htold
      exact htold.unique htable (hothers.trans hinputs.symm)
    · obtain ⟨accepted, hgives, hverdict⟩ := hverdicts c hc
      rw [hverdict]
      exact h.answered hpattern hgives
  stops inputs hlong color := by
    obtain ⟨input, hinput, hlength⟩ := hlong
    exact h.stops hpattern hinput hlength color
  drawings format hformat color color' := by
    obtain ⟨states, -, hlist⟩ := h.closed.exists_list
    rw [h.load_outcome hcontent, loadAnswer_nil hlist, if_neg hformat,
      h.dump_outcome hpattern hlist, String.empty_append]
    exact congrArg Outcome.success (render_eq_of_ne_text hformat _ _)
  transcripts color := by
    obtain ⟨states, -, hlist⟩ := h.closed.exists_list
    refine ⟨loadHeader compiled (decide (color = .always)), _,
      h.dump_outcome hpattern hlist .text color, ?_⟩
    rw [h.load_outcome hcontent, loadAnswer_nil hlist]
    rfl

end Exports

/-! ### Texts and inputs -/

theorem decodeText_toUTF8 (text : String) : decodeText text.toUTF8 = .ok text := by
  have hdecode : String.fromUTF8? text.toUTF8 = some text := dif_pos text.isValidUTF8
  simp only [decodeText, hdecode]

theorem holds_input (files : List (String × ByteArray)) (content : String) :
    Directory.Holds { files, input := content.toUTF8 } inputPath content := by
  show (decodeText content.toUTF8).mapError _ = _
  rw [decodeText_toUTF8]
  rfl

theorem replicate_mem_language (c : Char) (n : Nat) :
    List.replicate n c ∈ (Expr.star (.symbol c)).language := by
  refine Language.mem_kstar.mpr ⟨List.replicate n [c], ?_, ?_⟩
  · exact List.flatten_replicate_singleton.symm
  · intro word hword
    exact List.eq_of_mem_replicate hword

/-- The words of the language of a pattern are answered with their acceptance. -/
theorem Exports.answered_accepted {pattern : PatternChoice} {directory : Directory}
    {kind : AutomatonKind} {e : Expr}
    (h : Exports source ⟨kind, .epsilon⟩ pretty compiled content)
    (hpattern : pattern.ReadsIn directory source)
    (hcheck : PatternAutomata.check source.text.toList = [])
    (htree : Parses .alternation source.text.toList e) (hinput : input.toList ∈ e.language) :
    Answered pattern ⟨kind, .epsilon⟩ directory input .accepted := by
  obtain ⟨nfa, compiled', hlanguage, hcompile, himplements⟩ :=
    exists_compile hcheck htree ⟨kind, .epsilon⟩
  cases h.compile_eq.symm.trans hcompile
  obtain ⟨answer, hanswer, hword⟩ := himplements.accepts_decides_language rfl input.toList
  obtain ⟨accepted, hgives⟩ := Automaton.exists_gives h.closed input.toList
  cases hanswer.symm.trans hgives.accepts_eq
  rw [← hlanguage] at hinput
  obtain rfl := hword.mpr hinput
  exact h.answered hpattern hgives

/-! ### The law -/

/-- **Agreement.**  Take a pattern that passes the check, either kind, either closure and either
layout.  Then the snapshot is exported, and wherever the exported text is read back, suites, single
runs, traced runs, drawings and transcripts of the loaded snapshot and of the pattern agree.  A
suite has a row for each input exactly if none is too long for a column. -/
theorem commands_agree {pattern : PatternChoice} {directory : Directory}
    (hpattern : pattern.ReadsIn directory source)
    (hcheck : PatternAutomata.check source.text.toList = []) (options : CompileOptions)
    (pretty : Bool) :
    ∃ content,
      (∀ color, Request.outcomeIn (.store pattern options none pretty color) directory =
        ⟨content, "", 0⟩) ∧
      ∀ path folder, folder.Holds path content → Agree pattern options directory path folder := by
  obtain ⟨compiled, content, hexports⟩ := exists_exports hcheck options pretty
  refine ⟨content, hexports.store_outcome hpattern, fun path folder hcontent => ?_⟩
  exact hexports.agree hpattern hcontent

/-- The pattern is given on the command line, and the exported text on the standard input. -/
theorem commands_agree_of_group :
    let pattern : PatternChoice := ⟨none, some "(a|b)*c"⟩
    let options : CompileOptions := ⟨.dfa, .reachability⟩
    let directory : Directory := { files := [], input := .empty }
    PatternAutomata.check "(a|b)*c".toList = [] ∧
      ∃ content,
        Request.outcomeIn (.store pattern options none false .never) directory =
          ⟨content, "", 0⟩ ∧
        Agree pattern options directory inputPath { files := [], input := content.toUTF8 } := by
  intro pattern options directory
  have hcheck : PatternAutomata.check "(a|b)*c".toList = [] := by decide
  have hpattern : pattern.ReadsIn directory ⟨"(a|b)*c", none⟩ := rfl
  obtain ⟨content, hstore, hagree⟩ := commands_agree hpattern hcheck options false
  exact ⟨hcheck, content, hstore .never, hagree inputPath _ (holds_input [] content)⟩

/-- An input of one letter more than a column has room for.  A single run accepts it, and whatever
verdict the row of a suite should have, no suite writes a table with that row. -/
theorem suite_stops_of_long_input :
    let pattern : PatternChoice := ⟨none, some "a*"⟩
    let options : CompileOptions := ⟨.dfa, .epsilon⟩
    let directory : Directory := { files := [], input := .empty }
    let input := String.ofList (List.replicate 65536 'a')
    PatternAutomata.check "a*".toList = [] ∧ Answered pattern options directory input .accepted ∧
      ∀ color verdict table, Suite.IsTable [⟨input, verdict⟩] table →
        (Request.outcomeIn (.suite pattern ⟨[input], none⟩ options color) directory).output ≠
          table ++ "\n" := by
  intro pattern options directory input
  have hcheck : PatternAutomata.check "a*".toList = [] := by decide
  have hpattern : pattern.ReadsIn directory ⟨"a*", none⟩ := rfl
  have htree : Parses .alternation "a*".toList (.star (.symbol 'a')) :=
    .only (.single (.star (.symbol rfl)))
  have hinput : input.toList ∈ (Expr.star (.symbol 'a')).language := by
    rw [String.toList_ofList]
    exact replicate_mem_language 'a' 65536
  have hlength : Suite.widestColumn < input.length := by
    rw [String.length_ofList, List.length_replicate]
    decide
  obtain ⟨compiled, content, hexports⟩ := @exists_exports ⟨"a*", none⟩ hcheck options false
  refine ⟨hcheck, hexports.answered_accepted hpattern hcheck htree hinput, ?_⟩
  intro color verdict table _ htable
  rw [hexports.stops hpattern (List.mem_singleton_self input) hlength] at htable
  have hempty := congrArg String.toList htable
  simp at hempty

end CommandLine

end PatternAutomata
