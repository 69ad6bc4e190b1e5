import PatternAutomata.Proofs.Json.Readers
import PatternAutomata.Snapshot.Decoding
import PatternAutomata.Snapshot.Written

/-!
# Written snapshots read back

Each known member of a snapshot, and of an edge, fills one field of what was read so far.  The
members that are written fill all the fields that are needed, in any layout, so a written snapshot
is read back whatever its texts are.  Only its labels must be writable and its version a number of
32 bits; and of the versions one alone is supported.
-/

namespace PatternAutomata

open Json

variable {layout : Layout} {name : String} {written text rest : List Char}

theorem reads_label (leave : List Char → List Char) {label : Label} (h : label.IsWritable)
    (hwritten : Quotes written label.text.toList) :
    Reads (SnapshotEdge.readLabel leave) written label where
  begins := hwritten.begins
  read blanks rest hblanks hrest := by
    have hparse : Label.parse? label.text.toList = some label := by
      rw [Label.text, String.toList_ofList, Label.parse?_chars h]
    simp only [SnapshotEdge.readLabel, (reads_text hwritten).read blanks rest hblanks hrest,
      hparse, bind, Except.bind]
    rfl

/-! ### Edges -/

namespace SnapshotEdge

/-- A known member with a value of the right shape fills a field that is empty. -/
inductive Draft.Fills (draft : Draft) : String → List Char → Draft → Prop where
  | source {written : List Char} {value : String} (hempty : draft.source = none)
    (hmember : ReadsMember readText written value) :
    Fills draft "from" written { draft with source := some value }
  | label {written : List Char} {value : Label} (hempty : draft.label = none)
    (hmember : ReadsMember (readLabel leaveObject) written value) :
    Fills draft "symbol" written { draft with label := some value }
  | target {written : List Char} {value : String} (hempty : draft.target = none)
    (hmember : ReadsMember readText written value) :
    Fills draft "to" written { draft with target := some value }

theorem Draft.Fills.readMember_eq {draft next : Draft} (h : draft.Fills name written next)
    (rest : List Char) (hrest : Ended rest) :
    draft.readMember name (written ++ rest) = .ok (next, rest) := by
  cases h with
  | source hempty hmember | label hempty hmember | target hempty hmember =>
    simp only [readMember, hempty, hmember.readOnce_eq _ hrest, String.reduceEq, if_true, if_false,
      bind, Except.bind]
    rfl

/-- The draft of an edge that was read in full. -/
def full (edge : SnapshotEdge) : Draft :=
  ⟨some edge.source, some edge.label, some edge.target⟩

theorem finish_full (edge : SnapshotEdge) (rest : List Char) :
    edge.full.finish rest = .ok edge :=
  rfl

theorem readObject_eq {edge : SnapshotEdge}
    (h : MembersText Draft.readMember true {} edge.full text) (rest : List Char) :
    readObject (text ++ rest) = .ok (edge, rest) := by
  simp only [readObject, h.readMembers_object rest, finish_full, leaveObject_close, bind,
    Except.bind]
  rfl

theorem read_object {blanks : List Char} (hblanks : Blank blanks) (text : List Char) :
    read (blanks ++ '\x7b' :: text) = readObject text := by
  rw [read, skipSpace_blanks_cons hblanks (by decide)]
  rfl

theorem reads_of_membersText {edge : SnapshotEdge}
    (h : MembersText Draft.readMember true {} edge.full text) :
    Reads read ('\x7b' :: text) edge where
  begins := ⟨'\x7b', text, rfl, by decide, by decide⟩
  read blanks rest hblanks _ := by
    rw [List.cons_append, read_object hblanks, readObject_eq h]

/-- An edge is read back in any layout. -/
theorem reads_toJson (hlayout : layout.IsBlank) (depth : Nat) {edge : SnapshotEdge}
    (h : edge.label.IsWritable) : Reads read (write layout depth edge.toJson) edge := by
  have hfrom : Draft.Fills {} "from" _ _ :=
    .source rfl (hlayout.readsMember (reads_writeText edge.source))
  have hsymbol : Draft.Fills ⟨some edge.source, none, none⟩ "symbol" _ _ :=
    .label rfl (hlayout.readsMember (reads_label leaveObject h (quotes_writeText _)))
  have hto : Draft.Fills ⟨some edge.source, some edge.label, none⟩ "to" _ _ :=
    .target rfl (hlayout.readsMember (reads_writeText edge.target))
  have hmembers : MembersRead layout (depth + 1) Draft.readMember
      [("from", .text edge.source), ("symbol", .text edge.label.text), ("to", .text edge.target)]
      {} edge.full :=
    .cons hfrom.readMember_eq (.cons hsymbol.readMember_eq (.cons hto.readMember_eq (.nil _)))
  obtain ⟨text, hwrite, htext⟩ := hmembers.exists_write_eq hlayout
  rw [toJson, hwrite]
  exact reads_of_membersText htext

end SnapshotEdge

/-! ### Snapshots -/

theorem reads_kind {kind : AutomatonKind} (h : Quotes written kind.text.toList) :
    Reads (readChoice kindChoice) written kind := by
  cases kind with
  | nfa => exact @reads_choice_first _ _ kindChoice h
  | dfa => exact @reads_choice_second _ _ kindChoice (by decide) h

theorem reads_closure {closure : ClosureMode} (h : Quotes written closure.text.toList) :
    Reads (readChoice closureChoice) written closure := by
  cases closure with
  | epsilon => exact @reads_choice_first _ _ closureChoice h
  | reachability => exact @reads_choice_second _ _ closureChoice (by decide) h

theorem reads_regex {regex : String} (h : Quotes written regex.toList) :
    Reads (readOptional readText) written (some regex) := by
  refine reads_optional (reads_text h) ?_
  obtain ⟨spelled, -, rfl⟩ := h
  simp

namespace Snapshot

/-- A known member with a value of the right shape fills a field that is empty. -/
inductive Draft.Fills (draft : Draft) : String → List Char → Draft → Prop where
  | version {written : List Char} {value : Nat} (hempty : draft.version = none)
    (hmember : ReadsMember readWord32 written value) :
    Fills draft "version" written { draft with version := some value }
  | kind {written : List Char} {value : AutomatonKind} (hempty : draft.kind = none)
    (hmember : ReadsMember (readChoice kindChoice) written value) :
    Fills draft "type" written { draft with kind := some value }
  | tokens {written : List Char} {value : String} (hempty : draft.tokens = none)
    (hmember : ReadsMember readText written value) :
    Fills draft "postfix" written { draft with tokens := some value }
  | regex {written : List Char} {value : Option String} (hempty : draft.regex = none)
    (hmember : ReadsMember (readOptional readText) written value) :
    Fills draft "regex" written { draft with regex := some value }
  | closure {written : List Char} {value : ClosureMode} (hempty : draft.closure = none)
    (hmember : ReadsMember (readChoice closureChoice) written value) :
    Fills draft "closure" written { draft with closure := some value }
  | start {written : List Char} {value : String} (hempty : draft.start = none)
    (hmember : ReadsMember readText written value) :
    Fills draft "start" written { draft with start := some value }
  | accepts {written : List Char} {value : List String} (hempty : draft.accepts = none)
    (hmember : ReadsMember (readList readText) written value) :
    Fills draft "accepts" written { draft with accepts := some value }
  | edges {written : List Char} {value : List SnapshotEdge} (hempty : draft.edges = none)
    (hmember : ReadsMember (readList SnapshotEdge.read) written value) :
    Fills draft "edges" written { draft with edges := some value }

theorem Draft.Fills.readMember_eq {draft next : Draft} (h : draft.Fills name written next)
    (rest : List Char) (hrest : Ended rest) :
    draft.readMember name (written ++ rest) = .ok (next, rest) := by
  cases h with
  | version hempty hmember | kind hempty hmember | tokens hempty hmember | regex hempty hmember
  | closure hempty hmember | start hempty hmember | accepts hempty hmember | edges hempty hmember =>
    simp only [readMember, hempty, hmember.readOnce_eq _ hrest, String.reduceEq, if_true, if_false,
      bind, Except.bind]
    rfl

/-- The draft of a snapshot that was read in full; a pattern text that is not known is not read. -/
def full (snapshot : Snapshot) : Draft where
  version := some snapshot.version
  kind := some snapshot.kind
  tokens := some snapshot.tokens
  regex := snapshot.regex.map some
  closure := some snapshot.closure
  start := some snapshot.start
  accepts := some snapshot.accepts
  edges := some snapshot.edges

theorem finish_full (snapshot : Snapshot) (rest : List Char) :
    snapshot.full.finish rest = .ok snapshot := by
  obtain ⟨version, kind, tokens, regex, closure, start, accepts, edges⟩ := snapshot
  cases regex <;> rfl

theorem readObject_eq {snapshot : Snapshot} {draft : Draft}
    (h : MembersText Draft.readMember true {} draft text)
    (hfinish : ∀ rest, draft.finish rest = .ok snapshot) (rest : List Char) :
    readObject (text ++ rest) = .ok (snapshot, rest) := by
  simp only [readObject, h.readMembers_object rest, hfinish, leaveObject_close, bind,
    Except.bind]
  rfl

theorem readAny_object {blanks : List Char} (hblanks : Blank blanks) (text : List Char) :
    readAny (blanks ++ '\x7b' :: text) = readObject text := by
  rw [readAny, skipSpace_blanks_cons hblanks (by decide)]
  rfl

/-- An object that is read in full is read in white space as well. -/
theorem readWhole_object {snapshot : Snapshot} {before after : List Char} (hbefore : Blank before)
    (hafter : Blank after) (h : readObject (text ++ after) = .ok (snapshot, after)) :
    readWhole readAny (before ++ '\x7b' :: (text ++ after)) = .ok snapshot := by
  have hrest : skipSpace after = [] := by
    have hskip := @skipSpace_append after [] hafter
    rwa [List.append_nil] at hskip
  simp only [readWhole, readAny_object hbefore, h, hrest, bind, Except.bind]
  rfl

/-- The members that are written fill all fields; the member of a pattern text that is not known is
left out, and its field stays empty. -/
theorem membersRead_members (hlayout : layout.IsBlank) (depth : Nat) {snapshot : Snapshot}
    (hlabels : ∀ edge ∈ snapshot.edges, edge.label.IsWritable)
    (hversion : snapshot.version < UInt32.size) :
    MembersRead layout depth Draft.readMember snapshot.members {} snapshot.full := by
  obtain ⟨version, kind, tokens, regex, closure, start, accepts, edges⟩ := snapshot
  have hkind := reads_kind (quotes_writeText kind.text.toList)
  have hclosure := reads_closure (quotes_writeText closure.text.toList)
  have hbefore : MembersRead layout depth Draft.readMember
      [("version", .number version), ("type", .text kind.text), ("postfix", .text tokens)] {}
      { version := version, kind := kind, tokens := tokens } :=
    .cons (Draft.Fills.version rfl (hlayout.readsMember (reads_word32 hversion))).readMember_eq
      (.cons (Draft.Fills.kind rfl (hlayout.readsMember hkind)).readMember_eq
        (.cons (Draft.Fills.tokens rfl (hlayout.readsMember (reads_writeText tokens))).readMember_eq
          (.nil _)))
  have hregex : MembersRead layout depth Draft.readMember (regexMember regex)
      { version := version, kind := kind, tokens := tokens }
      { version := version, kind := kind, tokens := tokens, regex := regex.map some } := by
    cases regex with
    | none => exact .nil _
    | some regex =>
      have hwritten := reads_regex (quotes_writeText regex.toList)
      exact .cons (Draft.Fills.regex rfl (hlayout.readsMember hwritten)).readMember_eq
        (.nil _)
  have haccepts : Reads (readList readText)
      (write layout depth (.list (accepts.map .text))) accepts :=
    reads_list hlayout fun name _ => reads_writeText name
  have hedges : Reads (readList SnapshotEdge.read)
      (write layout depth (.list (edges.map SnapshotEdge.toJson))) edges :=
    reads_list hlayout fun edge hedge => SnapshotEdge.reads_toJson hlayout _ (hlabels edge hedge)
  have hafter : MembersRead layout depth Draft.readMember
      [("closure", .text closure.text), ("start", .text start),
        ("accepts", .list (accepts.map .text)), ("edges", .list (edges.map SnapshotEdge.toJson))]
      { version := version, kind := kind, tokens := tokens, regex := regex.map some }
      (full ⟨version, kind, tokens, regex, closure, start, accepts, edges⟩) :=
    .cons (Draft.Fills.closure rfl (hlayout.readsMember hclosure)).readMember_eq
      (.cons (Draft.Fills.start rfl (hlayout.readsMember (reads_writeText start))).readMember_eq
        (.cons (Draft.Fills.accepts rfl (hlayout.readsMember haccepts)).readMember_eq
          (.cons (Draft.Fills.edges rfl (hlayout.readsMember hedges)).readMember_eq (.nil _))))
  exact (hbefore.append hregex).append hafter

/-- A written snapshot is read back, whatever its version and whatever white space stands after
it. -/
theorem readWhole_render_append {snapshot : Snapshot} (pretty : Bool)
    (hlabels : ∀ edge ∈ snapshot.edges, edge.label.IsWritable)
    (hversion : snapshot.version < UInt32.size) {blanks : List Char} (hblanks : Blank blanks) :
    readWhole readAny ((snapshot.render (.ofChoice pretty)).toList ++ blanks) = .ok snapshot := by
  have hlayout := Layout.ofChoice_isBlank pretty
  obtain ⟨text, hwrite, htext⟩ :=
    (membersRead_members hlayout 1 hlabels hversion).exists_write_eq hlayout
  have hrender : (snapshot.render (.ofChoice pretty)).toList = '\x7b' :: text := by
    rw [render, toJson, Value.render, String.toList_ofList, hwrite]
  rw [hrender, List.cons_append]
  exact readWhole_object blank_nil hblanks (readObject_eq htext (finish_full snapshot) blanks)

theorem readWhole_render {snapshot : Snapshot} (pretty : Bool)
    (hlabels : ∀ edge ∈ snapshot.edges, edge.label.IsWritable)
    (hversion : snapshot.version < UInt32.size) :
    readWhole readAny (snapshot.render (.ofChoice pretty)).toList = .ok snapshot := by
  have hread := readWhole_render_append pretty hlabels hversion blank_nil
  rwa [List.append_nil] at hread

theorem parse_render_append {snapshot : Snapshot} (pretty : Bool)
    (hlabels : ∀ edge ∈ snapshot.edges, edge.label.IsWritable)
    (hversion : snapshot.version = currentVersion) {blanks : List Char} (hblanks : Blank blanks) :
    parse ((snapshot.render (.ofChoice pretty)).toList ++ blanks) = .ok snapshot := by
  have hsize : snapshot.version < UInt32.size := by
    rw [hversion]
    decide
  simp only [parse, readWhole_render_append pretty hlabels hsize hblanks, hversion,
    Except.mapError, bind, Except.bind, if_true]
  rfl

theorem parse_render_current {snapshot : Snapshot} (pretty : Bool)
    (hlabels : ∀ edge ∈ snapshot.edges, edge.label.IsWritable)
    (hversion : snapshot.version = currentVersion) :
    parse (snapshot.render (.ofChoice pretty)).toList = .ok snapshot := by
  have hparse := parse_render_append pretty hlabels hversion blank_nil
  rwa [List.append_nil] at hparse

/-- **Round trip.**  A snapshot of the supported version is read back from what is written of it, in
either layout; of any other version, it is refused with its version. -/
theorem parse_render (snapshot : Snapshot)
    (hlabels : ∀ edge ∈ snapshot.edges, edge.label.IsWritable)
    (hversion : snapshot.version < UInt32.size) (pretty : Bool) :
    (snapshot.version = currentVersion →
      parse (snapshot.render (.ofChoice pretty)).toList = .ok snapshot) ∧
    (snapshot.version ≠ currentVersion →
      parse (snapshot.render (.ofChoice pretty)).toList =
        .error (.unsupportedVersion snapshot.version)) := by
  refine ⟨parse_render_current pretty hlabels, fun hother => ?_⟩
  simp only [parse, readWhole_render pretty hlabels hversion, Except.mapError, bind, Except.bind,
    if_neg hother]
  rfl

theorem parse_render_of_escapes :
    let edges : List SnapshotEdge :=
      [⟨"q\"0", .epsilon, "\\"⟩, ⟨"\\", .symbol '7', "\u0001ε"⟩]
    let snapshot : Snapshot :=
      ⟨1, .dfa, "a\n/", none, .reachability, "q\"0", ["\u0001ε", ""], edges⟩
    parse (snapshot.render (.ofChoice true)).toList = .ok snapshot ∧
      parse (Snapshot.render { snapshot with version := 7 } (.ofChoice false)).toList =
        .error (.unsupportedVersion 7) := by
  intro edges snapshot
  have hlabels : ∀ edge ∈ edges, edge.label.IsWritable := by
    simp [edges, Label.IsWritable, isSymbol, Char.isAlphanum, Char.isDigit]
  exact ⟨(parse_render snapshot hlabels (by decide) true).1 rfl,
    (parse_render { snapshot with version := 7 } hlabels (by decide) false).2 (by decide)⟩

end Snapshot

end PatternAutomata
