import PatternAutomata.Proofs.Json.Consuming
import PatternAutomata.Proofs.Snapshot.RoundTrip

/-!
# Snapshots in any presentation

A snapshot may be read from many texts.  Its members, and those of its edges, may come in any order,
with any white space, each text spelled in any way that stands for its characters.  Members with
other names may stand between them and hold any value.  The closure may be left out if it is the
default one, and the pattern text may be left out or `null` if it is not known.

A name is a string of characters: the escape of half a surrogate pair alone does not stand for one,
so it may occur in a skipped value but not in a name that is read.

Reading goes wrong if a member that is known comes twice, or one that is needed never comes.  For
this, what the readers take is compared with the members that stand in the text: each known member
that stands there is new when it is read, and in the end it was read.
-/

namespace PatternAutomata

open Json

variable {α σ : Type} {entries before after : List Entry} {name other : String}
  {value written text rest : List Char} {first : Bool}

/-! ### Edges -/

namespace SnapshotEdge

/-- What is read of an edge from its members so far. -/
def soFar (edge : SnapshotEdge) (entries : List Entry) : Draft where
  source := if valuesOf "from" entries = [] then none else some edge.source
  label := if valuesOf "symbol" entries = [] then none else some edge.label
  target := if valuesOf "to" entries = [] then none else some edge.target

/-- Whatever the next member is, it adds to what was read so far. -/
theorem readMember_soFar {edge : SnapshotEdge} (hlabel : edge.label.IsWritable)
    (hfrom : HoldsOnce entries ("from", .text edge.source))
    (hsymbol : HoldsOnce entries ("symbol", .text edge.label.text))
    (hto : HoldsOnce entries ("to", .text edge.target))
    (hentries : entries = before ++ (name, value) :: after) (hfollows : Follows value written)
    (hrest : Ended rest) :
    (edge.soFar before).readMember name (written ++ rest) =
      .ok (edge.soFar (before ++ [(name, value)]), rest) := by
  subst hentries
  by_cases hname : name = "from"
  · subst hname
    obtain ⟨only, honly, hheld⟩ := hfrom
    obtain ⟨hnew, rfl⟩ := eq_of_valuesOf_append honly
    have hfills : (edge.soFar before).Fills "from" written _ :=
      .source (by simp [soFar, hnew]) (hfollows.readsMember (reads_of_presents_text hheld))
    rw [hfills.readMember_eq rest hrest]
    simp [soFar, valuesOf_concat]
  by_cases hname' : name = "symbol"
  · subst hname'
    obtain ⟨only, honly, hheld⟩ := hsymbol
    obtain ⟨hnew, rfl⟩ := eq_of_valuesOf_append honly
    simp only [Presents] at hheld
    have hfills : (edge.soFar before).Fills "symbol" written _ :=
      .label (by simp [soFar, hnew]) (hfollows.readsMember (reads_label leaveObject hlabel hheld))
    rw [hfills.readMember_eq rest hrest]
    simp [soFar, valuesOf_concat]
  by_cases hname'' : name = "to"
  · subst hname''
    obtain ⟨only, honly, hheld⟩ := hto
    obtain ⟨hnew, rfl⟩ := eq_of_valuesOf_append honly
    have hfills : (edge.soFar before).Fills "to" written _ :=
      .target (by simp [soFar, hnew]) (hfollows.readsMember (reads_of_presents_text hheld))
    rw [hfills.readMember_eq rest hrest]
    simp [soFar, valuesOf_concat]
  simp only [Draft.readMember, if_neg hname, if_neg hname', if_neg hname'',
    hfollows.skipMember_eq hrest]
  simp [soFar, valuesOf_concat, hname, hname', hname'']

/-- **An edge is read in any presentation.** -/
theorem reads_of_presents {edge : SnapshotEdge} (hlabel : edge.label.IsWritable)
    (h : Presents edge.toJson value) : Reads read value edge := by
  simp only [toJson, Presents, PresentsMembers] at h
  obtain ⟨entries, inner, hinner, rfl, hfrom, hsymbol, hto, -⟩ := h
  have htext := hinner.membersText [] fun _ _ _ _ hentries _ hfollows _ hrest =>
    readMember_soFar hlabel hfrom hsymbol hto hentries hfollows hrest
  have hfull : edge.soFar ([] ++ entries) = edge.full := by
    obtain ⟨_, hfrom, -⟩ := hfrom
    obtain ⟨_, hsymbol, -⟩ := hsymbol
    obtain ⟨_, hto, -⟩ := hto
    simp only [List.nil_append, soFar, full, hfrom, hsymbol, hto]
    rfl
  rw [hfull] at htext
  exact reads_of_membersText htext

end SnapshotEdge

/-! ### Snapshots -/

namespace Snapshot

/-- The entries hold each member of the snapshot once, where the default closure may be left out and
a pattern text that is not known may be `null`. -/
structure HeldBy (snapshot : Snapshot) (entries : List Entry) : Prop where
  members : ∀ member ∈ snapshot.members, HoldsOnce entries member ∨
    member.1 = "closure" ∧ snapshot.closure = defaultClosure ∧ valuesOf member.1 entries = []
  regex : snapshot.regex = none →
    valuesOf "regex" entries = [] ∨ valuesOf "regex" entries = [['n', 'u', 'l', 'l']]

theorem HeldBy.once {snapshot : Snapshot} (h : snapshot.HeldBy entries) {member : String × Value}
    (hmember : member ∈ snapshot.members) (hname : member.1 ≠ "closure") :
    HoldsOnce entries member :=
  (h.members member hmember).resolve_right fun hclosure => hname hclosure.1

/-- What is read of a snapshot from its members so far. -/
def soFar (snapshot : Snapshot) (entries : List Entry) : Draft where
  version := if valuesOf "version" entries = [] then none else some snapshot.version
  kind := if valuesOf "type" entries = [] then none else some snapshot.kind
  tokens := if valuesOf "postfix" entries = [] then none else some snapshot.tokens
  regex := if valuesOf "regex" entries = [] then none else some snapshot.regex
  closure := if valuesOf "closure" entries = [] then none else some snapshot.closure
  start := if valuesOf "start" entries = [] then none else some snapshot.start
  accepts := if valuesOf "accepts" entries = [] then none else some snapshot.accepts
  edges := if valuesOf "edges" entries = [] then none else some snapshot.edges

/-- The names of the members that are read; others are skipped. -/
def memberNames : List String :=
  ["version", "type", "postfix", "regex", "closure", "start", "accepts", "edges"]

variable {snapshot : Snapshot}

theorem reads_held_regex (h : snapshot.HeldBy (before ++ ("regex", value) :: after)) :
    valuesOf "regex" before = [] ∧ Reads (readOptional readText) value snapshot.regex := by
  cases hregex : snapshot.regex with
  | none =>
    rcases h.regex hregex with hnone | hnull
    · rw [valuesOf_append, valuesOf_cons_self] at hnone
      simp at hnone
    · obtain ⟨hnew, rfl⟩ := eq_of_valuesOf_append hnull
      exact ⟨hnew, reads_null readText⟩
  | some regex =>
    have hmember : ("regex", Value.text regex) ∈ snapshot.members := by
      simp [members, regexMember, hregex]
    obtain ⟨only, honly, hheld⟩ := h.once hmember (by simp)
    obtain ⟨hnew, rfl⟩ := eq_of_valuesOf_append honly
    simp only [Presents] at hheld
    exact ⟨hnew, reads_regex hheld⟩

theorem reads_held_closure (h : snapshot.HeldBy (before ++ ("closure", value) :: after)) :
    valuesOf "closure" before = [] ∧ Reads (readChoice closureChoice) value snapshot.closure := by
  have hmember : ("closure", Value.text snapshot.closure.text) ∈ snapshot.members := by
    simp [members]
  rcases h.members _ hmember with ⟨only, honly, hheld⟩ | ⟨-, -, hnone⟩
  · obtain ⟨hnew, rfl⟩ := eq_of_valuesOf_append honly
    simp only [Presents] at hheld
    exact ⟨hnew, reads_closure hheld⟩
  · rw [valuesOf_append, valuesOf_cons_self] at hnone
    simp at hnone

/-- A member that stands once is new, and its text holds its value. -/
theorem HeldBy.read (h : snapshot.HeldBy (before ++ (name, value) :: after)) (held : Value)
    (hmember : (name, held) ∈ snapshot.members) (hclosure : name ≠ "closure") :
    valuesOf name before = [] ∧ Presents held value := by
  obtain ⟨only, honly, hheld⟩ := h.once hmember hclosure
  obtain ⟨hnew, rfl⟩ := eq_of_valuesOf_append honly
  exact ⟨hnew, hheld⟩

/-- The next member, if its name is known, fills its field. -/
theorem fills_soFar (hlabels : ∀ edge ∈ snapshot.edges, edge.label.IsWritable)
    (hversion : snapshot.version < UInt32.size)
    (h : snapshot.HeldBy (before ++ (name, value) :: after)) (hfollows : Follows value written)
    (hname : name ∈ memberNames) :
    (snapshot.soFar before).Fills name written (snapshot.soFar (before ++ [(name, value)])) := by
  simp only [memberNames, List.mem_cons, List.not_mem_nil, or_false] at hname
  rcases hname with rfl | rfl | rfl | rfl | rfl | rfl | rfl | rfl
  · obtain ⟨hnew, hheld⟩ := h.read (.number snapshot.version) (by simp [members]) (by simp)
    simp only [Presents] at hheld
    subst hheld
    have hfills : (snapshot.soFar before).Fills "version" written _ :=
      .version (by simp [soFar, hnew]) (hfollows.readsMember (reads_word32 hversion))
    simpa [soFar, valuesOf_concat] using hfills
  · obtain ⟨hnew, hheld⟩ := h.read (.text snapshot.kind.text) (by simp [members]) (by simp)
    simp only [Presents] at hheld
    have hfills : (snapshot.soFar before).Fills "type" written _ :=
      .kind (by simp [soFar, hnew]) (hfollows.readsMember (reads_kind hheld))
    simpa [soFar, valuesOf_concat] using hfills
  · obtain ⟨hnew, hheld⟩ := h.read (.text snapshot.tokens) (by simp [members]) (by simp)
    have hfills : (snapshot.soFar before).Fills "postfix" written _ :=
      .tokens (by simp [soFar, hnew]) (hfollows.readsMember (reads_of_presents_text hheld))
    simpa [soFar, valuesOf_concat] using hfills
  · obtain ⟨hnew, hread⟩ := reads_held_regex h
    have hfills : (snapshot.soFar before).Fills "regex" written _ :=
      .regex (by simp [soFar, hnew]) (hfollows.readsMember hread)
    simpa [soFar, valuesOf_concat] using hfills
  · obtain ⟨hnew, hread⟩ := reads_held_closure h
    have hfills : (snapshot.soFar before).Fills "closure" written _ :=
      .closure (by simp [soFar, hnew]) (hfollows.readsMember hread)
    simpa [soFar, valuesOf_concat] using hfills
  · obtain ⟨hnew, hheld⟩ := h.read (.text snapshot.start) (by simp [members]) (by simp)
    have hfills : (snapshot.soFar before).Fills "start" written _ :=
      .start (by simp [soFar, hnew]) (hfollows.readsMember (reads_of_presents_text hheld))
    simpa [soFar, valuesOf_concat] using hfills
  · obtain ⟨hnew, hheld⟩ :=
      h.read (.list (snapshot.accepts.map .text)) (by simp [members]) (by simp)
    have hread := reads_of_presents_list hheld fun _ _ _ hname => reads_of_presents_text hname
    have hfills : (snapshot.soFar before).Fills "accepts" written _ :=
      .accepts (by simp [soFar, hnew]) (hfollows.readsMember hread)
    simpa [soFar, valuesOf_concat] using hfills
  · obtain ⟨hnew, hheld⟩ :=
      h.read (.list (snapshot.edges.map SnapshotEdge.toJson)) (by simp [members]) (by simp)
    have hread := reads_of_presents_list hheld fun edge hedge _ hheld =>
      SnapshotEdge.reads_of_presents (hlabels edge hedge) hheld
    have hfills : (snapshot.soFar before).Fills "edges" written _ :=
      .edges (by simp [soFar, hnew]) (hfollows.readsMember hread)
    simpa [soFar, valuesOf_concat] using hfills

/-- A member with another name is skipped, and nothing was read. -/
theorem readMember_of_not_mem {draft : Draft} (hname : name ∉ memberNames)
    (hfollows : Follows value written) (hrest : Ended rest) :
    draft.readMember name (written ++ rest) = .ok (draft, rest) := by
  simp only [memberNames, List.mem_cons, List.not_mem_nil, or_false, not_or] at hname
  obtain ⟨h₁, h₂, h₃, h₄, h₅, h₆, h₇, h₈⟩ := hname
  simp only [Draft.readMember, if_neg h₁, if_neg h₂, if_neg h₃, if_neg h₄, if_neg h₅, if_neg h₆,
    if_neg h₇, if_neg h₈, hfollows.skipMember_eq hrest]

theorem soFar_concat_of_not_mem (hname : name ∉ memberNames) :
    snapshot.soFar (before ++ [(name, value)]) = snapshot.soFar before := by
  simp only [memberNames, List.mem_cons, List.not_mem_nil, or_false, not_or] at hname
  obtain ⟨h₁, h₂, h₃, h₄, h₅, h₆, h₇, h₈⟩ := hname
  simp only [soFar, valuesOf_concat, if_neg h₁, if_neg h₂, if_neg h₃, if_neg h₄, if_neg h₅,
    if_neg h₆, if_neg h₇, if_neg h₈]

/-- What was left out are the defaults. -/
theorem finish_soFar (h : snapshot.HeldBy entries) (rest : List Char) :
    (snapshot.soFar entries).finish rest = .ok snapshot := by
  have hneeded : ∀ name held, (name, held) ∈ snapshot.members → name ≠ "closure" →
      valuesOf name entries ≠ [] := by
    intro name held hmember hname hnone
    obtain ⟨only, honly, -⟩ := h.once hmember hname
    rw [hnone] at honly
    cases honly
  have hversion := hneeded "version" (.number snapshot.version) (by simp [members]) (by simp)
  have hkind := hneeded "type" (.text snapshot.kind.text) (by simp [members]) (by simp)
  have htokens := hneeded "postfix" (.text snapshot.tokens) (by simp [members]) (by simp)
  have hstart := hneeded "start" (.text snapshot.start) (by simp [members]) (by simp)
  have haccepts := hneeded "accepts" (.list (snapshot.accepts.map .text)) (by simp [members])
    (by simp)
  have hedges := hneeded "edges" (.list (snapshot.edges.map SnapshotEdge.toJson))
    (by simp [members]) (by simp)
  have hregex : (snapshot.soFar entries).regex.getD none = snapshot.regex := by
    simp only [soFar]
    split
    · next hnone =>
      cases hregex : snapshot.regex with
      | none => rfl
      | some regex =>
        have hmember : ("regex", Value.text regex) ∈ snapshot.members := by
          simp [members, regexMember, hregex]
        exact absurd hnone (hneeded _ _ hmember (by simp))
    · rfl
  have hclosure : (snapshot.soFar entries).closure.getD defaultClosure = snapshot.closure := by
    simp only [soFar]
    split
    · next hnone =>
      have hmember : ("closure", Value.text snapshot.closure.text) ∈ snapshot.members := by
        simp [members]
      rcases h.members _ hmember with ⟨only, honly, -⟩ | ⟨-, hdefault, -⟩
      · rw [hnone] at honly
        cases honly
      · exact hdefault.symm
    · rfl
  -- The fields that must be there are there, as their names stand among the entries.
  simp only [Draft.finish, hregex, hclosure]
  simp only [soFar, if_neg hversion, if_neg hkind, if_neg htokens, if_neg hstart, if_neg haccepts,
    if_neg hedges, require, ok_bind]
  rfl

/-- **Snapshots are read in any presentation.** -/
theorem readWhole_of_heldBy (hlabels : ∀ edge ∈ snapshot.edges, edge.label.IsWritable)
    (hversion : snapshot.version < UInt32.size) (h : snapshot.HeldBy entries)
    (htext : IsObject entries text) : readWhole readAny text = .ok snapshot := by
  obtain ⟨before, inner, after, hbefore, hafter, hinner, rfl⟩ := htext
  have hmembers := hinner.membersText [] fun before name value after hentries written hfollows rest
      hrest => by
    rw [List.nil_append] at hentries
    subst hentries
    by_cases hname : name ∈ memberNames
    · exact (fills_soFar hlabels hversion h hfollows hname).readMember_eq rest hrest
    · rw [soFar_concat_of_not_mem hname]
      exact readMember_of_not_mem hname hfollows hrest
  rw [List.nil_append] at hmembers
  exact readWhole_object hbefore hafter (readObject_eq hmembers (finish_soFar h) after)

end Snapshot

/-! ### What the readers of edges and snapshots take -/

namespace SnapshotEdge

theorem consumes_label (leave : List Char → List Char) : Consumes (readLabel leave) := by
  intro text label rest h
  obtain ⟨⟨written, left⟩, hwritten, h⟩ := bind_eq_ok_iff.mp h
  dsimp only at h
  split at h
  · cases h
    exact consumes_text _ _ _ hwritten
  · cases h

theorem consumes_readMember (draft : Draft) (name : String) :
    ConsumesMember (draft.readMember name) := by
  intro text next rest h
  unfold Draft.readMember at h
  split at h
  · exact consumes_once consumes_text h fun _ _ => rfl
  split at h
  · exact consumes_once (consumes_label leaveObject) h fun _ _ => rfl
  split at h
  · exact consumes_once consumes_text h fun _ _ => rfl
  · exact consumesMember_skip draft _ _ _ h

theorem leaves_of_readObject {edge : SnapshotEdge} (h : readObject text = .ok (edge, rest)) :
    Leaves .object true text rest := by
  obtain ⟨⟨draft, last⟩, hdraft, h⟩ := bind_eq_ok_iff.mp h
  obtain ⟨edge, -, h⟩ := bind_eq_ok_iff.mp h
  cases h
  obtain ⟨left, rfl, hleaves⟩ := leaves_of_readMembers consumes_readMember hdraft
  rw [leaveObject_close]
  exact hleaves

/-- A field that is needed is there. -/
theorem eq_some_of_requireAt {index fields : Nat} {shape : String} {field : Option α} {a : α}
    (h : requireAt index shape fields field rest = .ok a) : field = some a := by
  unfold requireAt at h
  split at h
  · cases h
    rfl
  · cases h

theorem leaves_of_readFields {edge : SnapshotEdge} (h : readFields text = .ok (edge, rest)) :
    Leaves .list true text rest := by
  obtain ⟨⟨source, left⟩, hsource, h⟩ := bind_eq_ok_iff.mp h
  obtain ⟨_, hsource', h⟩ := bind_eq_ok_iff.mp h
  obtain ⟨⟨label, left'⟩, hlabel, h⟩ := bind_eq_ok_iff.mp h
  obtain ⟨_, hlabel', h⟩ := bind_eq_ok_iff.mp h
  obtain ⟨⟨target, left''⟩, htarget, h⟩ := bind_eq_ok_iff.mp h
  obtain ⟨_, htarget', h⟩ := bind_eq_ok_iff.mp h
  obtain ⟨last, hend, h⟩ := bind_eq_ok_iff.mp h
  cases h
  rw [eq_some_of_requireAt hsource'] at hsource
  rw [eq_some_of_requireAt hlabel'] at hlabel
  rw [eq_some_of_requireAt htarget'] at htarget
  have hfirst := consumes_text.field hsource
  have hsecond := (consumes_label leaveList).field hlabel
  have hthird := consumes_text.field htarget
  exact ((hfirst.trans hsecond).trans hthird).leaves (leaves_of_endList hend)

theorem consumes_read : Consumes read := by
  intro text edge rest h
  unfold read at h
  split at h
  · next hstart => exact passes_list hstart (leaves_of_readFields h)
  · next hstart => exact passes_object hstart (leaves_of_readObject h)
  · exact absurd h unexpected_ne_ok

end SnapshotEdge

namespace Snapshot

/-- Whether a value was read under the name. -/
def Draft.has (draft : Draft) (name : String) : Bool :=
  if name = "version" then draft.version.isSome
  else if name = "type" then draft.kind.isSome
  else if name = "postfix" then draft.tokens.isSome
  else if name = "regex" then draft.regex.isSome
  else if name = "closure" then draft.closure.isSome
  else if name = "start" then draft.start.isSome
  else if name = "accepts" then draft.accepts.isSome
  else if name = "edges" then draft.edges.isSome
  else false

/-- The member takes a value.  If its name is known, then it was not read before, and it is now. -/
structure Draft.Takes (draft : Draft) (name : String) (text : List Char) (next : Draft)
    (rest : List Char) : Prop where
  passes : ∃ left, readColon text = .ok left ∧ Passes left rest
  new : name ∈ memberNames → draft.has name = false
  has_eq : ∀ other ∈ memberNames, next.has other = (draft.has other || decide (other = name))

theorem Draft.Takes.of_once {draft state : Draft} {reader : Reader α} {known : Option α}
    {keep : α → Draft} {next : α × List Char → Except ReadError (Draft × List Char)}
    (hreader : Consumes reader)
    (h : readOnce name known reader text >>= next = .ok (state, rest))
    (hkeep : ∀ value left, next (value, left) = .ok (keep value, left))
    (hbefore : draft.has name = known.isSome) (hself : ∀ value, (keep value).has name = true)
    (hothers : ∀ value other, other ≠ name → (keep value).has other = draft.has other) :
    draft.Takes name text state rest where
  passes := consumes_once hreader h hkeep
  new _ := by
    obtain ⟨found, honce, -⟩ := bind_eq_ok_iff.mp h
    rw [hbefore, (readOnce_eq_ok honce).1]
    rfl
  has_eq other _ := by
    obtain ⟨found, -, h⟩ := bind_eq_ok_iff.mp h
    rw [hkeep] at h
    cases h
    by_cases hother : other = name
    · rw [hother, hself]
      simp
    · rw [hothers _ other hother]
      simp [hother]

/-- A member that is read takes a value, whatever its name is. -/
theorem Draft.takes_of_readMember {draft next : Draft}
    (h : draft.readMember name text = .ok (next, rest)) : draft.Takes name text next rest := by
  unfold readMember at h
  split at h
  · next hname =>
    subst hname
    exact .of_once consumes_word32 h (fun _ _ => rfl)
      (by simp [has]) (by simp [has]) (by simp +contextual [has])
  split at h
  · next hname =>
    subst hname
    exact .of_once (consumes_choice kindChoice) h (fun _ _ => rfl)
      (by simp [has]) (by simp [has]) (by simp +contextual [has])
  split at h
  · next hname =>
    subst hname
    exact .of_once consumes_text h (fun _ _ => rfl)
      (by simp [has]) (by simp [has]) (by simp +contextual [has])
  split at h
  · next hname =>
    subst hname
    exact .of_once consumes_text.optional h (fun _ _ => rfl)
      (by simp [has]) (by simp [has]) (by simp +contextual [has])
  split at h
  · next hname =>
    subst hname
    exact .of_once (consumes_choice closureChoice) h (fun _ _ => rfl)
      (by simp [has]) (by simp [has]) (by simp +contextual [has])
  split at h
  · next hname =>
    subst hname
    exact .of_once consumes_text h (fun _ _ => rfl)
      (by simp [has]) (by simp [has]) (by simp +contextual [has])
  split at h
  · next hname =>
    subst hname
    exact .of_once consumes_text.list h (fun _ _ => rfl)
      (by simp [has]) (by simp [has]) (by simp +contextual [has])
  split at h
  · next hname =>
    subst hname
    exact .of_once SnapshotEdge.consumes_read.list h (fun _ _ => rfl)
      (by simp [has]) (by simp [has]) (by simp +contextual [has])
  · next h₁ h₂ h₃ h₄ h₅ h₆ h₇ h₈ =>
    have hunknown : name ∉ memberNames := by simp [memberNames, *]
    have hpasses := consumesMember_skip draft _ _ _ h
    obtain ⟨left, -, h⟩ := bind_eq_ok_iff.mp h
    obtain ⟨last, -, h⟩ := bind_eq_ok_iff.mp h
    cases h
    refine ⟨hpasses, fun hname => absurd hname hunknown, fun other hother => ?_⟩
    have hne : other ≠ name := fun heq => hunknown (heq ▸ hother)
    simp [hne]

/-- The reader of a member leaves what follows its value, and it adds to the draft what the member
adds to the entries. -/
theorem count_member {draft next : Draft} {left : List Char} (hfollows : Follows value written)
    (hrest : Ended rest) (h : draft.readMember name (written ++ rest) = .ok (next, left))
    (hother : other ∈ memberNames) :
    left = rest ∧ ∀ entries, (valuesOf other ((name, value) :: entries)).length +
      (draft.has other).toNat = (valuesOf other entries).length + (next.has other).toNat := by
  obtain ⟨⟨value', hcolon, hpasses⟩, hnew, hhas⟩ := Draft.takes_of_readMember h
  obtain ⟨value'', hcolon', hpasses'⟩ := hfollows.exists_passes hrest
  rw [hcolon] at hcolon'
  cases hcolon'
  refine ⟨hpasses.unique hpasses', fun entries => ?_⟩
  rw [hhas other hother]
  by_cases hname : other = name
  · subst hname
    simp [valuesOf_cons_self, hnew hother]
  · simp [valuesOf, hname, Ne.symm hname]

/-- **Members are counted**: a known name that stands among the entries was not read before, it
stands there once, and it is read in the end. -/
theorem count_members (h : Members first entries text) {fuel : Nat} {draft final : Draft}
    {left : List Char}
    (hread : readMembers Draft.readMember fuel first draft (text ++ rest) = .ok (final, left))
    (hname : name ∈ memberNames) :
    (valuesOf name entries).length + (draft.has name).toNat = (final.has name).toNat := by
  induction h generalizing fuel draft with
  | close hblanks =>
    cases fuel with
    | zero => cases hread
    | succ fuel =>
      rw [List.append_assoc, List.singleton_append, readMembers, nextMember_close hblanks] at hread
      cases hread
      exact Nat.zero_add _
  | first hblanks hquoted hfollows hrest ih =>
    cases fuel with
    | zero => cases hread
    | succ fuel =>
      rw [List.append_assoc, List.append_assoc, List.append_assoc] at hread
      obtain ⟨state, left, hstate, hread⟩ := readMembers_of_nextMember hquoted
        (fun inner hinner => by rw [hinner]; exact nextMember_first hblanks inner) hread
      obtain ⟨rfl, hcount⟩ := count_member hfollows (hrest.ended rest) hstate hname
      rw [hcount, ih hread]
  | next hbefore hblanks hquoted hfollows hrest ih =>
    cases fuel with
    | zero => cases hread
    | succ fuel =>
      rw [List.append_assoc, List.cons_append, List.append_assoc, List.append_assoc,
        List.append_assoc] at hread
      obtain ⟨state, left, hstate, hread⟩ := readMembers_of_nextMember hquoted
        (fun inner hinner => by rw [hinner]; exact nextMember_next hbefore hblanks inner) hread
      obtain ⟨rfl, hcount⟩ := count_member hfollows (hrest.ended rest) hstate hname
      rw [hcount, ih hread]

/-- The names of the members without which there is no snapshot. -/
def requiredNames : List String :=
  ["version", "type", "postfix", "start", "accepts", "edges"]

theorem eq_some_of_require {field : Option α} {a : α} (h : require name field rest = .ok a) :
    field = some a := by
  unfold require at h
  split at h
  · cases h
    rfl
  · cases h

theorem has_of_finish {draft : Draft} {snapshot : Snapshot} (h : draft.finish rest = .ok snapshot)
    (hname : name ∈ requiredNames) : draft.has name = true := by
  obtain ⟨version, hversion, h⟩ := bind_eq_ok_iff.mp h
  obtain ⟨kind, hkind, h⟩ := bind_eq_ok_iff.mp h
  obtain ⟨tokens, htokens, h⟩ := bind_eq_ok_iff.mp h
  obtain ⟨start, hstart, h⟩ := bind_eq_ok_iff.mp h
  obtain ⟨accepts, haccepts, h⟩ := bind_eq_ok_iff.mp h
  obtain ⟨edges, hedges, h⟩ := bind_eq_ok_iff.mp h
  simp only [requiredNames, List.mem_cons, List.not_mem_nil, or_false] at hname
  rcases hname with rfl | rfl | rfl | rfl | rfl | rfl
  · simp [Draft.has, eq_some_of_require hversion]
  · simp [Draft.has, eq_some_of_require hkind]
  · simp [Draft.has, eq_some_of_require htokens]
  · simp [Draft.has, eq_some_of_require hstart]
  · simp [Draft.has, eq_some_of_require haccepts]
  · simp [Draft.has, eq_some_of_require hedges]

theorem requiredNames_subset (h : name ∈ requiredNames) : name ∈ memberNames := by
  simp only [requiredNames, List.mem_cons, List.not_mem_nil, or_false] at h
  rcases h with rfl | rfl | rfl | rfl | rfl | rfl <;> simp [memberNames]

/-- An object that a snapshot is read from has every known member at most once, and the required
ones once. -/
theorem length_valuesOf_of_parse (htext : IsObject entries text) (h : parse text = .ok snapshot) :
    (∀ name ∈ memberNames, (valuesOf name entries).length ≤ 1) ∧
      ∀ name ∈ requiredNames, (valuesOf name entries).length = 1 := by
  obtain ⟨before, inner, after, hbefore, hafter, hinner, rfl⟩ := htext
  obtain ⟨read, hread, -⟩ := bind_eq_ok_iff.mp h
  have hwhole : readWhole readAny (before ++ '\x7b' :: (inner ++ after)) = .ok read := by
    cases hresult : readWhole readAny (before ++ '\x7b' :: (inner ++ after)) with
    | error error =>
      rw [hresult] at hread
      cases hread
    | ok found =>
      rw [hresult] at hread
      cases hread
      rfl
  -- Nothing was known before the first member, so the count of a name is what is known in the end.
  obtain ⟨⟨found, left⟩, hany, -⟩ := bind_eq_ok_iff.mp hwhole
  rw [readAny_object hbefore] at hany
  obtain ⟨⟨draft, last⟩, hdraft, hany⟩ := bind_eq_ok_iff.mp hany
  obtain ⟨made, hfinish, -⟩ := bind_eq_ok_iff.mp hany
  have hcount : ∀ name ∈ memberNames, (valuesOf name entries).length = (draft.has name).toNat := by
    intro name hname
    have hnone : Draft.has {} name = false := by simp [Draft.has]
    have hcount := count_members hinner hdraft hname
    rwa [hnone, Bool.toNat_false, Nat.add_zero] at hcount
  refine ⟨fun name hname => ?_, fun name hname => ?_⟩
  · rw [hcount name hname]
    exact Bool.toNat_le _
  · rw [hcount name (requiredNames_subset hname), has_of_finish hfinish hname]
    rfl

/-- **Reading ignores presentation.**  From an object that holds the members of a snapshot of the
supported version the snapshot is read, in whatever order they come, however they are spelled and
whatever stands between them.  From an object in which a known member comes twice, or a required one
is missing, none is read. -/
theorem parse_ignores_presentation (htext : IsObject entries text) :
    (∀ snapshot : Snapshot, snapshot.version = currentVersion →
      (∀ edge ∈ snapshot.edges, edge.label.IsWritable) →
        snapshot.HeldBy entries → parse text = .ok snapshot) ∧
      ((∃ name ∈ memberNames, 2 ≤ (valuesOf name entries).length) ∨
        (∃ name ∈ requiredNames, valuesOf name entries = []) →
          ∃ error, parse text = .error error) := by
  constructor
  · intro snapshot hversion hlabels hheld
    have hsize : snapshot.version < UInt32.size := by
      rw [hversion]
      decide
    simp only [parse, readWhole_of_heldBy hlabels hsize hheld htext, hversion, Except.mapError,
      bind, Except.bind, if_true]
    rfl
  · intro hdefect
    cases hparse : parse text with
    | error error => exact ⟨error, rfl⟩
    | ok found =>
      obtain ⟨hatMost, hrequired⟩ := length_valuesOf_of_parse htext hparse
      rcases hdefect with ⟨name, hname, htwice⟩ | ⟨name, hname, hnone⟩
      · exact absurd (hatMost name hname) (Nat.not_le_of_lt htwice)
      · have hone := hrequired name hname
        rw [hnone] at hone
        cases hone

/-- The members come in another order, those of the edge too, a text is spelled with an escape, and
a member that is not known holds half a surrogate pair.  In the second text the version comes
twice. -/
theorem parse_ignores_presentation_of_reordered :
    let unknown := "\"x\" : [1e9,\x7b\"\\ud800\":null\x7d],"
    let edges := "\"edges\":[\x7b\"to\":\"S0\",\"symbol\":\"a\",\"from\":\"S0\"\x7d],"
    let known := "\"accepts\":[ ],\"start\":\"S\\u0030\",\"postfix\":\"a\","
    let last := "\"type\":\"NFA\",\"regex\":null,\"version\":1"
    parse (" \x7b" ++ unknown ++ edges ++ known ++ last ++ "\x7d\n").toList =
        .ok ⟨1, .nfa, "a", none, .epsilon, "S0", [], [⟨"S0", .symbol 'a', "S0"⟩]⟩ ∧
      ∃ error, parse "\x7b\"version\":1,\"version\":1\x7d".toList = .error error := by
  intro unknown edges known last
  have hblank : Blank [' '] := by simp [Blank, isSpace]
  have hend : Blank ['\n'] := by simp [Blank, isSpace]
  have hnull : WellFormed .value ['n', 'u', 'l', 'l'] := .word (by decide)
  have hblanks : WellFormed .value ['[', ' ', ']'] := .list (.closeList hblank)
  have hone := wellFormed_toDigits 1
  have hletter := quotes_writeText ['a']
  have hstate := quotes_writeText ['S', '0']
  have hkind := quotes_writeText ['N', 'F', 'A']
  have hstart : Quotes "\"S\\u0030\"".toList ['S', '0'] :=
    ⟨['S', '\\', 'u', '0', '0', '3', '0'],
      .plain (by decide) (by decide) (by decide) (.unit (by decide) .nil), by decide +kernel⟩
  -- The member that is skipped.
  have hpower : WellFormed .value ['1', 'e', '9'] :=
    .number (.parts (.inl rfl) (isWhole_toDigits 1) .absent
      (.digits (.inl rfl) (.inl rfl) (isWhole_toDigits 9).1))
  have hhalf : StringText ['\\', 'u', 'd', '8', '0', '0'] := .unit rfl .nil
  have hx : WellFormed .value "[1e9,\x7b\"\\ud800\":null\x7d]".toList :=
    .list (.firstItem blank_nil hpower (.nextItem blank_nil blank_nil
      (.object (.firstMember blank_nil hhalf blank_nil blank_nil hnull (.closeObject blank_nil)))
      (.closeList blank_nil)))
  have hfollows : Follows "[1e9,\x7b\"\\ud800\":null\x7d]".toList
      " : [1e9,\x7b\"\\ud800\":null\x7d]".toList :=
    ⟨hx, [' '], [' '], hblank, hblank, by decide +kernel⟩
  -- The edge.
  have hends := Members.first blank_nil (quotes_writeText "to".toList) hstate.wellFormed.follows
    (.next blank_nil blank_nil (quotes_writeText "symbol".toList) hletter.wellFormed.follows
    (.next blank_nil blank_nil (quotes_writeText "from".toList) hstate.wellFormed.follows
    (.close blank_nil)))
  have hlist :=
    WellFormed.list (.firstItem blank_nil (.object hends.wellFormed) (.closeList blank_nil))
  -- The members in the order of the text.
  have hmembers := Members.first blank_nil (quotes_writeText "x".toList) hfollows
    (.next blank_nil blank_nil (quotes_writeText "edges".toList)
      hlist.follows
    (.next blank_nil blank_nil (quotes_writeText "accepts".toList) hblanks.follows
    (.next blank_nil blank_nil (quotes_writeText "start".toList) hstart.wellFormed.follows
    (.next blank_nil blank_nil (quotes_writeText "postfix".toList) hletter.wellFormed.follows
    (.next blank_nil blank_nil (quotes_writeText "type".toList) hkind.wellFormed.follows
    (.next blank_nil blank_nil (quotes_writeText "regex".toList) hnull.follows
    (.next blank_nil blank_nil (quotes_writeText "version".toList) hone.follows
    (.close blank_nil))))))))
  have htwice := Members.first blank_nil (quotes_writeText "version".toList) hone.follows
    (.next blank_nil blank_nil (quotes_writeText "version".toList) hone.follows (.close blank_nil))
  have htext : IsObject _ (" \x7b" ++ unknown ++ edges ++ known ++ last ++ "\x7d\n").toList :=
    ⟨[' '], _, ['\n'], hblank, hend, hmembers, by decide +kernel⟩
  have htext' : IsObject _ "\x7b\"version\":1,\"version\":1\x7d".toList :=
    ⟨[], _, [], blank_nil, blank_nil, htwice, by decide +kernel⟩
  refine ⟨(parse_ignores_presentation htext).1 _ rfl ?_ ⟨?_, fun _ => .inr (by decide)⟩,
    (parse_ignores_presentation htext').2 (.inl ⟨"version", by decide, by decide⟩)⟩
  · intro edge hedge
    cases List.mem_singleton.mp hedge
    show isSymbol 'a' = true
    decide
  · simp only [members, regexMember, List.append_nil, List.forall_mem_append, List.forall_mem_cons]
    refine ⟨⟨.inl ⟨_, rfl, ?_⟩, .inl ⟨_, rfl, ?_⟩, .inl ⟨_, rfl, ?_⟩, by simp⟩,
      .inr ⟨trivial, rfl, by decide⟩,
      .inl ⟨_, rfl, ?_⟩, .inl ⟨_, rfl, ?_⟩, .inl ⟨_, rfl, ?_⟩, by simp⟩ <;>
      simp only [Presents]
    · exact hkind
    · exact hletter
    · exact hstart
    · exact ⟨[], _, .close hblank, rfl, rfl⟩
    · refine ⟨_, _, .first blank_nil (.close blank_nil), rfl, _, [], rfl, ?_, rfl⟩
      exact ⟨_, _, hends, rfl, ⟨_, rfl, hstate⟩, ⟨_, rfl, hletter⟩, ⟨_, rfl, hstate⟩, trivial⟩

end Snapshot

end PatternAutomata
