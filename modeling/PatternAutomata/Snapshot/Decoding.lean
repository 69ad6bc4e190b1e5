import PatternAutomata.Json.Reading
import PatternAutomata.Snapshot.Basic

/-!
# Reading snapshots

A snapshot is read from a JSON object whose members may come in any order.  Members under other
names are skipped; one of the known names must not come twice.  The pattern text may be missing or
`null`, and the closure may be missing.  Both the snapshot and its edges may also be lists of their
fields in order.  The version is looked at last.
-/

namespace PatternAutomata

/-- Why a snapshot cannot be read. -/
inductive SnapshotError where
  | unreadable (cause : Json.ReadError)
  | unsupportedVersion (found : Nat)
deriving DecidableEq, Repr

def Snapshot.versionMessage (found : Nat) : String :=
  s!"unsupported snapshot version {found} (expected {currentVersion})"

/-- What is said about a snapshot that cannot be read, without the place. -/
def SnapshotError.message : SnapshotError → String
  | unreadable cause => "malformed snapshot: " ++ cause.message
  | unsupportedVersion found => Snapshot.versionMessage found

/-- What is said about a text that no snapshot can be read from, with the place. -/
def SnapshotError.messageIn (text : List Char) : SnapshotError → String
  | unreadable cause => "malformed snapshot: " ++ cause.messageIn text
  | unsupportedVersion found => Snapshot.versionMessage found

open Json

def kindChoice : Choice AutomatonKind :=
  ⟨(AutomatonKind.nfa.text, .nfa), (AutomatonKind.dfa.text, .dfa)⟩

def closureChoice : Choice ClosureMode :=
  ⟨(ClosureMode.epsilon.text, .epsilon), (ClosureMode.reachability.text, .reachability)⟩

def defaultClosure : ClosureMode := .epsilon

def require {α : Type} (name : String) (value : Option α) (rest : List Char) :
    Except ReadError α :=
  match value with
  | some value => .ok value
  | none => mismatch (.missingField name) (leaveObject rest)

def requireAt {α : Type} (index : Nat) (shape : String) (fields : Nat) (value : Option α)
    (rest : List Char) : Except ReadError α :=
  match value with
  | some value => .ok value
  | none => mismatch (.invalidLength index shape fields) (leaveList rest)

namespace SnapshotEdge

/-- The members of an edge read so far. -/
structure Draft where
  source : Option String := none
  label : Option Label := none
  target : Option String := none

/-- Reads a label; `leave` gives the end of the edge around it. -/
def readLabel (leave : List Char → List Char) : Reader Label := fun text => do
  let (written, rest) ← readText text
  match Label.parse? written.toList with
  | some label => return (label, rest)
  | none => mismatch (.invalidLabel written) (leave rest)

def Draft.readMember (draft : Draft) (name : String) : Reader Draft := fun text =>
  if name = "from" then do
    let (value, rest) ← readOnce name draft.source readText text
    return ({ draft with source := some value }, rest)
  else if name = "symbol" then do
    let (value, rest) ← readOnce name draft.label (readLabel leaveObject) text
    return ({ draft with label := some value }, rest)
  else if name = "to" then do
    let (value, rest) ← readOnce name draft.target readText text
    return ({ draft with target := some value }, rest)
  else skipMember draft text

/-- The edge of a draft, at the end of its object. -/
def Draft.finish (draft : Draft) (rest : List Char) : Except ReadError SnapshotEdge := do
  let source ← require "from" draft.source rest
  let label ← require "symbol" draft.label rest
  let target ← require "to" draft.target rest
  return ⟨source, label, target⟩

def readObject : Reader SnapshotEdge := fun text => do
  let (draft, rest) ← readMembers Draft.readMember (text.length + 1) true {} text
  let edge ← draft.finish rest
  return (edge, leaveObject rest)

def readFields : Reader SnapshotEdge := fun text => do
  let needed {α : Type} (index : Nat) (value : Option α) (rest : List Char) :=
    requireAt index "SnapshotEdge" 3 value rest
  let (source, rest) ← readField? true readText text
  let source ← needed 0 source rest
  let (label, rest) ← readField? false (readLabel leaveList) rest
  let label ← needed 1 label rest
  let (target, rest) ← readField? false readText rest
  let target ← needed 2 target rest
  let rest ← endList rest
  return (⟨source, label, target⟩, rest)

def read : Reader SnapshotEdge := fun text =>
  match skipSpace text with
  | '[' :: rest => readFields rest
  | '\x7b' :: rest => readObject rest
  | rest => unexpected "struct SnapshotEdge" rest

end SnapshotEdge

namespace Snapshot

/-- The members of a snapshot read so far. -/
structure Draft where
  version : Option Nat := none
  kind : Option AutomatonKind := none
  tokens : Option String := none
  regex : Option (Option String) := none
  closure : Option ClosureMode := none
  start : Option String := none
  accepts : Option (List String) := none
  edges : Option (List SnapshotEdge) := none

def Draft.readMember (draft : Draft) (name : String) : Reader Draft := fun text =>
  if name = "version" then do
    let (value, rest) ← readOnce name draft.version readWord32 text
    return ({ draft with version := some value }, rest)
  else if name = "type" then do
    let (value, rest) ← readOnce name draft.kind (readChoice kindChoice) text
    return ({ draft with kind := some value }, rest)
  else if name = "postfix" then do
    let (value, rest) ← readOnce name draft.tokens readText text
    return ({ draft with tokens := some value }, rest)
  else if name = "regex" then do
    let (value, rest) ← readOnce name draft.regex (readOptional readText) text
    return ({ draft with regex := some value }, rest)
  else if name = "closure" then do
    let (value, rest) ← readOnce name draft.closure (readChoice closureChoice) text
    return ({ draft with closure := some value }, rest)
  else if name = "start" then do
    let (value, rest) ← readOnce name draft.start readText text
    return ({ draft with start := some value }, rest)
  else if name = "accepts" then do
    let (value, rest) ← readOnce name draft.accepts (readList readText) text
    return ({ draft with accepts := some value }, rest)
  else if name = "edges" then do
    let (value, rest) ← readOnce name draft.edges (readList SnapshotEdge.read) text
    return ({ draft with edges := some value }, rest)
  else skipMember draft text

/-- The snapshot of a draft, at the end of its object. -/
def Draft.finish (draft : Draft) (rest : List Char) : Except ReadError Snapshot := do
  let version ← require "version" draft.version rest
  let kind ← require "type" draft.kind rest
  let tokens ← require "postfix" draft.tokens rest
  let start ← require "start" draft.start rest
  let accepts ← require "accepts" draft.accepts rest
  let edges ← require "edges" draft.edges rest
  return {
    version, kind, tokens, start, accepts, edges
    regex := draft.regex.getD none
    closure := draft.closure.getD defaultClosure }

def readObject : Reader Snapshot := fun text => do
  let (draft, rest) ← readMembers Draft.readMember (text.length + 1) true {} text
  let snapshot ← draft.finish rest
  return (snapshot, leaveObject rest)

def readFields : Reader Snapshot := fun text => do
  let needed {α : Type} (index : Nat) (value : Option α) (rest : List Char) :=
    requireAt index "Snapshot" 8 value rest
  let (version, rest) ← readField? true readWord32 text
  let version ← needed 0 version rest
  let (kind, rest) ← readField? false (readChoice kindChoice) rest
  let kind ← needed 1 kind rest
  let (tokens, rest) ← readField? false readText rest
  let tokens ← needed 2 tokens rest
  let (regex, rest) ← readField? false (readOptional readText) rest
  let (closure, rest) ← readField? false (readChoice closureChoice) rest
  let (start, rest) ← readField? false readText rest
  let start ← needed 5 start rest
  let (accepts, rest) ← readField? false (readList readText) rest
  let accepts ← needed 6 accepts rest
  let (edges, rest) ← readField? false (readList SnapshotEdge.read) rest
  let edges ← needed 7 edges rest
  let rest ← endList rest
  return ({
    version, kind, tokens, start, accepts, edges
    regex := regex.getD none
    closure := closure.getD defaultClosure }, rest)

def readAny : Reader Snapshot := fun text =>
  match skipSpace text with
  | '[' :: rest => readFields rest
  | '\x7b' :: rest => readObject rest
  | rest => unexpected "struct Snapshot" rest

def parse (text : List Char) : Except SnapshotError Snapshot := do
  let snapshot ← (readWhole readAny text).mapError .unreadable
  if snapshot.version = currentVersion then return snapshot
  else throw (.unsupportedVersion snapshot.version)

end Snapshot

end PatternAutomata
