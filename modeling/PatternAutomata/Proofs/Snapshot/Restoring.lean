import PatternAutomata.Proofs.Compilation
import PatternAutomata.Proofs.Listing.Walk
import PatternAutomata.Proofs.Snapshot.RoundTrip

/-!
# Compiled patterns restored

The snapshot of a compiled pattern keeps the postfix, and the construction depends on nothing else
but the kind and the closure.  So it is enough that the written postfix is read back, that the
listing beside it can be written and read, and that the construction is a function: what is restored
is the compiled pattern itself.
-/

namespace PatternAutomata

/-! ### Written postfixes -/

/-- The postfixes that can be read back: their symbols are symbols of patterns. -/
def Postfix.IsWritable (tokens : Postfix) : Prop :=
  ∀ c, Token.symbol c ∈ tokens → isSymbol c = true

theorem Token.ofChar?_char {token : Token} (h : ∀ c, token = .symbol c → isSymbol c = true) :
    ofChar? token.char = some token := by
  cases token with
  | symbol c => exact if_pos (h c rfl)
  | star | plus | optional | concat | alternate => rfl

namespace Postfix

variable {tokens more : Postfix}

theorem IsWritable.append (h : tokens.IsWritable) (h' : more.IsWritable) :
    IsWritable (tokens ++ more) := by
  intro c hc
  exact (List.mem_append.mp hc).elim (h c) (h' c)

theorem isWritable_operator {token : Token} (h : ∀ c, Token.symbol c ≠ token) :
    IsWritable [token] := by
  intro c hc
  exact absurd (List.mem_singleton.mp hc) (h c)

theorem parseFrom_map_char (h : tokens.IsWritable) (position : Nat) :
    parseFrom position (tokens.map Token.char) = .ok tokens := by
  induction tokens generalizing position with
  | nil => rfl
  | cons token tokens ih =>
    have htoken : Token.ofChar? token.char = some token :=
      Token.ofChar?_char fun c hc => h c (List.mem_cons.mpr (.inl hc.symm))
    have hrest := ih (fun c hc => h c (List.mem_cons_of_mem token hc)) (position + 1)
    simp only [List.map_cons, parseFrom, htoken, hrest, bind, Except.bind]
    rfl

theorem parse_text (h : tokens.IsWritable) : parse tokens.text = .ok tokens := by
  rw [parse, text, String.toList_ofList]
  exact parseFrom_map_char h 0

end Postfix

theorem Parses.isWritable_postfixOf {level : Level} {text : List Char} {e : Expr}
    (h : Parses level text e) : e.postfixOf.IsWritable := by
  induction h with
  | symbol hc =>
    intro c hmem
    cases List.mem_singleton.mp hmem
    exact hc
  | group _ ih | once _ ih | single _ ih | only _ ih => exact ih
  | star _ ih | plus _ ih | optional _ ih => exact ih.append (Postfix.isWritable_operator nofun)
  | juxtaposed _ _ ihl ihr | pointed _ _ ihl ihr | either _ _ ihl ihr =>
    exact (ihl.append ihr).append (Postfix.isWritable_operator nofun)

/-! ### Snapshots of what was compiled -/

variable {nfa : Nfa} {automaton : Automaton} {options : CompileOptions} {tokens : Postfix}

namespace Implements

theorem graph_closed (h : Implements nfa options automaton) : automaton.graph.Closed := by
  cases h with
  | nfa => exact nfa.graph_closed
  | dfa hdfa => exact hdfa.graph_closed

theorem mem_alphabet_of_hasSymbol (h : Implements nfa options automaton) {symbol : Char}
    (hsymbol : automaton.graph.HasSymbol symbol) : symbol ∈ nfa.alphabet := by
  cases h with
  | nfa => exact Nfa.mem_alphabet_of_hasSymbol hsymbol
  | dfa hdfa => exact hdfa.alphabet_eq ▸ Dfa.mem_alphabet_of_hasSymbol hsymbol

/-- A compiled automaton is listed, and the labels of the listing can be read back. -/
theorem exists_list (h : Implements nfa options automaton)
    (hsymbols : ∀ c ∈ nfa.alphabet, isSymbol c = true) :
    ∃ listing, automaton.list = .ok listing ∧ ∀ edge ∈ listing.edges, edge.label.IsWritable := by
  obtain ⟨states, -, hlist⟩ := h.graph_closed.exists_list
  refine ⟨_, hlist, fun edge hedge => ?_⟩
  rcases Graph.label_of_mem_edges hedge with hlabel | ⟨symbol, hlabel, hsymbol⟩
  · rw [hlabel]
    trivial
  · rw [hlabel]
    exact hsymbols symbol (h.mem_alphabet_of_hasSymbol hsymbol)

end Implements

/-- Only the postfix, the kind and the closure of a snapshot decide what is built from it. -/
theorem Compiled.ofSnapshot_ofListing (htokens : tokens.IsWritable)
    (hassemble : assemble tokens options = .ok automaton) (regex : Option String)
    (listing : Listing) :
    ofSnapshot (.ofListing options.kind tokens.text regex options.closure listing) =
      .ok ⟨regex, regex.map writeConcat, tokens, automaton, options.closure⟩ := by
  simp only [ofSnapshot, Snapshot.ofListing, Postfix.parse_text htokens, hassemble, bind,
    Except.bind]
  rfl

/-- A text that passes the check compiles, its snapshot is there, and the compiled pattern itself is
read back from what is written of the snapshot, whatever white space stands after it. -/
theorem exists_restored {text : String} (h : check text.toList = []) (options : CompileOptions)
    (pretty : Bool) :
    ∃ compiled snapshot, compile text options = .ok compiled ∧
      compiled.automaton.graph.Closed ∧ compiled.snapshot = .ok snapshot ∧
      ∀ blanks, Json.Blank blanks →
        Compiled.parse ((snapshot.render (.ofChoice pretty)).toList ++ blanks) = .ok compiled := by
  obtain ⟨e, htree⟩ := (derives_of_check_eq_nil h).exists_parses
  obtain ⟨nfa, automaton, hnfa, -, hassemble, himplements⟩ := exists_assemble e options
  have htokens := htree.isWritable_postfixOf
  have hsymbols : ∀ c ∈ nfa.alphabet, isSymbol c = true := by
    intro c hc
    apply htokens
    exact Nfa.mem_tokens_of_mem_alphabet hnfa hc
  obtain ⟨listing, hlist, hwritable⟩ := himplements.exists_list hsymbols
  have hlabels : ∀ edge ∈ (Snapshot.ofListing options.kind e.postfixOf.text text options.closure
      listing).edges, edge.label.IsWritable := List.forall_mem_map.mpr hwritable
  refine ⟨_, .ofListing options.kind e.postfixOf.text text options.closure listing,
    compile_eq h htree hassemble, himplements.graph_closed, ?_, ?_⟩
  · simp only [Compiled.snapshot, hlist, himplements.kind_eq, bind, Except.bind]
    rfl
  · intro blanks hblanks
    have hread := Snapshot.parse_render_append pretty hlabels rfl hblanks
    simp only [Compiled.parse, hread, Compiled.ofSnapshot_ofListing htokens hassemble,
      Except.mapError, bind, Except.bind]
    rfl

/-- **Restoring.**  A text that passes the check compiles, the compiled pattern has a snapshot, and
from what is written of the snapshot, in either layout, the compiled pattern itself is restored: its
texts, its postfix, its closure and the same automaton, state by state and edge by edge.  So the
snapshot of what is restored is the same again. -/
theorem snapshot_restores_compiled {text : String} (h : check text.toList = [])
    (options : CompileOptions) (pretty : Bool) :
    ∃ compiled snapshot restored, compile text options = .ok compiled ∧
      compiled.snapshot = .ok snapshot ∧
      Compiled.parse (snapshot.render (.ofChoice pretty)).toList = .ok restored ∧
      restored = compiled ∧ restored.snapshot = .ok snapshot := by
  obtain ⟨compiled, snapshot, hcompile, -, hsnapshot, hparse⟩ := exists_restored h options pretty
  have hread := hparse [] Json.blank_nil
  rw [List.append_nil] at hread
  exact ⟨compiled, snapshot, compiled, hcompile, hsnapshot, hread, rfl, hsnapshot⟩

theorem snapshot_restores_compiled_of_group :
    check "(a|b)*.c".toList = [] ∧
      ∃ compiled snapshot restored, compile "(a|b)*.c" ⟨.dfa, .reachability⟩ = .ok compiled ∧
        compiled.snapshot = .ok snapshot ∧
        Compiled.parse (snapshot.render (.ofChoice true)).toList = .ok restored ∧
        restored = compiled ∧ restored.snapshot = .ok snapshot :=
  ⟨by decide, snapshot_restores_compiled (by decide) ⟨.dfa, .reachability⟩ true⟩

end PatternAutomata
