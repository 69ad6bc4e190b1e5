import PatternAutomata.Nfa.Fragment
import PatternAutomata.Proofs.Nfa.Closure

/-!
# Sealed automata

An ε-automaton is sealed if it closes an arena that the operations have built from the empty one.
Every operation keeps the nodes tidy: a symbol has one entry in a node, and the entry has a target.
So in a sealed automaton the alphabet has the symbols that some edge reads and no others, and the
closure that follows every edge follows exactly the edges that have a label.

The automaton of a postfix is sealed, and its symbols are those of the postfix: what the operations
on arenas keep, the assembly of a postfix keeps.
-/

namespace PatternAutomata.Nfa

/-! ### Tidy nodes -/

/-- Every symbol of a node has one entry, with a target at least. -/
structure Node.Tidy (node : Node) : Prop where
  nodup : (node.moves.map (fun entry => entry.1)).Nodup
  ne_nil : ∀ entry ∈ node.moves, entry.2 ≠ []

theorem appendNew_ne_nil (xs : List StateId) (x : StateId) : appendNew xs x ≠ [] := by
  unfold appendNew
  split
  · next h => exact List.ne_nil_of_mem h
  · simp

namespace Node

variable {node : Node} {symbol c : Char} {target q : StateId} {moves : List (Char × List StateId)}

theorem tidy_empty : Tidy {} :=
  ⟨List.nodup_nil, nofun⟩

theorem mem_symbols_addTarget :
    c ∈ (addTarget symbol target moves).map (fun entry => entry.1) ↔
      c = symbol ∨ c ∈ moves.map (fun entry => entry.1) := by
  induction moves with
  | nil => simp [addTarget]
  | cons entry moves ih =>
    obtain ⟨d, targets⟩ := entry
    simp only [addTarget]
    split
    · next h =>
      subst h
      simp
    · rw [List.map_cons, List.mem_cons, ih, List.map_cons, List.mem_cons]
      exact or_left_comm

theorem nodup_addTarget (h : (moves.map (fun entry => entry.1)).Nodup) :
    ((addTarget symbol target moves).map (fun entry => entry.1)).Nodup := by
  induction moves with
  | nil => simp [addTarget]
  | cons entry moves ih =>
    obtain ⟨d, targets⟩ := entry
    obtain ⟨hnew, hrest⟩ := List.nodup_cons.mp h
    simp only [addTarget]
    split
    · exact h
    · next hne =>
      refine List.nodup_cons.mpr ⟨fun hmem => ?_, ih hrest⟩
      rcases mem_symbols_addTarget.mp hmem with heq | hmem
      · exact hne heq
      · exact hnew hmem

theorem ne_nil_addTarget (h : ∀ entry ∈ moves, entry.2 ≠ []) :
    ∀ entry ∈ addTarget symbol target moves, entry.2 ≠ [] := by
  induction moves with
  | nil => simp [addTarget]
  | cons entry moves ih =>
    obtain ⟨hfirst, hrest⟩ := List.forall_mem_cons.mp h
    simp only [addTarget]
    split
    · exact List.forall_mem_cons.mpr ⟨appendNew_ne_nil _ _, hrest⟩
    · exact List.forall_mem_cons.mpr ⟨hfirst, ih hrest⟩

theorem Tidy.addMove (h : node.Tidy) : (node.addMove symbol target).Tidy :=
  ⟨nodup_addTarget h.nodup, ne_nil_addTarget h.ne_nil⟩

theorem Tidy.addEpsilon (h : node.Tidy) : (node.addEpsilon target).Tidy :=
  ⟨h.nodup, h.ne_nil⟩

/-- No entry of a tidy node is hidden behind another one. -/
theorem Tidy.on_eq (h : node.Tidy) {entry : Char × List StateId} (hentry : entry ∈ node.moves) :
    node.on entry.1 = entry.2 := by
  obtain ⟨moves, epsilon⟩ := node
  have hnodup : (moves.map (fun entry => entry.1)).Nodup := h.nodup
  have hmem : entry ∈ moves := hentry
  have hfind : moves.find? (fun other => other.1 = entry.1) = some entry := by
    clear h hentry
    induction moves with
    | nil => cases hmem
    | cons first moves ih =>
      obtain ⟨hnew, hrest⟩ := List.nodup_cons.mp hnodup
      rcases List.mem_cons.mp hmem with rfl | hmem
      · simp
      · have hne : first.1 ≠ entry.1 := fun heq =>
          hnew (List.mem_map.mpr ⟨entry, hmem, heq.symm⟩)
        rw [List.find?_cons_of_neg (by simpa using hne)]
        exact ih hrest hmem
  simp only [on, hfind]

theorem Tidy.mem_targets_iff (h : node.Tidy) :
    q ∈ node.targets ↔ ∃ label, q ∈ node.along label := by
  constructor
  · intro hq
    rcases List.mem_append.mp hq with hq | hq
    · obtain ⟨entry, hentry, hq⟩ := List.mem_flatMap.mp hq
      refine ⟨.symbol entry.1, ?_⟩
      rw [along, h.on_eq hentry]
      exact hq
    · exact ⟨.epsilon, hq⟩
  · rintro ⟨label, hq⟩
    exact mem_targets_of_mem_along hq

end Node

/-! ### Arenas that were built -/

/-- The arenas that the operations build from the empty one. -/
inductive Arena.Built : Arena → Prop where
  | empty : Built .empty
  | addState {arena : Arena} (h : Built arena) : Built arena.addState.2
  | addMove {arena next : Arena} {source target : StateId} {symbol : Char} (h : Built arena)
    (hnext : arena.addMove source symbol target = .ok next) : Built next
  | addEpsilon {arena next : Arena} {source target : StateId} (h : Built arena)
    (hnext : arena.addEpsilon source target = .ok next) : Built next

/-- The automaton closes an arena that was built. -/
def Sealed (nfa : Nfa) : Prop :=
  ∃ (arena : Arena) (start accept : StateId),
    arena.Built ∧ arena.finish start accept = .ok nfa

theorem Arena.nodes_finish {arena : Arena} {start accept : StateId} {nfa : Nfa}
    (h : arena.finish start accept = .ok nfa) : nfa.nodes = arena.nodes := by
  unfold finish at h
  split at h
  · split at h
    · cases h
      rfl
    · cases h
  · cases h

theorem Arena.nodes_addMove {arena next : Arena} {source target : StateId} {symbol : Char}
    (h : arena.addMove source symbol target = .ok next) :
    ∃ hsource : source < arena.nodes.size,
      next.nodes = arena.nodes.set source (arena.nodes[source].addMove symbol target) := by
  unfold addMove at h
  split at h
  · split at h
    · next hsource =>
      cases h
      exact ⟨hsource, rfl⟩
    · cases h
  · cases h

theorem Arena.nodes_addEpsilon {arena next : Arena} {source target : StateId}
    (h : arena.addEpsilon source target = .ok next) :
    ∃ hsource : source < arena.nodes.size,
      next.nodes = arena.nodes.set source (arena.nodes[source].addEpsilon target) := by
  unfold addEpsilon at h
  split at h
  · split at h
    · next hsource =>
      cases h
      exact ⟨hsource, rfl⟩
    · cases h
  · cases h

theorem Arena.forall_mem_set {property : Node → Prop} {nodes : Array Node}
    (h : ∀ node ∈ nodes, property node) {i : Nat} (hi : i < nodes.size) {node : Node}
    (hnode : property node) : ∀ other ∈ nodes.set i node, property other := by
  intro other hother
  rcases Array.mem_or_eq_of_mem_set hother with hother | rfl
  · exact h other hother
  · exact hnode

theorem Arena.Built.tidy {arena : Arena} (h : arena.Built) : ∀ node ∈ arena.nodes, node.Tidy := by
  induction h with
  | empty => exact fun node hnode => absurd hnode (Array.not_mem_empty node)
  | addState _ ih =>
    intro node hnode
    rcases Array.mem_push.mp hnode with hnode | rfl
    · exact ih node hnode
    · exact Node.tidy_empty
  | addMove _ hnext ih =>
    obtain ⟨hsource, hnodes⟩ := nodes_addMove hnext
    rw [hnodes]
    exact forall_mem_set ih hsource (ih _ (Array.getElem_mem hsource)).addMove
  | addEpsilon _ hnext ih =>
    obtain ⟨hsource, hnodes⟩ := nodes_addEpsilon hnext
    rw [hnodes]
    exact forall_mem_set ih hsource (ih _ (Array.getElem_mem hsource)).addEpsilon

namespace Sealed

variable {nfa : Nfa} {p q : StateId} {symbol : Char}

theorem tidy (h : nfa.Sealed) : ∀ node ∈ nfa.nodes, node.Tidy := by
  obtain ⟨arena, start, accept, hbuilt, hfinish⟩ := h
  rw [Arena.nodes_finish hfinish]
  exact hbuilt.tidy

/-- The alphabet has the symbols that some edge reads. -/
theorem mem_alphabet_iff_links (h : nfa.Sealed) :
    symbol ∈ nfa.alphabet ↔ ∃ p q, links nfa.nodes p (.symbol symbol) q := by
  constructor
  · intro hsymbol
    obtain ⟨node, hnode, entry, hentry, rfl⟩ := mem_alphabet_iff.mp hsymbol
    have htidy := h.tidy node hnode
    obtain ⟨q, hq⟩ := List.exists_mem_of_ne_nil _ (htidy.ne_nil entry hentry)
    obtain ⟨p, hp⟩ := Array.mem_iff_getElem?.mp hnode
    refine ⟨p, q, node, hp, ?_⟩
    rw [Node.along, htidy.on_eq hentry]
    exact hq
  · rintro ⟨p, q, hedge⟩
    exact mem_alphabet_of_links hedge

/-- The closure along every edge follows the edges with any label. -/
theorem follows_iff_links (h : nfa.Sealed) :
    nfa.Follows .reachability p q ↔ ∃ label, links nfa.nodes p label q := by
  constructor
  · rintro ⟨node, hnode, hq⟩
    have htidy := h.tidy node (Array.mem_of_getElem? hnode)
    obtain ⟨label, hlabel⟩ := htidy.mem_targets_iff.mp hq
    exact ⟨label, node, hnode, hlabel⟩
  · rintro ⟨label, node, hnode, hq⟩
    exact ⟨node, hnode, Node.mem_targets_of_mem_along hq⟩

end Sealed

/-! ### Automata of postfixes -/

theorem liftFault_eq_ok_iff {α : Type} {result : Except Fault α} {a : α} :
    liftFault result = .ok a ↔ result = .ok a := by
  cases result <;> simp [liftFault, Except.mapError]

/-- Every operation keeps the property, as long as the symbols that are added are among some. -/
structure Arena.Kept (symbols : Char → Prop) (property : Arena → Prop) : Prop where
  empty : property .empty
  addState : ∀ arena, property arena → property arena.addState.2
  addMove : ∀ arena source symbol target next, symbols symbol → property arena →
    arena.addMove source symbol target = .ok next → property next
  addEpsilon : ∀ arena source target next, property arena →
    arena.addEpsilon source target = .ok next → property next

namespace Arena.Kept

variable {symbols : Char → Prop} {property : Arena → Prop} {arena next : Arena}
  {assembly after : Assembly}

theorem addEpsilons (h : Kept symbols property) {edges : List (StateId × StateId)}
    (harena : property arena) (hnext : Assembly.addEpsilons arena edges = .ok next) :
    property next := by
  induction edges generalizing arena with
  | nil =>
    cases hnext
    exact harena
  | cons edge edges ih =>
    rw [Assembly.addEpsilons, List.foldlM_cons] at hnext
    obtain ⟨middle, hmiddle, hrest⟩ := bind_eq_ok_iff.mp hnext
    exact ih (h.addEpsilon _ _ _ _ harena hmiddle) hrest

theorem addFragment (h : Kept symbols property) {rest : List Fragment}
    {edges : Arena → Fragment → Except Fault Arena} (harena : property arena)
    (hedges : ∀ grown fragment next, property grown → edges grown fragment = .ok next →
      property next)
    (hnext : Assembly.addFragment arena rest edges = .ok after) : property after.arena := by
  obtain ⟨last, hlast, hafter⟩ := bind_eq_ok_iff.mp hnext
  cases hafter
  have hgrown : property arena.addState.2.addState.2 := h.addState _ (h.addState _ harena)
  exact hedges _ _ last hgrown (liftFault_eq_ok_iff.mp hlast)

theorem add (h : Kept symbols property) {position : Nat} {token : Token}
    (htoken : ∀ c, token = .symbol c → symbols c) (harena : property assembly.arena)
    (hnext : assembly.add position token = .ok after) : property after.arena := by
  obtain ⟨arena, fragments⟩ := assembly
  have hrepeated : ∀ {inner rest skip again},
      Assembly.addFragment arena rest (fun arena outer =>
        Assembly.addEpsilons arena (Assembly.repeatEdges inner outer skip again)) = .ok after →
          property after.arena :=
    fun hnext => h.addFragment harena (fun _ _ _ hgrown => h.addEpsilons hgrown) hnext
  cases token with
  | symbol c =>
    have hsymbol : symbols c := htoken c rfl
    exact h.addFragment harena (fun _ _ _ hgrown => h.addMove _ _ _ _ _ hsymbol hgrown) hnext
  | star | plus | optional =>
    cases fragments with
    | nil => cases hnext
    | cons inner rest => exact hrepeated hnext
  | concat =>
    match fragments with
    | [] | [_] => cases hnext
    | right :: left :: rest =>
      obtain ⟨last, hlast, hafter⟩ := bind_eq_ok_iff.mp hnext
      cases hafter
      exact h.addEpsilon _ _ _ _ harena (liftFault_eq_ok_iff.mp hlast)
  | alternate =>
    match fragments with
    | [] | [_] => cases hnext
    | right :: left :: rest =>
      exact h.addFragment harena (fun _ _ _ hgrown => h.addEpsilons hgrown) hnext

theorem addAll (h : Kept symbols property) {tokens : Postfix} {position : Nat}
    (htokens : ∀ c, Token.symbol c ∈ tokens → symbols c) (harena : property assembly.arena)
    (hnext : assembly.addAll position tokens = .ok after) : property after.arena := by
  induction tokens generalizing assembly position with
  | nil =>
    cases hnext
    exact harena
  | cons token tokens ih =>
    obtain ⟨middle, hmiddle, hrest⟩ := bind_eq_ok_iff.mp hnext
    have hfirst : ∀ c, token = .symbol c → symbols c := fun c hc =>
      htokens c (List.mem_cons.mpr (.inl hc.symm))
    exact ih (fun c hc => htokens c (List.mem_cons_of_mem token hc)) (h.add hfirst harena hmiddle)
      hrest

/-- The automaton of a postfix closes an arena with the properties that are kept. -/
theorem exists_arena (h : Kept symbols property) {tokens : Postfix} {nfa : Nfa}
    (htokens : ∀ c, Token.symbol c ∈ tokens → symbols c) (hnfa : ofPostfix tokens = .ok nfa) :
    ∃ (arena : Arena) (start accept : StateId),
      property arena ∧ arena.finish start accept = .ok nfa := by
  obtain ⟨⟨arena, fragments⟩, hassembly, hfinish⟩ := bind_eq_ok_iff.mp hnfa
  have harena : property arena := h.addAll htokens h.empty hassembly
  match fragments with
  | [] | _ :: _ :: _ => cases hfinish
  | [whole] => exact ⟨arena, _, _, harena, liftFault_eq_ok_iff.mp hfinish⟩

end Arena.Kept

theorem Arena.built_kept : Kept (fun _ => True) Built where
  empty := .empty
  addState _ h := .addState h
  addMove _ _ _ _ _ _ h hnext := .addMove h hnext
  addEpsilon _ _ _ _ h hnext := .addEpsilon h hnext

/-- The automaton of a postfix is sealed. -/
theorem ofPostfix_sealed {tokens : Postfix} {nfa : Nfa} (h : ofPostfix tokens = .ok nfa) :
    nfa.Sealed :=
  Arena.built_kept.exists_arena (fun _ _ => trivial) h

theorem Arena.symbols_kept (symbols : Char → Prop) : Kept symbols fun arena =>
    ∀ node ∈ arena.nodes, ∀ c ∈ node.moves.map (fun entry => entry.1), symbols c where
  empty node hnode := absurd hnode (Array.not_mem_empty node)
  addState arena h node hnode := by
    rcases Array.mem_push.mp hnode with hnode | rfl
    · exact h node hnode
    · exact nofun
  addMove arena source symbol target next hsymbol h hnext := by
    obtain ⟨hsource, hnodes⟩ := nodes_addMove hnext
    rw [hnodes]
    refine forall_mem_set h hsource fun c hc => ?_
    rcases Node.mem_symbols_addTarget.mp hc with rfl | hc
    · exact hsymbol
    · exact h _ (Array.getElem_mem hsource) c hc
  addEpsilon arena source target next h hnext := by
    obtain ⟨hsource, hnodes⟩ := nodes_addEpsilon hnext
    rw [hnodes]
    have hsource' := h _ (Array.getElem_mem hsource)
    exact forall_mem_set h hsource fun c hc => hsource' c hc

/-- The symbols of the automaton of a postfix are symbols of the postfix. -/
theorem mem_tokens_of_mem_alphabet {tokens : Postfix} {nfa : Nfa} {symbol : Char}
    (h : ofPostfix tokens = .ok nfa) (hsymbol : symbol ∈ nfa.alphabet) :
    Token.symbol symbol ∈ tokens := by
  obtain ⟨arena, start, accept, harena, hfinish⟩ :=
    (Arena.symbols_kept (Token.symbol · ∈ tokens)).exists_arena (fun _ hc => hc) h
  obtain ⟨node, hnode, entry, hentry, rfl⟩ := mem_alphabet_iff.mp hsymbol
  rw [Arena.nodes_finish hfinish] at hnode
  exact harena node hnode _ (List.mem_map_of_mem hentry)

end PatternAutomata.Nfa
