import Mathlib.Data.List.Shortlex
import PatternAutomata.Proofs.Dfa.SubsetAutomaton

/-!
# The names of the states of a subset automaton

Words are ordered by their length, and words of one length by their symbols.  In this order the
least word that leads to a state comes before the least word that leads to another one exactly if
the name of the first state is the smaller one.  For a state with a smaller name is found earlier,
so an access word of the one state gives an access word of the other that comes before it.
-/

namespace PatternAutomata

/-! ### The order of words -/

/-- A symbol comes before another one. -/
abbrev SymbolLt (c d : Char) : Prop :=
  c.toNat < d.toNat

/-- Shorter words come first, and words of one length in the order of their symbols. -/
abbrev Precedes : List Char → List Char → Prop :=
  List.Shortlex SymbolLt

variable {u v w : List Char}

theorem lex_concat (h : List.Lex SymbolLt u v) (hlength : u.length = v.length) (c d : Char) :
    List.Lex SymbolLt (u ++ [c]) (v ++ [d]) := by
  induction h with
  | nil => cases hlength
  | cons _ ih => exact .cons (ih (Nat.succ.inj hlength))
  | rel hlt => exact .rel hlt

theorem lex_trans (h : List.Lex SymbolLt u v) (h' : List.Lex SymbolLt v w) :
    List.Lex SymbolLt u w := by
  induction h generalizing w with
  | nil => cases h' <;> exact .nil
  | cons _ ih =>
    cases h' with
    | cons h' => exact .cons (ih h')
    | rel hlt => exact .rel hlt
  | rel hlt =>
    cases h' with
    | cons _ => exact .rel hlt
    | rel hlt' => exact .rel (Nat.lt_trans hlt hlt')

namespace Precedes

theorem concat (h : Precedes u v) (c d : Char) : Precedes (u ++ [c]) (v ++ [d]) := by
  rcases List.shortlex_def.mp h with hlt | ⟨heq, hlex⟩
  · apply List.Shortlex.of_length_lt
    simpa using hlt
  · apply List.Shortlex.of_lex
    · simpa using heq
    · exact lex_concat hlex heq c d

theorem trans (h : Precedes u v) (h' : Precedes v w) : Precedes u w := by
  rcases List.shortlex_def.mp h with hlt | ⟨heq, hlex⟩
  · rcases List.shortlex_def.mp h' with hlt' | ⟨heq', -⟩
    · exact .of_length_lt (Nat.lt_trans hlt hlt')
    · exact .of_length_lt (heq' ▸ hlt)
  · rcases List.shortlex_def.mp h' with hlt' | ⟨heq', hlex'⟩
    · exact .of_length_lt (heq ▸ hlt')
    · exact .of_lex (heq.trans heq') (lex_trans hlex hlex')

theorem wf : WellFounded Precedes :=
  List.Shortlex.wf (InvImage.wf Char.toNat wellFounded_lt)

theorem irrefl (h : Precedes u u) : False :=
  wf.irrefl.irrefl u h

theorem trichotomous (u v : List Char) : Precedes u v ∨ u = v ∨ Precedes v u := by
  have : Std.Trichotomous SymbolLt :=
    ⟨fun c d hcd hdc => Char.toNat_inj.mp (Nat.le_antisymm (Nat.not_lt.mp hdc) (Nat.not_lt.mp hcd))⟩
  exact trichotomous_of Precedes u v

end Precedes

namespace Dfa

variable {dfa : Dfa} {p q r : StateId} {symbol : Char}

/-! ### Access words -/

/-- The automaton is in the state after the word. -/
inductive Access (dfa : Dfa) : List Char → StateId → Prop where
  | nil : Access dfa [] dfa.start
  | concat {word : List Char} {p q : StateId} {symbol : Char} (h : Access dfa word p)
    (hnext : dfa.next p symbol = .ok (some q)) : Access dfa (word ++ [symbol]) q

/-- Of all words that lead to the state, this one comes first. -/
structure LeastAccess (dfa : Dfa) (word : List Char) (q : StateId) : Prop where
  access : dfa.Access word q
  least : ∀ other, dfa.Access other q → other = word ∨ Precedes word other

/-- The states are named in the order of their least access words, the start first. -/
structure NamedByAccess (dfa : Dfa) : Prop where
  start_eq : dfa.start = 0
  exists_least : ∀ q < dfa.size, ∃ word, dfa.LeastAccess word q
  lt_iff : ∀ p q u v, dfa.LeastAccess u p → dfa.LeastAccess v q → (p < q ↔ Precedes u v)
  /-- The dead state is one of the states. -/
  dead_lt : ∀ dead, dfa.dead = some dead → dead < dfa.size

theorem Access.mem_alphabet (h : dfa.Access u q) : ∀ symbol ∈ u, symbol ∈ dfa.alphabet := by
  induction h with
  | nil => exact nofun
  | concat _ hnext ih =>
    intro symbol hsymbol
    rcases List.mem_append.mp hsymbol with hsymbol | hsymbol
    · exact ih symbol hsymbol
    · rw [List.mem_singleton.mp hsymbol]
      exact mem_alphabet_of_next hnext

theorem exists_access (h : dfa.Reachable q) : ∃ word, dfa.Access word q := by
  induction h with
  | refl => exact ⟨[], .nil⟩
  | tail _ hleads ih =>
    obtain ⟨word, hword⟩ := ih
    obtain ⟨symbol, hnext⟩ := hleads
    exact ⟨word ++ [symbol], .concat hword hnext⟩

/-- Some access word comes before all others. -/
theorem exists_leastAccess (h : dfa.Reachable q) : ∃ word, dfa.LeastAccess word q := by
  let words : Set (List Char) := { word | dfa.Access word q }
  have hsome : words.Nonempty := exists_access h
  refine ⟨Precedes.wf.min words hsome, Precedes.wf.min_mem words hsome, fun other hother => ?_⟩
  have hmin : ¬ Precedes other (Precedes.wf.min words hsome) := Precedes.wf.not_lt_min words hother
  rcases Precedes.trichotomous other (Precedes.wf.min words hsome) with hlt | heq | hgt
  · exact absurd hlt hmin
  · exact .inl heq
  · exact .inr hgt

namespace Determinizes

variable {nfa : Nfa} {mode : ClosureMode}

theorem lt_of_access (h : dfa.Determinizes nfa mode) (hq : dfa.Access u q) : q < dfa.size := by
  cases hq with
  | nil => exact dfa.start_lt
  | concat _ hnext =>
    obtain ⟨_, _, _, hreached, _⟩ := h.successor_of_next hnext
    exact lt_of_subset hreached

/-- Exactly the words over the alphabet lead to a state. -/
theorem exists_access_iff (h : dfa.Determinizes nfa mode) :
    (∃ q, dfa.Access u q) ↔ ∀ symbol ∈ u, symbol ∈ dfa.alphabet := by
  refine ⟨fun ⟨q, hq⟩ => hq.mem_alphabet, fun hu => ?_⟩
  induction u using List.reverseRecOn with
  | nil => exact ⟨dfa.start, .nil⟩
  | append_singleton u symbol ih =>
    obtain ⟨hword, hsymbol⟩ := List.forall_mem_append.mp hu
    obtain ⟨p, hp⟩ := ih hword
    obtain ⟨set, hset⟩ := exists_subset (h.lt_of_access hp)
    have hmem : symbol ∈ dfa.alphabet := hsymbol symbol (List.mem_singleton_self symbol)
    obtain ⟨q, _, hnext, _⟩ := h.next_eq p set symbol hset hmem
    exact ⟨q, .concat hp hnext⟩

/-- A state with a smaller name is led to by an earlier word. -/
theorem exists_earlier_access (h : dfa.Determinizes nfa mode) (hq : dfa.Access v q) (hlt : p < q) :
    ∃ u, dfa.Access u p ∧ Precedes u v := by
  induction hq generalizing p with
  | nil =>
    rw [h.start_eq] at hlt
    exact absurd hlt (Nat.not_lt_zero p)
  | @concat word source q symbol hword hnext ih =>
    rcases h.ordered source symbol q hnext p hlt with rfl | ⟨source', symbol', hearlier, hnext'⟩
    · have hstart : dfa.Access [] 0 := h.start_eq ▸ .nil
      exact ⟨[], hstart, .of_length_lt (by simp)⟩
    · rcases hearlier with hrow | ⟨rfl, hsymbol⟩
      · -- the row of an older state, which an earlier word leads to
        obtain ⟨u, hu, hprecedes⟩ := ih hrow
        exact ⟨u ++ [symbol'], .concat hu hnext', hprecedes.concat symbol' symbol⟩
      · have hlast : Precedes [symbol'] [symbol] :=
          (List.shortlex_singleton_iff symbol' symbol).mpr hsymbol
        exact ⟨word ++ [symbol'], .concat hword hnext', hlast.append_left word⟩

theorem precedes_of_lt (h : dfa.Determinizes nfa mode) (hp : dfa.LeastAccess u p)
    (hq : dfa.LeastAccess v q) (hlt : p < q) : Precedes u v := by
  obtain ⟨w, hw, hprecedes⟩ := h.exists_earlier_access hq.access hlt
  rcases hp.least w hw with rfl | hleast
  · exact hprecedes
  · exact hleast.trans hprecedes

theorem namedByAccess (h : dfa.Determinizes nfa mode) : dfa.NamedByAccess where
  start_eq := h.start_eq
  exists_least _ hq := exists_leastAccess (h.reachable hq)
  lt_iff p q u v hp hq := by
    refine ⟨h.precedes_of_lt hp hq, fun hprecedes => ?_⟩
    rcases Nat.lt_trichotomy p q with hlt | rfl | hgt
    · exact hlt
    · -- both words are the least one of the same state
      rcases hq.least u hp.access with rfl | hless
      · exact hprecedes.irrefl.elim
      · exact (hprecedes.trans hless).irrefl.elim
    · exact (hprecedes.trans (h.precedes_of_lt hq hp hgt)).irrefl.elim
  dead_lt dead hdead := lt_of_subset ((h.dead_iff dead).mp hdead)

end Determinizes

end Dfa

end PatternAutomata
