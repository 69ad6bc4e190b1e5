import PatternAutomata.StateSet

/-!
# Faults

Automata are built and read through operations that take the name of a state.  An operation that
is given a name its automaton does not have stops with a fault; so does one that is given a place
outside a list.  A fault is a mistake of the caller, not a property of the user's input.
-/

namespace PatternAutomata

/-- The misuse of an operation on an automaton. -/
inductive Fault where
  | unallocated (state : StateId)             -- an edge end, start or accept outside the arena
  | nfaState (state : StateId) (size : Nat)   -- reading a state outside an ε-automaton
  | tableRow (state : StateId) (size : Nat)   -- writing a row outside a transition table
  | dfaState (state : StateId) (size : Nat)   -- reading a state outside a deterministic automaton
  | outOfBounds                               -- any other place outside a list
deriving DecidableEq, Repr

/-- What a fault says; a place outside a list has no words of its own. -/
def Fault.message? : Fault → Option String
  | .unallocated state =>
    some (s!"NfaBuilder: state {state} was never allocated "
      ++ "(edges may only connect states from the same arena)")
  | .nfaState state size => some s!"Nfa: state {state} out of range (len {size})"
  | .tableRow state size => some s!"DfaBuilder: state {state} out of range (len {size})"
  | .dfaState state size => some s!"Dfa: state {state} out of range (len {size})"
  | .outOfBounds => none

/-! ### Sequences of operations -/

theorem bind_eq_ok_iff {ε α β : Type} {first : Except ε α} {next : α → Except ε β} {b : β} :
    first >>= next = .ok b ↔ ∃ a, first = .ok a ∧ next a = .ok b := by
  cases first with
  | error e => simp [bind, Except.bind]
  | ok a => simp [bind, Except.bind]

theorem ok_bind {ε α β : Type} (a : α) (next : α → Except ε β) : Except.ok a >>= next = next a :=
  rfl

/-- A computation that succeeds on each item of a list is a map over the list. -/
theorem mapM_eq_ok_map {ε α β : Type} {f : α → Except ε β} {g : α → β} {xs : List α}
    (h : ∀ x ∈ xs, f x = .ok (g x)) : xs.mapM f = .ok (xs.map g) := by
  induction xs with
  | nil => rfl
  | cons x xs ih =>
    obtain ⟨hfirst, hrest⟩ := List.forall_mem_cons.mp h
    rw [List.mapM_cons, hfirst, ih hrest]
    rfl

/-- A computation that succeeds on a list succeeds on each of its items. -/
theorem exists_of_mapM_eq_ok {ε α β : Type} {f : α → Except ε β} {xs : List α} {ys : List β}
    (h : xs.mapM f = .ok ys) : ∀ x ∈ xs, ∃ y, f x = .ok y := by
  induction xs generalizing ys with
  | nil => nofun
  | cons x xs ih =>
    rw [List.mapM_cons] at h
    obtain ⟨y, hfirst, hrest⟩ := bind_eq_ok_iff.mp h
    obtain ⟨more, hmore, -⟩ := bind_eq_ok_iff.mp hrest
    exact List.forall_mem_cons.mpr ⟨⟨y, hfirst⟩, ih hmore⟩

end PatternAutomata
