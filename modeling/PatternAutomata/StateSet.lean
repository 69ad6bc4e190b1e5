import PatternAutomata.Ascending

/-!
# States and sets of states

A state is named by a number, which is also its place in the automaton that owns it.  A set of
states is kept ascending, so that a set has one form: two sets are equal exactly when they have
the same members, in whatever order these were found.
-/

namespace PatternAutomata

/-- The name of a state, and its place in its automaton.  Names have no bound here.  Where they are
kept in thirty-two bits, what is said of building automata holds for up to `2 ^ 32` states. -/
abbrev StateId := Nat

/-! ### Naming states -/

/-- Hands out the names of the states of one automaton: dense, from zero, never twice, and as many
as are asked for. -/
structure IdSupply where
  allocated : Nat
deriving DecidableEq, Repr

def IdSupply.fresh : IdSupply := ⟨0⟩

theorem IdSupply.allocated_fresh : fresh.allocated = 0 := rfl

/-- The next name, and the supply after it. -/
def IdSupply.take (supply : IdSupply) : StateId × IdSupply :=
  (supply.allocated, ⟨supply.allocated + 1⟩)

/-! ### Sets -/

/-- A finite set of states. -/
structure StateSet where
  ids : List StateId
  ascending : Ascending id ids

namespace StateSet

theorem eq_of_ids_eq {s t : StateSet} (h : s.ids = t.ids) : s = t := by
  cases s; cases t; cases h; rfl

instance : DecidableEq StateSet := fun s t =>
  if h : s.ids = t.ids then isTrue (eq_of_ids_eq h) else isFalse (fun e => h (congrArg ids e))

instance : Membership StateId StateSet := ⟨fun s q => q ∈ s.ids⟩

instance (q : StateId) (s : StateSet) : Decidable (q ∈ s) :=
  inferInstanceAs (Decidable (q ∈ s.ids))

/-- The set without members. -/
def empty : StateSet := ⟨[], .nil⟩

instance : EmptyCollection StateSet := ⟨empty⟩

instance : Inhabited StateSet := ⟨empty⟩

def insert (s : StateSet) (q : StateId) : StateSet :=
  ⟨insertAscending id q s.ids, s.ascending.insert⟩

def singleton (q : StateId) : StateSet := empty.insert q

def insertAll (s : StateSet) (qs : List StateId) : StateSet :=
  qs.foldl insert s

def ofList (qs : List StateId) : StateSet := empty.insertAll qs

def union (s t : StateSet) : StateSet := s.insertAll t.ids

def contains (s : StateSet) (q : StateId) : Bool := decide (q ∈ s)

def size (s : StateSet) : Nat := s.ids.length

def isEmpty (s : StateSet) : Bool := s.ids.isEmpty

/-- Compares two lists of states member by member; a proper beginning comes first. -/
def compareIds : List StateId → List StateId → Ordering
  | [], [] => .eq
  | [], _ :: _ => .lt
  | _ :: _, [] => .gt
  | p :: ps, q :: qs => if p < q then .lt else if q < p then .gt else compareIds ps qs

def compare (s t : StateSet) : Ordering := compareIds s.ids t.ids

/-- The members joined with commas: the key under which the set is known. -/
def keyText (s : StateSet) : String :=
  ",".intercalate (s.ids.map toString)

/-- The members between braces, as sets are usually shown. -/
def braceText (s : StateSet) : String :=
  "\x7b" ++ ", ".intercalate (s.ids.map toString) ++ "\x7d"

/-! ### Membership -/

@[simp] theorem mem_ids {s : StateSet} {q : StateId} : q ∈ s.ids ↔ q ∈ s := Iff.rfl

@[ext] theorem ext {s t : StateSet} (h : ∀ q, q ∈ s ↔ q ∈ t) : s = t :=
  eq_of_ids_eq (s.ascending.eq_of_mem_iff t.ascending h)

@[simp] theorem not_mem_empty (q : StateId) : q ∉ empty := List.not_mem_nil

@[simp] theorem mem_insert {s : StateSet} {p q : StateId} :
    p ∈ s.insert q ↔ p = q ∨ p ∈ s :=
  mem_insertAscending (fun _ _ h => h)

@[simp] theorem mem_singleton {p q : StateId} : p ∈ singleton q ↔ p = q := by
  simp [singleton]

@[simp] theorem mem_insertAll {s : StateSet} {p : StateId} {qs : List StateId} :
    p ∈ s.insertAll qs ↔ p ∈ s ∨ p ∈ qs := by
  induction qs generalizing s with
  | nil => simp [insertAll]
  | cons q qs ih =>
    show p ∈ (s.insert q).insertAll qs ↔ _
    rw [ih, mem_insert, List.mem_cons, or_assoc, or_left_comm]

@[simp] theorem mem_ofList {p : StateId} {qs : List StateId} : p ∈ ofList qs ↔ p ∈ qs := by
  simp [ofList]

@[simp] theorem mem_union {p : StateId} {s t : StateSet} : p ∈ s.union t ↔ p ∈ s ∨ p ∈ t := by
  simp [union]

@[simp] theorem contains_iff {s : StateSet} {q : StateId} : s.contains q = true ↔ q ∈ s := by
  simp [contains]

theorem perm_insert {s : StateSet} {q : StateId} (h : q ∉ s) :
    (s.insert q).ids.Perm (q :: s.ids) :=
  perm_insertAscending fun p hp (e : q = p) => h (show q ∈ s.ids from e ▸ hp)

theorem isEmpty_iff {s : StateSet} : s.isEmpty = true ↔ ∀ q, q ∉ s := by
  rw [isEmpty, List.isEmpty_iff, List.eq_nil_iff_forall_not_mem]
  rfl

theorem isEmpty_iff_eq_empty {s : StateSet} : s.isEmpty = true ↔ s = ∅ := by
  rw [isEmpty_iff]
  constructor
  · exact fun h => ext fun q => ⟨fun hq => absurd hq (h q), fun hq => absurd hq (not_mem_empty q)⟩
  · rintro rfl
    exact not_mem_empty

end StateSet

end PatternAutomata
