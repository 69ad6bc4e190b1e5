import PatternAutomata.Nfa.Fragment
import PatternAutomata.Proofs.Nfa.Paths

/-!
# How an arena grows

An arena only ever gains states and edges.  What an operation does is said by the number of states
that it adds and by the edges that it adds: every other edge was there before.  The operations of an
assembly are stated in the same form, with the states that the arena had before named by its size.
-/

namespace PatternAutomata.Nfa

/-! ### One node -/

namespace Node

theorem mem_on_addMove {node : Node} {symbol c : Char} {target q : StateId} :
    q ∈ (node.addMove symbol target).on c ↔ q ∈ node.on c ∨ c = symbol ∧ q = target := by
  obtain ⟨moves, epsilon⟩ := node
  simp only [addMove, on]
  induction moves with
  | nil =>
    by_cases hc : symbol = c
    · simp [addTarget, hc]
    · simp [addTarget, hc, Ne.symm hc]
  | cons entry moves ih =>
    obtain ⟨d, targets⟩ := entry
    by_cases hsymbol : d = symbol
    · subst hsymbol
      by_cases hc : d = c
      · simp [addTarget, hc, mem_appendNew]
      · simp [addTarget, hc, Ne.symm hc]
    · by_cases hc : d = c
      · subst hc
        simp [addTarget, hsymbol]
      · simpa [addTarget, hsymbol, hc] using ih

theorem mem_along_addMove {node : Node} {symbol : Char} {label : Label} {target q : StateId} :
    q ∈ (node.addMove symbol target).along label ↔
      q ∈ node.along label ∨ label = .symbol symbol ∧ q = target := by
  cases label with
  | symbol c => simp [along, mem_on_addMove]
  | epsilon => simp [along, addMove]

theorem mem_along_addEpsilon {node : Node} {label : Label} {target q : StateId} :
    q ∈ (node.addEpsilon target).along label ↔
      q ∈ node.along label ∨ label = .epsilon ∧ q = target := by
  cases label with
  | symbol c => simp [along, addEpsilon, on]
  | epsilon => simp [along, addEpsilon, mem_appendNew]

end Node

/-! ### The array of nodes -/

theorem links_push {nodes : Array Node} {p q : StateId} {label : Label} :
    links (nodes.push {}) p label q ↔ links nodes p label q := by
  by_cases hp : p = nodes.size
  · subst hp
    cases label <;> simp [links, Node.along, Node.on]
  · simp [links, Array.getElem?_push, hp]

/-- Replacing a node by one with more edges adds these edges. -/
theorem links_set {nodes : Array Node} {source : StateId} (hsource : source < nodes.size)
    {node : Node} {added : Label → StateId → Prop}
    (hnode : ∀ label q, q ∈ node.along label ↔ q ∈ nodes[source].along label ∨ added label q)
    {p q : StateId} {label : Label} :
    links (nodes.set source node) p label q ↔
      links nodes p label q ∨ p = source ∧ added label q := by
  by_cases hp : source = p
  · subst hp
    simp [links, hsource, hnode]
  · simp [links, Array.getElem?_set_ne, hp, Ne.symm hp]

/-! ### Arenas -/

/-- The second arena has the states and edges of the first, `count` more states and the edges
`added`. -/
structure Grown (before after : Arena) (count : Nat) (added : Links) : Prop where
  size_eq : after.nodes.size = before.nodes.size + count
  links_iff : ∀ p label q,
    links after.nodes p label q ↔ links before.nodes p label q ∨ added p label q

theorem Grown.added_of_new {before after : Arena} {count : Nat} {added : Links}
    (h : Grown before after count added) {p q : StateId} {label : Label}
    (hp : before.nodes.size ≤ p) (hedge : links after.nodes p label q) : added p label q :=
  ((h.links_iff p label q).mp hedge).resolve_left fun hold =>
    Nat.not_lt.mpr hp (lt_of_links hold)

theorem Grown.links_mono {before after : Arena} {count : Nat} {added : Links}
    (h : Grown before after count added) (p : StateId) (label : Label) (q : StateId)
    (hedge : links before.nodes p label q) : links after.nodes p label q :=
  (h.links_iff p label q).mpr (.inl hedge)

theorem Grown.path_mono {before after : Arena} {count : Nat} {added : Links}
    (h : Grown before after count added) {p q : StateId} {word : List Char}
    (hpath : Path (links before.nodes) p word q) : Path (links after.nodes) p word q :=
  hpath.mono h.links_mono

/-- The fragment of the next two states of an arena. -/
def Fragment.next (arena : Arena) : Fragment := ⟨arena.nodes.size, arena.nodes.size + 1⟩

/-- The fragment is entered and left at states of the arena. -/
structure Fragment.Within (fragment : Fragment) (arena : Arena) : Prop where
  start_lt : fragment.start < arena.nodes.size
  accept_lt : fragment.accept < arena.nodes.size

theorem Fragment.Within.mono {fragment : Fragment} {arena grown : Arena}
    (h : fragment.Within arena) (hsize : arena.nodes.size ≤ grown.nodes.size) :
    fragment.Within grown :=
  ⟨Nat.lt_of_lt_of_le h.start_lt hsize, Nat.lt_of_lt_of_le h.accept_lt hsize⟩

/-- The fragment is entered and left at two different states that the first arena does not have and
the second one has. -/
structure Fragment.Fresh (fragment : Fragment) (before after : Arena) : Prop where
  start_le : before.nodes.size ≤ fragment.start
  accept_le : before.nodes.size ≤ fragment.accept
  accept_ne_start : fragment.accept ≠ fragment.start
  within : fragment.Within after

theorem Fragment.next_fresh {arena grown : Arena}
    (hsize : grown.nodes.size = arena.nodes.size + 2) : (next arena).Fresh arena grown where
  start_le := Nat.le_refl _
  accept_le := Nat.le_succ _
  accept_ne_start := Nat.succ_ne_self _
  within := by
    constructor
    · rw [hsize]
      exact Nat.lt_add_of_pos_right (by decide)
    · rw [hsize]
      exact Nat.lt_succ_self _

theorem Fragment.Fresh.ne_start {fragment : Fragment} {before after : Arena}
    (h : fragment.Fresh before after) {p : StateId} (hp : p < before.nodes.size) :
    p ≠ fragment.start :=
  Nat.ne_of_lt (Nat.lt_of_lt_of_le hp h.start_le)

theorem Fragment.Fresh.ne_accept {fragment : Fragment} {before after : Arena}
    (h : fragment.Fresh before after) {p : StateId} (hp : p < before.nodes.size) :
    p ≠ fragment.accept :=
  Nat.ne_of_lt (Nat.lt_of_lt_of_le hp h.accept_le)

/-- The edges between the pairs of a list, all of which read nothing. -/
def epsilonLinks (edges : List (StateId × StateId)) : Links := fun p label q =>
  label = .epsilon ∧ (p, q) ∈ edges

namespace Arena

theorem addState_fst (arena : Arena) : arena.addState.1 = arena.nodes.size :=
  arena.allocated_eq

theorem size_addState (arena : Arena) :
    arena.addState.2.nodes.size = arena.nodes.size + 1 := by
  simp [addState]

theorem links_addState {arena : Arena} {p q : StateId} {label : Label} :
    links arena.addState.2.nodes p label q ↔ links arena.nodes p label q :=
  links_push

theorem addMove_grown {arena : Arena} {source target : StateId} (symbol : Char)
    (hsource : source < arena.nodes.size) (htarget : target < arena.nodes.size) :
    ∃ next, arena.addMove source symbol target = .ok next ∧
      Grown arena next 0 fun p label q => p = source ∧ label = .symbol symbol ∧ q = target := by
  simp only [addMove, dif_pos hsource, dif_pos htarget]
  exact ⟨_, rfl, by simp, fun p label q =>
    links_set hsource fun label q => Node.mem_along_addMove⟩

theorem addEpsilon_grown {arena : Arena} {source target : StateId}
    (hsource : source < arena.nodes.size) (htarget : target < arena.nodes.size) :
    ∃ next, arena.addEpsilon source target = .ok next ∧
      Grown arena next 0 (epsilonLinks [(source, target)]) := by
  simp only [addEpsilon, dif_pos hsource, dif_pos htarget]
  refine ⟨_, rfl, by simp, fun p label q => ?_⟩
  refine (links_set hsource fun label q => Node.mem_along_addEpsilon).trans ?_
  simp [epsilonLinks, and_left_comm]

end Arena

namespace Assembly

theorem addEpsilons_grown {edges : List (StateId × StateId)} {arena : Arena}
    (hedges : ∀ edge ∈ edges, edge.1 < arena.nodes.size ∧ edge.2 < arena.nodes.size) :
    ∃ next, addEpsilons arena edges = .ok next ∧ Grown arena next 0 (epsilonLinks edges) := by
  induction edges generalizing arena with
  | nil => exact ⟨arena, rfl, rfl, by simp [epsilonLinks]⟩
  | cons edge edges ih =>
    obtain ⟨hsource, htarget⟩ := hedges edge (List.mem_cons_self ..)
    obtain ⟨middle, hmiddle, hgrown⟩ := Arena.addEpsilon_grown hsource htarget
    obtain ⟨next, hnext, hgrown'⟩ := @ih middle fun e he => by
      rw [hgrown.size_eq]
      exact hedges e (List.mem_cons_of_mem edge he)
    refine ⟨next, ?_, ?_, fun p label q => ?_⟩
    · rw [addEpsilons, List.foldlM_cons, hmiddle]
      exact hnext
    · rw [hgrown'.size_eq, hgrown.size_eq]
    · rw [hgrown'.links_iff, hgrown.links_iff, or_assoc]
      simp [epsilonLinks, ← and_or_left, Prod.ext_iff]

/-- A new fragment is made of the next two states, and its edges are those that are added. -/
theorem addFragment_grown {arena : Arena} {edges : Arena → Fragment → Except Fault Arena}
    {added : Links} (rest : List Fragment)
    (hedges : ∀ grown : Arena, grown.nodes.size = arena.nodes.size + 2 →
      ∃ next, edges grown (.next arena) = .ok next ∧ Grown grown next 0 added) :
    ∃ next, addFragment arena rest edges = .ok ⟨next, .next arena :: rest⟩ ∧
      Grown arena next 2 added := by
  have hsize : arena.addState.2.addState.2.nodes.size = arena.nodes.size + 2 := by
    rw [Arena.size_addState, Arena.size_addState]
  have hfragment : (⟨arena.addState.1, arena.addState.2.addState.1⟩ : Fragment) = .next arena := by
    rw [Arena.addState_fst, Arena.addState_fst, Arena.size_addState]
    rfl
  obtain ⟨next, hnext, hgrown⟩ := hedges _ hsize
  refine ⟨next, ?_, ?_, fun p label q => ?_⟩
  · simp only [addFragment, hfragment, hnext]
    rfl
  · rw [hgrown.size_eq, hsize]
  · rw [hgrown.links_iff, Arena.links_addState, Arena.links_addState]

/-! ### Tokens -/

/-- Whether a repeated operand may be skipped, and whether it may be read again. -/
def repeats? : Token → Option (Bool × Bool)
  | .star => some (true, true)
  | .plus => some (false, true)
  | .optional => some (true, false)
  | .symbol _ | .concat | .alternate => none

variable {arena : Arena} {rest : List Fragment}

theorem add_symbol (fragments : List Fragment) (position : Nat) (c : Char) :
    ∃ next, add ⟨arena, fragments⟩ position (.symbol c) = .ok ⟨next, .next arena :: fragments⟩ ∧
      Grown arena next 2 fun p label q =>
        p = arena.nodes.size ∧ label = .symbol c ∧ q = arena.nodes.size + 1 := by
  have hadd : add ⟨arena, fragments⟩ position (.symbol c) =
      addFragment arena fragments fun arena outer => arena.addMove outer.start c outer.accept := rfl
  rw [hadd]
  refine addFragment_grown fragments fun grown hsize => ?_
  have houter := (Fragment.next_fresh hsize).within
  exact Arena.addMove_grown c houter.start_lt houter.accept_lt

theorem add_repeat {inner : Fragment} (hinner : inner.Within arena) (position : Nat) {token : Token}
    {skip again : Bool} (htoken : repeats? token = some (skip, again)) :
    ∃ next, add ⟨arena, inner :: rest⟩ position token = .ok ⟨next, .next arena :: rest⟩ ∧
      Grown arena next 2 (epsilonLinks (repeatEdges inner (.next arena) skip again)) := by
  have hadd : add ⟨arena, inner :: rest⟩ position token =
      addFragment arena rest fun arena outer =>
        addEpsilons arena (repeatEdges inner outer skip again) := by
    cases token <;> cases htoken <;> rfl
  rw [hadd]
  refine addFragment_grown rest fun grown hsize => addEpsilons_grown ?_
  have houter := (Fragment.next_fresh hsize).within
  have hle : arena.nodes.size ≤ grown.nodes.size := by omega
  have hinner' := hinner.mono hle
  simp only [repeatEdges, List.mem_append, List.mem_singleton, List.mem_ite_nil_right]
  rintro edge (((rfl | ⟨-, rfl⟩) | ⟨-, rfl⟩) | rfl)
  · exact ⟨houter.start_lt, hinner'.start_lt⟩
  · exact ⟨houter.start_lt, houter.accept_lt⟩
  · exact ⟨hinner'.accept_lt, hinner'.start_lt⟩
  · exact ⟨hinner'.accept_lt, houter.accept_lt⟩

theorem add_concat {left right : Fragment} (hleft : left.Within arena) (hright : right.Within arena)
    (position : Nat) :
    ∃ next, add ⟨arena, right :: left :: rest⟩ position .concat =
        .ok ⟨next, ⟨left.start, right.accept⟩ :: rest⟩ ∧
      Grown arena next 0 (epsilonLinks [(left.accept, right.start)]) := by
  obtain ⟨next, hnext, hgrown⟩ := Arena.addEpsilon_grown hleft.accept_lt hright.start_lt
  refine ⟨next, ?_, hgrown⟩
  simp only [add, hnext]
  rfl

theorem add_alternate {left right : Fragment} (hleft : left.Within arena)
    (hright : right.Within arena) (position : Nat) :
    ∃ next, add ⟨arena, right :: left :: rest⟩ position .alternate =
        .ok ⟨next, .next arena :: rest⟩ ∧
      Grown arena next 2 (epsilonLinks (choiceEdges left right (.next arena))) := by
  have hadd : add ⟨arena, right :: left :: rest⟩ position .alternate =
      addFragment arena rest fun arena outer =>
        addEpsilons arena (choiceEdges left right outer) := rfl
  rw [hadd]
  refine addFragment_grown rest fun grown hsize => addEpsilons_grown ?_
  have houter := (Fragment.next_fresh hsize).within
  have hle : arena.nodes.size ≤ grown.nodes.size := by omega
  have hleft' := hleft.mono hle
  have hright' := hright.mono hle
  simp only [choiceEdges, List.mem_cons, List.not_mem_nil, or_false]
  rintro edge (rfl | rfl | rfl | rfl)
  · exact ⟨houter.start_lt, hleft'.start_lt⟩
  · exact ⟨houter.start_lt, hright'.start_lt⟩
  · exact ⟨hleft'.accept_lt, houter.accept_lt⟩
  · exact ⟨hright'.accept_lt, houter.accept_lt⟩

end Assembly

end PatternAutomata.Nfa
