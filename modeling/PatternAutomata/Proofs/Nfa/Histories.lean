import Mathlib.Data.List.Induction
import PatternAutomata.Proofs.Nfa.Edges

/-!
# Arenas built call by call

An arena is built by calls in any order, and a call may name a state that is not there.  Such a call
faults, and the calls after it find the arena as it was: every state that a call names is looked up
before anything is written.  To see this, a call is also given as steps on the slots of the arena,
where a step that faults leaves whatever the steps before it have written.

The calls that were taken decide the edges.  A state keeps the targets of its edges that read
nothing, and it keeps those of its other edges under their symbols; symbols and targets stand in the
order in which they were first added, each of them once.
-/

namespace PatternAutomata.Nfa

/-! ### First occurrences -/

theorem eraseDups_concat {α : Type} [BEq α] [LawfulBEq α] (xs : List α) (x : α) :
    (xs ++ [x]).eraseDups = if x ∈ xs then xs.eraseDups else xs.eraseDups ++ [x] := by
  rw [List.eraseDups_append]
  split
  · next h => simp [List.removeAll, h]
  · next h => simp [List.removeAll, h, List.eraseDups_cons]

theorem nodup_eraseDups {α : Type} [BEq α] [LawfulBEq α] (xs : List α) : xs.eraseDups.Nodup := by
  induction xs using List.reverseRecOn with
  | nil => simp
  | append_singleton xs x ih =>
    rw [eraseDups_concat]
    split
    · exact ih
    · next h =>
      rw [← List.concat_eq_append]
      exact ih.concat (fun hmem => h (List.mem_eraseDups.mp hmem))

theorem eraseDups_concat_eq (xs : List StateId) (x : StateId) :
    (xs ++ [x]).eraseDups = appendNew xs.eraseDups x := by
  simp only [eraseDups_concat, appendNew, List.mem_eraseDups]

/-! ### Edges under their symbols -/

/-- The targets of the edges that read a symbol, in the order of their first addition. -/
def targetsOn (symbol : Char) (edges : List (Char × StateId)) : List StateId :=
  ((edges.filter fun edge => edge.1 = symbol).map Prod.snd).eraseDups

/-- The edges under their symbols, the symbols in the order of their first use. -/
def grouped (edges : List (Char × StateId)) : List (Char × List StateId) :=
  (edges.map Prod.fst).eraseDups.map fun symbol => (symbol, targetsOn symbol edges)

variable {symbol c : Char} {source target state : StateId} {edges : List (Char × StateId)}
  {symbols : List Char} {targets : Char → List StateId}

theorem targetsOn_concat_self :
    targetsOn symbol (edges ++ [(symbol, target)]) = appendNew (targetsOn symbol edges) target := by
  simp [targetsOn, ← eraseDups_concat_eq]

theorem targetsOn_concat_of_ne (h : c ≠ symbol) :
    targetsOn c (edges ++ [(symbol, target)]) = targetsOn c edges := by
  simp [targetsOn, h.symm]

theorem targetsOn_of_not_mem (h : symbol ∉ edges.map Prod.fst) : targetsOn symbol edges = [] := by
  have hnone : edges.filter (fun edge => edge.1 = symbol) = [] := by
    rw [List.filter_eq_nil_iff]
    intro edge hedge heq
    exact h (List.mem_map.mpr ⟨edge, hedge, of_decide_eq_true heq⟩)
  simp [targetsOn, hnone]

/-- A symbol that has an entry keeps its place. -/
theorem addTarget_of_mem (hnodup : symbols.Nodup) (hmem : symbol ∈ symbols) :
    addTarget symbol target (symbols.map fun c => (c, targets c)) =
      symbols.map fun c =>
        (c, if c = symbol then appendNew (targets symbol) target else targets c) := by
  induction symbols with
  | nil => cases hmem
  | cons c symbols ih =>
    obtain ⟨hnew, hrest⟩ := List.nodup_cons.mp hnodup
    simp only [List.map_cons, addTarget]
    by_cases hc : c = symbol
    · subst hc
      have hsame : ∀ d ∈ symbols, d ≠ c := fun d hd heq => hnew (heq ▸ hd)
      simp only [if_true, List.cons.injEq, true_and]
      refine List.map_congr_left fun d hd => ?_
      rw [if_neg (hsame d hd)]
    · rw [if_neg hc, if_neg hc, ih hrest ((List.mem_cons.mp hmem).resolve_left (Ne.symm hc))]

/-- A symbol without an entry gets one at the end. -/
theorem addTarget_of_not_mem (hnew : symbol ∉ symbols) :
    addTarget symbol target (symbols.map fun c => (c, targets c)) =
      (symbols.map fun c => (c, targets c)) ++ [(symbol, [target])] := by
  induction symbols with
  | nil => rfl
  | cons c symbols ih =>
    obtain ⟨hc, hrest⟩ := List.ne_and_not_mem_of_not_mem_cons hnew
    simp only [List.map_cons, addTarget, if_neg (Ne.symm hc), ih hrest, List.cons_append]

/-- Adding an edge to the entries of earlier ones gives the entries of all of them. -/
theorem grouped_concat :
    grouped (edges ++ [(symbol, target)]) = addTarget symbol target (grouped edges) := by
  rw [grouped, List.map_append, List.map_singleton, eraseDups_concat]
  by_cases hmem : symbol ∈ edges.map Prod.fst
  · rw [if_pos hmem, grouped,
      addTarget_of_mem (nodup_eraseDups _) (List.mem_eraseDups.mpr hmem)]
    refine List.map_congr_left fun c _ => ?_
    by_cases hc : c = symbol
    · rw [if_pos hc, hc, targetsOn_concat_self]
    · rw [if_neg hc, targetsOn_concat_of_ne hc]
  · have hnew : symbol ∉ (edges.map Prod.fst).eraseDups := fun h => hmem (List.mem_eraseDups.mp h)
    rw [if_neg hmem, grouped, addTarget_of_not_mem hnew, List.map_append, List.map_singleton,
      targetsOn_concat_self, targetsOn_of_not_mem hmem]
    refine congrArg (· ++ _) (List.map_congr_left fun c hc => ?_)
    have hne : c ≠ symbol := fun heq => hnew (heq ▸ hc)
    rw [targetsOn_concat_of_ne hne]

namespace Arena

/-! ### Calls -/

/-- A call on an arena under construction. -/
inductive Call where
  | addState
  | addMove (source : StateId) (symbol : Char) (target : StateId)
  | addEpsilon (source target : StateId)
deriving DecidableEq, Repr

/-- What a call gives back, and the arena after it.  A call that faults changes nothing. -/
def settle (arena : Arena) : Except Fault Arena → Except Fault (Option StateId) × Arena
  | .ok next => (.ok none, next)
  | .error fault => (.error fault, arena)

/-- Makes a call; only a call for a new state gives one back. -/
def perform (arena : Arena) : Call → Except Fault (Option StateId) × Arena
  | .addState => (.ok (some arena.addState.1), arena.addState.2)
  | .addMove source symbol target => arena.settle (arena.addMove source symbol target)
  | .addEpsilon source target => arena.settle (arena.addEpsilon source target)

/-- Makes calls one after the other, whether they fault or not. -/
def performAll (arena : Arena) : List Call → List (Except Fault (Option StateId)) × Arena
  | [] => ([], arena)
  | call :: calls =>
    let rest := (arena.perform call).2.performAll calls
    ((arena.perform call).1 :: rest.1, rest.2)

namespace Call

/-- The states that a call names, in the order in which they are looked up. -/
def ends : Call → List StateId
  | .addState => []
  | .addMove source _ target => [target, source]
  | .addEpsilon source target => [target, source]

/-- Every state that the call names is there. -/
def Fits (allocated : Nat) (call : Call) : Prop :=
  ∀ state ∈ call.ends, state < allocated

instance (allocated : Nat) : DecidablePred (Fits allocated) :=
  fun call => inferInstanceAs (Decidable (∀ state ∈ call.ends, state < allocated))

/-- What a call gives back that faults nowhere. -/
def result (allocated : Nat) (call : Call) : Option StateId :=
  if call = .addState then some allocated else none

/-- What a call gives back if that many states are there. -/
def answer (allocated : Nat) (call : Call) : Except Fault (Option StateId) :=
  match call.ends.find? (allocated ≤ ·) with
  | some state => .error (.unallocated state)
  | none => .ok (call.result allocated)

/-- The nodes after a call that faults nowhere. -/
def written (nodes : Array Node) : Call → Array Node
  | .addState => nodes.push {}
  | .addMove source symbol target => nodes.modify source (·.addMove symbol target)
  | .addEpsilon source target => nodes.modify source (·.addEpsilon target)

/-- What a call that faults nowhere makes of the node of a state. -/
def change (state : StateId) (node : Node) : Call → Node
  | .addState => node
  | .addMove source symbol target => if source = state then node.addMove symbol target else node
  | .addEpsilon source target => if source = state then node.addEpsilon target else node

variable {call : Call} {allocated : Nat}

theorem find?_eq_none_iff : call.ends.find? (allocated ≤ ·) = none ↔ call.Fits allocated := by
  simp [Fits]

theorem Fits.mono {more : Nat} (h : call.Fits allocated) (hle : allocated ≤ more) : call.Fits more :=
  fun state hstate => Nat.lt_of_lt_of_le (h state hstate) hle

theorem size_written (nodes : Array Node) :
    (call.written nodes).size = nodes.size + [call].count .addState := by
  cases call with
  | addState => exact Array.size_push ..
  | addMove | addEpsilon => exact Array.size_modify

theorem answer_of_fits (h : call.Fits allocated) :
    call.answer allocated = .ok (call.result allocated) := by
  rw [answer, find?_eq_none_iff.mpr h]

/-- A call that does not fit faults at the first state that is not there. -/
theorem exists_answer_of_not_fits (h : ¬ call.Fits allocated) :
    ∃ state ∈ call.ends, allocated ≤ state ∧ call.ends.find? (allocated ≤ ·) = some state ∧
      call.answer allocated = .error (.unallocated state) := by
  obtain ⟨state, hstate⟩ :=
    Option.ne_none_iff_exists'.mp (fun hnone => h (find?_eq_none_iff.mp hnone))
  have hle : allocated ≤ state := by simpa using List.find?_some hstate
  exact ⟨state, List.mem_of_find?_eq_some hstate, hle, hstate, by rw [answer, hstate]⟩

end Call

variable {arena next : Arena} {call : Call} {calls log : List Call}

theorem size_eq_nodes_size (arena : Arena) : arena.size = arena.nodes.size :=
  arena.allocated_eq

theorem set_eq_modify {nodes : Array Node} (hsource : source < nodes.size) (change : Node → Node) :
    nodes.set source (change nodes[source]) = nodes.modify source change := by
  simp [Array.modify, Array.modifyM, hsource]

theorem exists_perform_of_fits (hfits : call.Fits arena.size) :
    ∃ next, arena.perform call = (.ok (call.result arena.size), next) ∧
      next.nodes = call.written arena.nodes := by
  have hfits' : call.Fits arena.nodes.size := arena.size_eq_nodes_size ▸ hfits
  cases call with
  | addState => exact ⟨_, rfl, rfl⟩
  | addMove source symbol target =>
    have htarget : target < arena.nodes.size := hfits' target (by simp [Call.ends])
    have hsource : source < arena.nodes.size := hfits' source (by simp [Call.ends])
    simp only [perform, addMove, dif_pos htarget, dif_pos hsource, settle]
    exact ⟨_, rfl, set_eq_modify hsource (·.addMove symbol target)⟩
  | addEpsilon source target =>
    have htarget : target < arena.nodes.size := hfits' target (by simp [Call.ends])
    have hsource : source < arena.nodes.size := hfits' source (by simp [Call.ends])
    simp only [perform, addEpsilon, dif_pos htarget, dif_pos hsource, settle]
    exact ⟨_, rfl, set_eq_modify hsource (·.addEpsilon target)⟩

/-- The target is looked up first. -/
theorem missing_cases {size : Nat} (h : [target, source].find? (size ≤ ·) = some state) :
    ¬ target < size ∧ state = target ∨ target < size ∧ ¬ source < size ∧ state = source := by
  by_cases htarget : target < size
  · by_cases hsource : source < size
    · simp [htarget, hsource] at h
    · exact .inr ⟨htarget, hsource, by simpa [htarget, Nat.le_of_not_lt hsource, eq_comm] using h⟩
  · exact .inl ⟨htarget, by simpa [Nat.le_of_not_lt htarget, eq_comm] using h⟩

/-- A call that does not fit faults, and the arena is the one from before. -/
theorem perform_of_not_fits (hfits : ¬ call.Fits arena.size) :
    arena.perform call = (call.answer arena.size, arena) := by
  obtain ⟨state, -, -, hfind, hanswer⟩ := Call.exists_answer_of_not_fits hfits
  rw [hanswer]
  rw [size_eq_nodes_size] at hfind
  cases call with
  | addState => cases hfind
  | addMove source symbol target =>
    rcases missing_cases hfind with ⟨htarget, rfl⟩ | ⟨htarget, hsource, rfl⟩
    · simp [perform, addMove, settle, htarget]
    · simp [perform, addMove, settle, htarget, hsource]
  | addEpsilon source target =>
    rcases missing_cases hfind with ⟨htarget, rfl⟩ | ⟨htarget, hsource, rfl⟩
    · simp [perform, addEpsilon, settle, htarget]
    · simp [perform, addEpsilon, settle, htarget, hsource]

theorem perform_fst (arena : Arena) (call : Call) :
    (arena.perform call).1 = call.answer arena.size := by
  by_cases hfits : call.Fits arena.size
  · obtain ⟨next, hnext, -⟩ := exists_perform_of_fits hfits
    rw [hnext, Call.answer_of_fits hfits]
  · rw [perform_of_not_fits hfits]

theorem Built.perform (h : arena.Built) (call : Call) : (arena.perform call).2.Built := by
  cases call with
  | addState => exact h.addState
  | addMove source symbol target =>
    rw [Arena.perform]
    cases hnext : arena.addMove source symbol target with
    | error fault => exact h
    | ok next => exact h.addMove hnext
  | addEpsilon source target =>
    rw [Arena.perform]
    cases hnext : arena.addEpsilon source target with
    | error fault => exact h
    | ok next => exact h.addEpsilon hnext

/-! ### Steps

A call looks up the states that it names and then writes, one step after the other. -/

/-- The slots of an arena, and the supply of their names. -/
structure Slots where
  nodes : Array Node
  ids : IdSupply

def slots (arena : Arena) : Slots :=
  ⟨arena.nodes, arena.ids⟩

/-- Steps on slots.  What a step has written stays when a later one faults. -/
abbrev Steps (α : Type) := ExceptT Fault (StateM Slots) α

namespace Steps

def find (state : StateId) : Steps Unit := do
  unless state < (← get).nodes.size do
    throw (Fault.unallocated state)

def change (state : StateId) (change : Node → Node) : Steps Unit :=
  modify fun slots => { slots with nodes := slots.nodes.modify state change }

/-- The entry of a symbol, made empty where there is none. -/
def openEntry (symbol : Char) (node : Node) : Node :=
  { node with
    moves :=
      if symbol ∈ node.moves.map Prod.fst then node.moves else node.moves ++ [(symbol, [])] }

/-- Writes a target into the entry of a symbol, where there is one. -/
def pushInto (symbol : Char) (target : StateId) :
    List (Char × List StateId) → List (Char × List StateId)
  | [] => []
  | (c, targets) :: rest =>
    if c = symbol then (c, appendNew targets target) :: rest
    else (c, targets) :: pushInto symbol target rest

def pushTarget (symbol : Char) (target : StateId) (node : Node) : Node :=
  { node with moves := pushInto symbol target node.moves }

/-- What a call does once it has found the states that it names. -/
def write : Call → Steps (Option StateId)
  | .addState => do
    let name := (← get).ids.take.1
    modify fun slots => { slots with ids := slots.ids.take.2 }
    modify fun slots => { slots with nodes := slots.nodes.push {} }
    return some name
  | .addMove source symbol target => do
    change source (openEntry symbol)
    change source (pushTarget symbol target)
    return none
  | .addEpsilon source target => do
    change source (·.addEpsilon target)
    return none

/-- The steps of a call, in their order. -/
def ofCall (call : Call) : Steps (Option StateId) := do
  forM call.ends find
  write call

/-- What steps give back, and the slots that they leave. -/
def run {α : Type} (steps : Steps α) (slots : Slots) : Except Fault α × Slots :=
  (ExceptT.run steps).run slots

variable {α β : Type} {steps : Steps α} {rest : α → Steps β} {slots after : Slots} {a : α}
  {fault : Fault} {states : List StateId}

theorem run_bind_of_ok (h : steps.run slots = (.ok a, after)) :
    run (steps >>= rest) slots = (rest a).run after := by
  unfold run at h ⊢
  rw [ExceptT.run_bind, StateT.run_bind, h]
  rfl

theorem run_bind_of_error (h : steps.run slots = (.error fault, after)) :
    run (steps >>= rest) slots = (.error fault, after) := by
  unfold run at h ⊢
  rw [ExceptT.run_bind, StateT.run_bind, h]
  rfl

theorem run_get : run get slots = (.ok slots, slots) :=
  rfl

theorem run_find_of_lt (h : state < slots.nodes.size) :
    (find state).run slots = (.ok (), slots) := by
  rw [find, run_bind_of_ok run_get, if_pos h]
  rfl

theorem run_find_of_le (h : slots.nodes.size ≤ state) :
    (find state).run slots = (.error (.unallocated state), slots) := by
  rw [find, run_bind_of_ok run_get, if_neg (Nat.not_lt.mpr h)]
  rfl

theorem run_find_all (h : states.find? (slots.nodes.size ≤ ·) = none) :
    run (forM states find) slots = (.ok (), slots) := by
  induction states with
  | nil => rfl
  | cons state states ih =>
    rw [List.find?_cons] at h
    by_cases hstate : slots.nodes.size ≤ state
    · simp [hstate] at h
    · simp only [hstate, decide_false] at h
      rw [List.forM_cons, run_bind_of_ok (run_find_of_lt (Nat.lt_of_not_le hstate))]
      exact ih h

theorem run_find_first (h : states.find? (slots.nodes.size ≤ ·) = some state) :
    run (forM states find) slots = (.error (.unallocated state), slots) := by
  induction states with
  | nil => cases h
  | cons first states ih =>
    rw [List.find?_cons] at h
    by_cases hfirst : slots.nodes.size ≤ first
    · simp only [hfirst, decide_true, Option.some.injEq] at h
      rw [List.forM_cons, run_bind_of_error (run_find_of_le hfirst), h]
    · simp only [hfirst, decide_false] at h
      rw [List.forM_cons, run_bind_of_ok (run_find_of_lt (Nat.lt_of_not_le hfirst))]
      exact ih h

/-- An entry that was made empty gets its target at once. -/
theorem pushTarget_openEntry (node : Node) :
    pushTarget symbol target (openEntry symbol node) = node.addMove symbol target := by
  obtain ⟨moves, epsilon⟩ := node
  simp only [pushTarget, openEntry, Node.addMove, Node.mk.injEq, and_true]
  induction moves with
  | nil => simp [pushInto, addTarget, appendNew]
  | cons entry moves ih =>
    obtain ⟨c, targets⟩ := entry
    by_cases hc : c = symbol
    · simp [hc, pushInto, addTarget]
    · have hmem : symbol ∈ ((c, targets) :: moves).map Prod.fst ↔ symbol ∈ moves.map Prod.fst := by
        rw [List.map_cons, List.mem_cons, or_iff_right (Ne.symm hc)]
      rw [addTarget, if_neg hc, ← ih]
      simp only [hmem]
      split
      · simp only [pushInto, if_neg hc]
      · simp only [List.cons_append, pushInto, if_neg hc]

/-- The supply is where the number of the slots says. -/
theorem slots_eq (hnodes : next.nodes = slots.nodes) (hids : slots.ids.allocated = slots.nodes.size) :
    next.slots = slots := by
  obtain ⟨nodes, ⟨allocated⟩⟩ := slots
  obtain rfl : next.nodes = nodes := hnodes
  obtain rfl : allocated = next.nodes.size := hids
  exact congrArg (Slots.mk next.nodes) (congrArg IdSupply.mk next.allocated_eq)

theorem modify_modify (nodes : Array Node) (source : StateId) (first second : Node → Node) :
    (nodes.modify source first).modify source second = nodes.modify source (second ∘ first) := by
  refine Array.ext_getElem? fun i => ?_
  simp only [Array.getElem?_modify]
  split
  · rw [Option.map_map]
  · rfl

theorem run_write (h : next.nodes = call.written arena.nodes) :
    (write call).run arena.slots = (.ok (call.result arena.size), next.slots) := by
  cases call with
  | addState =>
    have hslots : next.slots = ⟨arena.nodes.push {}, arena.ids.take.2⟩ := by
      refine slots_eq h ?_
      simp [IdSupply.take, arena.allocated_eq]
    rw [hslots]
    rfl
  | addMove source symbol target =>
    have hslots : next.slots =
        ⟨(arena.nodes.modify source (openEntry symbol)).modify source (pushTarget symbol target),
          arena.ids⟩ := by
      refine slots_eq ?_ ?_
      · rw [modify_modify]
        have hstep : pushTarget symbol target ∘ openEntry symbol = (·.addMove symbol target) :=
          funext pushTarget_openEntry
        rw [hstep]
        exact h
      · simp [arena.allocated_eq]
    rw [hslots]
    rfl
  | addEpsilon source target =>
    have hslots : next.slots = ⟨arena.nodes.modify source (·.addEpsilon target), arena.ids⟩ := by
      refine slots_eq h ?_
      simp [arena.allocated_eq]
    rw [hslots]
    rfl

/-- Step by step, a call comes to what it comes to at once. -/
theorem run_ofCall (arena : Arena) (call : Call) :
    (ofCall call).run arena.slots = ((arena.perform call).1, (arena.perform call).2.slots) := by
  have hsize : arena.slots.nodes.size = arena.size := arena.size_eq_nodes_size.symm
  by_cases hfits : call.Fits arena.size
  · obtain ⟨next, hnext, hwritten⟩ := exists_perform_of_fits hfits
    have hfound := Call.find?_eq_none_iff.mpr hfits
    rw [← hsize] at hfound
    rw [ofCall, run_bind_of_ok (run_find_all hfound), hnext]
    exact run_write hwritten
  · obtain ⟨state, -, -, hfind, hanswer⟩ := Call.exists_answer_of_not_fits hfits
    rw [← hsize] at hfind
    rw [ofCall, run_bind_of_error (run_find_first hfind), perform_of_not_fits hfits, hanswer]

end Steps

/-! ### What the calls that were taken come to -/

/-- The calls that were taken, after one more call. -/
def record (log : List Call) (call : Call) : List Call :=
  if call.Fits (log.count .addState) then log ++ [call] else log

/-- The calls, of some that are made on an empty arena, that find every state that they name. -/
def taken (calls : List Call) : List Call :=
  calls.foldl record []

/-- The targets of the edges out of a state that read nothing, in the order of the calls. -/
def epsilonTargets (state : StateId) (log : List Call) : List StateId :=
  log.filterMap fun
    | .addEpsilon source target => if source = state then some target else none
    | _ => none

/-- The edges out of a state that read a symbol, in the order of the calls. -/
def movesFrom (state : StateId) (log : List Call) : List (Char × StateId) :=
  log.filterMap fun
    | .addMove source symbol target => if source = state then some (symbol, target) else none
    | _ => none

/-- A node has the edges of the calls for its state. -/
structure Lists (log : List Call) (state : StateId) (node : Node) : Prop where
  epsilon_eq : node.epsilon = (epsilonTargets state log).eraseDups
  moves_eq : node.moves = grouped (movesFrom state log)

/-- The arena has the states and the edges of the calls. -/
structure Records (log : List Call) (arena : Arena) : Prop where
  built : arena.Built
  size_eq : arena.size = log.count .addState
  fits : ∀ call ∈ log, call.Fits arena.size
  lists : ∀ state node, arena.nodes[state]? = some node → Lists log state node

theorem records_empty : Records [] empty where
  built := .empty
  size_eq := rfl
  fits := nofun
  lists state node hnode := by cases hnode

variable {node : Node} {nodes : Array Node}

theorem getElem?_written (hcall : call ≠ .addState) :
    (call.written nodes)[state]? = nodes[state]?.map fun node => call.change state node := by
  cases call with
  | addState => exact absurd rfl hcall
  | addMove source symbol target | addEpsilon source target =>
    simp only [Call.written, Call.change, Array.getElem?_modify]
    split
    · rfl
    · exact Option.map_id'.symm

/-- A call adds its edge to those of its state, and to no other ones. -/
theorem Lists.change (h : Lists log state node) (call : Call) :
    Lists (log ++ [call]) state (call.change state node) := by
  have hepsilon : epsilonTargets state (log ++ [call]) =
      epsilonTargets state log ++ epsilonTargets state [call] := List.filterMap_append
  have hmoves : movesFrom state (log ++ [call]) =
      movesFrom state log ++ movesFrom state [call] := List.filterMap_append
  rcases h with ⟨hkept, hgrouped⟩
  refine ⟨?_, ?_⟩
  · rw [hepsilon]
    cases call with
    | addState => simpa [epsilonTargets, Call.change] using hkept
    | addMove source symbol target =>
      by_cases hsource : source = state
      · simpa [epsilonTargets, Call.change, hsource, Node.addMove] using hkept
      · simpa [epsilonTargets, Call.change, hsource] using hkept
    | addEpsilon source target =>
      by_cases hsource : source = state
      · have hnew : epsilonTargets state [.addEpsilon source target] = [target] := by
          simp [epsilonTargets, hsource]
        rw [hnew, eraseDups_concat_eq, ← hkept, Call.change, if_pos hsource, Node.addEpsilon]
      · simpa [epsilonTargets, Call.change, hsource] using hkept
  · rw [hmoves]
    cases call with
    | addState => simpa [movesFrom, Call.change] using hgrouped
    | addMove source symbol target =>
      by_cases hsource : source = state
      · have hnew : movesFrom state [.addMove source symbol target] = [(symbol, target)] := by
          simp [movesFrom, hsource]
        rw [hnew, grouped_concat, ← hgrouped, Call.change, if_pos hsource, Node.addMove]
      · simpa [movesFrom, Call.change, hsource] using hgrouped
    | addEpsilon source target =>
      by_cases hsource : source = state
      · simpa [movesFrom, Call.change, hsource, Node.addEpsilon] using hgrouped
      · simpa [movesFrom, Call.change, hsource] using hgrouped

/-- A state that no call has named has no edges. -/
theorem lists_new (h : ∀ call ∈ log, call.Fits state) : Lists log state {} := by
  have hepsilon : epsilonTargets state log = [] := by
    refine List.filterMap_eq_nil_iff.mpr fun call hcall => ?_
    cases call with
    | addState | addMove => rfl
    | addEpsilon source target =>
      have hsource : source < state := h _ hcall source (by simp [Call.ends])
      exact if_neg (Nat.ne_of_lt hsource)
  have hmoves : movesFrom state log = [] := by
    refine List.filterMap_eq_nil_iff.mpr fun call hcall => ?_
    cases call with
    | addState | addEpsilon => rfl
    | addMove source symbol target =>
      have hsource : source < state := h _ hcall source (by simp [Call.ends])
      exact if_neg (Nat.ne_of_lt hsource)
  refine ⟨?_, ?_⟩
  · rw [hepsilon]
    rfl
  · rw [hmoves]
    rfl

/-- **The step.**  Whatever a call names, the arena has the edges of the calls that were taken. -/
theorem Records.perform (h : Records log arena) (call : Call) :
    Records (record log call) (arena.perform call).2 := by
  have hbuilt := h.built.perform call
  rw [record, ← h.size_eq]
  split
  · next hfits =>
    obtain ⟨next, hnext, hwritten⟩ := exists_perform_of_fits hfits
    rw [hnext] at hbuilt ⊢
    have hsize : next.size = arena.size + [call].count .addState := by
      rw [size_eq_nodes_size, hwritten, Call.size_written, size_eq_nodes_size]
    refine ⟨hbuilt, ?_, ?_, ?_⟩
    · rw [hsize, h.size_eq, List.count_append]
    · intro other hother
      have hle : arena.size ≤ next.size := hsize ▸ Nat.le_add_right ..
      rcases List.mem_append.mp hother with hold | hlast
      · exact (h.fits other hold).mono hle
      · rw [List.mem_singleton.mp hlast]
        exact hfits.mono hle
    · intro state node hnode
      rw [hwritten] at hnode
      by_cases hcall : call = .addState
      · rw [hcall, Call.written, Array.getElem?_push] at hnode
        split at hnode
        · next hstate =>
          cases hnode
          have hnew : ∀ call ∈ log, call.Fits state := by
            rw [hstate, ← size_eq_nodes_size]
            exact h.fits
          exact hcall ▸ (lists_new hnew).change .addState
        · exact hcall ▸ (h.lists state node hnode).change .addState
      · rw [getElem?_written hcall] at hnode
        obtain ⟨old, hold, rfl⟩ := Option.map_eq_some_iff.mp hnode
        exact (h.lists state old hold).change call
  · next hfits =>
    rw [perform_of_not_fits hfits]
    exact h

/-- **The run.** -/
theorem Records.performAll (h : Records log arena) (calls : List Call) :
    Records (calls.foldl record log) (arena.performAll calls).2 := by
  induction calls generalizing log arena with
  | nil => exact h
  | cons call calls ih => exact ih (h.perform call)

/-! ### What the calls give back -/

theorem size_perform (arena : Arena) (call : Call) :
    (arena.perform call).2.size = arena.size + [call].count .addState := by
  by_cases hfits : call.Fits arena.size
  · obtain ⟨next, hnext, hwritten⟩ := exists_perform_of_fits hfits
    rw [hnext, size_eq_nodes_size, hwritten, Call.size_written, size_eq_nodes_size]
  · have hcall : call ≠ .addState := by
      rintro rfl
      exact hfits (by simp [Call.Fits, Call.ends])
    rw [perform_of_not_fits hfits, List.count_singleton, if_neg (by simpa using hcall)]
    rfl

theorem length_performAll (arena : Arena) (calls : List Call) :
    (arena.performAll calls).1.length = calls.length := by
  induction calls generalizing arena with
  | nil => rfl
  | cons call calls ih => exact congrArg (· + 1) (ih _)

theorem performAll_getElem? {i : Nat} (hcall : calls[i]? = some call) :
    (arena.performAll calls).1[i]? =
      some (call.answer (arena.size + (calls.take i).count .addState)) := by
  induction calls generalizing arena i with
  | nil => cases hcall
  | cons first calls ih =>
    cases i with
    | zero =>
      cases hcall
      exact congrArg some (arena.perform_fst call)
    | succ i =>
      have hrest := @ih (arena.perform first).2 i hcall
      rw [size_perform, Nat.add_assoc, ← List.count_append, List.singleton_append] at hrest
      exact hrest

theorem size_performAll (arena : Arena) (calls : List Call) :
    (arena.performAll calls).2.size = arena.size + calls.count .addState := by
  induction calls generalizing arena with
  | nil => rfl
  | cons call calls ih =>
    refine (ih _).trans ?_
    rw [size_perform, Nat.add_assoc, ← List.count_append, List.singleton_append]

/-- The calls that were taken are those that gave back no fault. -/
theorem foldl_record (h : Records log arena) (calls : List Call) :
    calls.foldl record log =
      log ++
        ((calls.zip (arena.performAll calls).1).filter fun entry => entry.2.isOk).map Prod.fst := by
  induction calls generalizing log arena with
  | nil => simp [Arena.performAll]
  | cons call calls ih =>
    rw [List.foldl_cons, ih (h.perform call), record, ← h.size_eq, performAll, List.zip_cons_cons,
      perform_fst]
    split
    · next hfits =>
      rw [Call.answer_of_fits hfits]
      simp [Except.isOk, Except.toBool]
    · next hfits =>
      obtain ⟨state, -, -, -, hanswer⟩ := Call.exists_answer_of_not_fits hfits
      rw [hanswer]
      simp [Except.isOk, Except.toBool]

/-! ### Sealing -/

theorem mem_symbols_grouped :
    symbol ∈ (grouped edges).map Prod.fst ↔ ∃ target, (symbol, target) ∈ edges := by
  simp [grouped]

theorem mem_movesFrom :
    (symbol, target) ∈ movesFrom state log ↔ .addMove state symbol target ∈ log := by
  rw [movesFrom, List.mem_filterMap]
  constructor
  · rintro ⟨call, hcall, heq⟩
    cases call with
    | addState | addEpsilon => cases heq
    | addMove source c t =>
      dsimp only at heq
      split at heq
      · next hsource =>
        cases heq
        exact hsource ▸ hcall
      · cases heq
  · intro hcall
    exact ⟨_, hcall, if_pos rfl⟩

/-- The automaton has the states and the edges of the calls. -/
structure Keeps (log : List Call) (nfa : Nfa) : Prop where
  size_eq : nfa.size = log.count .addState
  lists : ∀ state < nfa.size, ∃ node, nfa.node state = .ok node ∧ Lists log state node
  tidy : ∀ node ∈ nfa.nodes, node.Tidy
  simple : ∀ node ∈ nfa.nodes, node.Simple
  target_lt : ∀ node ∈ nfa.nodes, ∀ target ∈ node.targets, target < nfa.size
  ascending : Ascending Char.toNat nfa.alphabet
  mem_alphabet_iff : ∀ symbol, symbol ∈ nfa.alphabet ↔
    ∃ source target, .addMove source symbol target ∈ log

theorem Records.keeps {start accept : StateId} {nfa : Nfa} (h : Records log arena)
    (hfinish : arena.finish start accept = .ok nfa) : Keeps log nfa := by
  have hnodes : nfa.nodes = arena.nodes := nodes_finish hfinish
  have hsize : nfa.size = arena.size := by rw [size_eq_nodes_size, Nfa.size, hnodes]
  have hsealed : nfa.Sealed := ⟨arena, start, accept, h.built, hfinish⟩
  refine ⟨hsize.trans h.size_eq, ?_, hsealed.tidy, hsealed.simple, nfa.closed, ?_, ?_⟩
  · intro state hstate
    refine ⟨_, node_of_lt hstate, h.lists state _ ?_⟩
    rw [← hnodes]
    exact Array.getElem?_eq_getElem hstate
  · exact ascending_ascendingOf _
  · intro symbol
    rw [Nfa.mem_alphabet_iff]
    constructor
    · rintro ⟨node, hnode, entry, hentry, rfl⟩
      obtain ⟨state, hstate⟩ := Array.mem_iff_getElem?.mp (hnodes ▸ hnode)
      have hsymbol : entry.1 ∈ (grouped (movesFrom state log)).map Prod.fst := by
        rw [← (h.lists state node hstate).moves_eq]
        exact List.mem_map_of_mem hentry
      obtain ⟨target, htarget⟩ := mem_symbols_grouped.mp hsymbol
      exact ⟨state, target, mem_movesFrom.mp htarget⟩
    · rintro ⟨source, target, hcall⟩
      have hsource : source < arena.nodes.size := by
        rw [← size_eq_nodes_size]
        exact h.fits _ hcall source (by simp [Call.ends])
      have hlists := h.lists source _ (Array.getElem?_eq_getElem hsource)
      have hsymbol : symbol ∈ arena.nodes[source].moves.map Prod.fst := by
        rw [hlists.moves_eq]
        exact mem_symbols_grouped.mpr ⟨target, mem_movesFrom.mpr hcall⟩
      obtain ⟨entry, hentry, heq⟩ := List.mem_map.mp hsymbol
      have hnode : arena.nodes[source] ∈ nfa.nodes := by
        rw [hnodes]
        exact Array.getElem_mem hsource
      exact ⟨_, hnode, entry, hentry, heq⟩

theorem exists_finish {start accept : StateId} (hstart : start < arena.size)
    (haccept : accept < arena.size) :
    ∃ nfa, arena.finish start accept = .ok nfa ∧ nfa.start = start ∧ nfa.accept = accept := by
  rw [size_eq_nodes_size] at hstart haccept
  rw [finish, dif_pos hstart, dif_pos haccept]
  exact ⟨_, rfl, rfl, rfl⟩

/-- What calls on an empty arena come to. -/
structure Outcome (calls : List Call) (answers : List (Except Fault (Option StateId)))
    (arena : Arena) : Prop where
  answers_length : answers.length = calls.length
  answer_eq : ∀ (i : Nat) (call : Call), calls[i]? = some call →
    answers[i]? = some (call.answer ((calls.take i).count .addState))
  taken_eq : taken calls = ((calls.zip answers).filter fun entry => entry.2.isOk).map Prod.fst
  size_eq : arena.size = calls.count .addState
  nodes_size_eq : arena.nodes.size = calls.count .addState
  steps_eq : ∀ call : Call,
    (Steps.ofCall call).run arena.slots = ((arena.perform call).1, (arena.perform call).2.slots)
  refuses : ∀ call : Call, ¬ call.Fits arena.size → ∃ state ∈ call.ends, arena.size ≤ state ∧
    arena.perform call = (.error (.unallocated state), arena)
  closes : ∀ start < arena.size, ∀ accept < arena.size, ∃ nfa, arena.finish start accept = .ok nfa ∧
    nfa.start = start ∧ nfa.accept = accept ∧ Keeps (taken calls) nfa

/-- **An arena keeps what it was given.**  Whatever calls are made on an empty arena, the states are
named in the order in which they were added; a call that names a state which is not there faults at
the first such state and changes nothing; and the automaton that closes the arena has the edges of
the calls that were taken, each once and in the order of their first addition. -/
theorem outcome_of_calls (calls : List Call) :
    Outcome calls (empty.performAll calls).1 (empty.performAll calls).2 := by
  have hrecords : Records (taken calls) (empty.performAll calls).2 := records_empty.performAll calls
  have hsize : (empty.performAll calls).2.size = calls.count .addState := by
    rw [size_performAll, records_empty.size_eq]
    exact Nat.zero_add _
  refine ⟨length_performAll empty calls, ?_, ?_, hsize, ?_, ?_, ?_, ?_⟩
  · intro i call hcall
    rw [performAll_getElem? hcall, records_empty.size_eq, List.count_nil, Nat.zero_add]
  · exact foldl_record records_empty calls
  · rw [← size_eq_nodes_size, hsize]
  · exact Steps.run_ofCall _
  · intro call hfits
    obtain ⟨state, hstate, hle, -, hanswer⟩ := Call.exists_answer_of_not_fits hfits
    refine ⟨state, hstate, hle, ?_⟩
    rw [perform_of_not_fits hfits, hanswer]
  · intro start hstart accept haccept
    obtain ⟨nfa, hfinish, hnfa⟩ := exists_finish hstart haccept
    exact ⟨nfa, hfinish, hnfa.1, hnfa.2, hrecords.keeps hfinish⟩

end Arena

end PatternAutomata.Nfa
