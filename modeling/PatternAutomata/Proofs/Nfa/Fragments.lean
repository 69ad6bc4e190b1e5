import Mathlib.Computability.Language
import PatternAutomata.Proofs.Nfa.Growth

/-!
# The languages of fragments

The automaton of a postfix is put together from fragments in one arena.  A fragment is built on top
of an arena: it leaves the older states as they are, no edge leads back to them, no edge leaves its
accepting state, and the paths through it read its language.  Each token keeps this: the edges that
it adds leave the fragments of its operands at their accepting states only, so a path through the
whole splits into paths through the parts.
-/

namespace PatternAutomata

open Computability

theorem append_mem_kstar {L : Language Char} {u v : List Char} (hu : u ∈ L) (hv : v ∈ L∗) :
    u ++ v ∈ L∗ := by
  rw [← Language.one_add_self_mul_kstar_eq_kstar]
  exact .inr (Language.append_mem_mul hu hv)

/-- A path that leaves a set of states.  Inside the set only the added edges out of `exit` are new,
so the path goes to `exit` along old edges first.  What is read from there on has the property
`rest`, if it has it whenever the path comes back into the set and leaves it again. -/
theorem Path.leave {links other added : Links} (inside : StateId → Prop) {exit r : StateId}
    (rest : List Char → Prop)
    (hother : ∀ p label q, other p label q ↔ links p label q ∨ added p label q)
    (hinside : ∀ p label q, inside p → links p label q → inside q)
    (hexit : ∀ p label q, inside p → added p label q → p = exit ∧ label = .epsilon)
    (hrest : ∀ q v, added exit .epsilon q → Path other q v r →
      (inside q → ∃ u v', v = u ++ v' ∧ Path links q u exit ∧ rest v') → rest v)
    (hr : ¬ inside r) {p : StateId} {word : List Char} (hp : inside p) (h : Path other p word r) :
    ∃ u v, word = u ++ v ∧ Path links p u exit ∧ rest v := by
  induction h with
  | nil => exact absurd hp hr
  | @step p q r label word hedge htail ih =>
    rcases (hother p label q).mp hedge with hold | hnew
    · obtain ⟨u, v, rfl, hpath, hv⟩ := ih hrest hr (hinside p label q hp hold)
      exact ⟨label.word ++ u, v, (List.append_assoc ..).symm, Path.step hold hpath, hv⟩
    · obtain ⟨rfl, rfl⟩ := hexit p label q hp hnew
      exact ⟨[], word, rfl, Path.nil p, hrest q word hnew htail (ih hrest hr)⟩

/-- What a repeated operand reads: nothing if it may be skipped, or once what the operand reads and,
if it may be read again, any number of times more. -/
def repeated (L : Language Char) (skip again : Bool) : Language Char :=
  (if skip then 1 else 0) + L * (if again then L∗ else 1)

namespace Nfa

open Assembly

/-- The second arena extends the first: the states that were there before have the edges that they
had, and no edge leads back to them from a new state. -/
structure Extends (before after : Arena) : Prop where
  size_le : before.nodes.size ≤ after.nodes.size
  frame : ∀ p < before.nodes.size, ∀ label q,
    links after.nodes p label q ↔ links before.nodes p label q
  apart : ∀ p label q, before.nodes.size ≤ p → links after.nodes p label q → before.nodes.size ≤ q

namespace Extends

variable {before middle after : Arena} {p q : StateId} {label : Label}

theorem refl (arena : Arena) : Extends arena arena where
  size_le := Nat.le_refl _
  frame _ _ _ _ := Iff.rfl
  apart _ _ _ hp hedge := absurd (Nfa.lt_of_links hedge) (Nat.not_lt.mpr hp)

theorem trans (h : Extends before middle) (h' : Extends middle after) : Extends before after where
  size_le := Nat.le_trans h.size_le h'.size_le
  frame p hp label q :=
    (h'.frame p (Nat.lt_of_lt_of_le hp h.size_le) label q).trans (h.frame p hp label q)
  apart p label q hp hedge := by
    by_cases hlt : p < middle.nodes.size
    · exact h.apart p label q hp ((h'.frame p hlt label q).mp hedge)
    · exact Nat.le_trans h.size_le (h'.apart p label q (Nat.not_lt.mp hlt) hedge)

theorem grow {count : Nat} {added : Links} (h : Extends before middle)
    (hgrown : Grown middle after count added)
    (hadded : ∀ p label q, added p label q → before.nodes.size ≤ p ∧ before.nodes.size ≤ q) :
    Extends before after where
  size_le := Nat.le_trans h.size_le (hgrown.size_eq ▸ Nat.le_add_right ..)
  frame p hp label q := by
    rw [hgrown.links_iff, h.frame p hp]
    exact or_iff_left fun hnew => Nat.not_lt.mpr (hadded p label q hnew).1 hp
  apart p label q hp hedge := by
    rcases (hgrown.links_iff p label q).mp hedge with hold | hnew
    · exact h.apart p label q hp hold
    · exact (hadded p label q hnew).2

theorem lt_of_links (h : Extends before after) (hp : p < before.nodes.size)
    (hedge : links after.nodes p label q) : q < before.nodes.size :=
  target_lt_of_links before.closed ((h.frame p hp label q).mp hedge)

theorem links_mono (h : Extends before after) (p : StateId) (label : Label) (q : StateId)
    (hedge : links before.nodes p label q) : links after.nodes p label q :=
  (h.frame p (Nfa.lt_of_links hedge) label q).mpr hedge

theorem path_iff (h : Extends before after) (hp : p < before.nodes.size) {word : List Char} :
    Path (links after.nodes) p word q ↔ Path (links before.nodes) p word q := by
  constructor
  · refine Path.transfer (· < before.nodes.size) (fun p hp label q hedge => ?_) hp
    exact ⟨h.lt_of_links hp hedge, (h.frame p hp label q).mp hedge⟩
  · exact Path.mono h.links_mono

end Extends

/-- The second arena extends the first by a fragment that reads a language. -/
structure Builds (before after : Arena) (fragment : Fragment) (language : Language Char) : Prop
    extends Extends before after where
  start_le : before.nodes.size ≤ fragment.start
  accept_le : before.nodes.size ≤ fragment.accept
  within : fragment.Within after
  /-- No edge leaves the accepting state. -/
  final : ∀ label q, ¬ links after.nodes fragment.accept label q
  reads : ∀ word, Path (links after.nodes) fragment.start word fragment.accept ↔ word ∈ language

namespace Builds

variable {before middle after last : Arena} {inner left right outer : Fragment}
  {L L' : Language Char} {added : Links} {p q : StateId} {label : Label} {word : List Char}

/-! ### A fragment around others -/

theorem final_of_fresh {count : Nat} (houter : outer.Fresh middle after)
    (hgrown : Grown middle after count added) (hfinal : ∀ label q, ¬ added outer.accept label q) :
    ∀ label q, ¬ links after.nodes outer.accept label q := by
  intro label q hedge
  exact hfinal label q (hgrown.added_of_new houter.accept_le hedge)

theorem of_fresh {count : Nat} (h : Extends before middle) (houter : outer.Fresh middle after)
    (hgrown : Grown middle after count added)
    (hadded : ∀ p label q, added p label q → before.nodes.size ≤ p ∧ before.nodes.size ≤ q)
    (hfinal : ∀ label q, ¬ added outer.accept label q)
    (hreads : ∀ word, Path (links after.nodes) outer.start word outer.accept ↔ word ∈ L) :
    Builds before after outer L where
  toExtends := h.grow hgrown hadded
  start_le := Nat.le_trans h.size_le houter.start_le
  accept_le := Nat.le_trans h.size_le houter.accept_le
  within := houter.within
  final := final_of_fresh houter hgrown hfinal
  reads := hreads

theorem symbol {c : Char} (houter : outer.Fresh before after)
    (hgrown : Grown before after 2 fun p label q =>
      p = outer.start ∧ label = .symbol c ∧ q = outer.accept) :
    Builds before after outer {[c]} := by
  have hfinal : ∀ (label : Label) (q : StateId),
      ¬ (outer.accept = outer.start ∧ label = .symbol c ∧ q = outer.accept) :=
    fun label q hedge => houter.accept_ne_start hedge.1
  refine of_fresh (Extends.refl before) houter hgrown ?_ hfinal fun word => ?_
  · rintro p label q ⟨rfl, -, rfl⟩
    exact ⟨houter.start_le, houter.accept_le⟩
  · constructor
    · intro hpath
      obtain ⟨label, r, v, rfl, hedge, hrest⟩ := hpath.exists_first houter.accept_ne_start.symm
      obtain ⟨-, rfl, rfl⟩ := hgrown.added_of_new houter.start_le hedge
      obtain ⟨rfl, -⟩ := hrest.eq_nil_of_final (final_of_fresh houter hgrown hfinal)
      rfl
    · rintro rfl
      exact Path.edge ((hgrown.links_iff _ _ _).mpr (.inr ⟨rfl, rfl, rfl⟩))

/-! ### Repeated operands -/

theorem epsilonLinks_repeatEdges {skip again : Bool} :
    epsilonLinks (repeatEdges inner outer skip again) p label q ↔ label = .epsilon ∧
      (p = outer.start ∧ q = inner.start ∨ skip = true ∧ p = outer.start ∧ q = outer.accept ∨
        again = true ∧ p = inner.accept ∧ q = inner.start ∨
        p = inner.accept ∧ q = outer.accept) := by
  simp [epsilonLinks, repeatEdges]

section Repeats

variable {skip again : Bool}

theorem repeats_exit (houter : outer.Fresh middle after) (hp : p < middle.nodes.size)
    (hedge : epsilonLinks (repeatEdges inner outer skip again) p label q) :
    p = inner.accept ∧ label = .epsilon := by
  obtain ⟨hlabel, hends⟩ := epsilonLinks_repeatEdges.mp hedge
  simp only [houter.ne_start hp, false_and, and_false, false_or] at hends
  exact ⟨hends.elim (·.2.1) (·.1), hlabel⟩

variable (h : Builds before middle inner L) (houter : outer.Fresh middle after)
  (hgrown : Grown middle after 2 (epsilonLinks (repeatEdges inner outer skip again)))

include h houter in
theorem repeats_not_from_accept (label : Label) (q : StateId) :
    ¬ epsilonLinks (repeatEdges inner outer skip again) outer.accept label q := by
  intro hedge
  obtain ⟨-, hends⟩ := epsilonLinks_repeatEdges.mp hedge
  simp [houter.accept_ne_start, (houter.ne_accept h.within.accept_lt).symm] at hends

include h houter hgrown

/-- A path out of a repeated operand reads what the operand reads, and then the rest. -/
theorem repeats_leave (hpath : Path (links after.nodes) inner.start word outer.accept) :
    word ∈ L * (if again then L∗ else 1) := by
  have hfinal := final_of_fresh houter hgrown (repeats_not_from_accept h houter)
  have hrest : ∀ q v, epsilonLinks (repeatEdges inner outer skip again) inner.accept .epsilon q →
      Path (links after.nodes) q v outer.accept →
      (q < middle.nodes.size → ∃ u v', v = u ++ v' ∧
        Path (links middle.nodes) q u inner.accept ∧
          v' ∈ (if again then L∗ else 1 : Language Char)) →
      v ∈ (if again then L∗ else 1 : Language Char) := by
    intro q v hedge hpath hback
    obtain ⟨-, hends⟩ := epsilonLinks_repeatEdges.mp hedge
    simp only [houter.ne_start h.within.accept_lt, false_and, and_false, false_or,
      true_and] at hends
    rcases hends with ⟨rfl, rfl⟩ | rfl
    · obtain ⟨u, v', rfl, hu, hv'⟩ := hback h.within.start_lt
      exact append_mem_kstar ((h.reads u).mp hu) hv'
    · obtain ⟨rfl, -⟩ := hpath.eq_nil_of_final hfinal
      split
      · exact Language.nil_mem_kstar L
      · exact Language.nil_mem_one
  obtain ⟨u, v, rfl, hu, hv⟩ := Path.leave (· < middle.nodes.size) _ hgrown.links_iff
    (fun p label q _ hedge => target_lt_of_links middle.closed hedge)
    (fun p label q hp hedge => repeats_exit houter hp hedge) hrest
    (Nat.not_lt.mpr houter.accept_le) h.within.start_lt hpath
  exact Language.append_mem_mul ((h.reads u).mp hu) hv

theorem repeats_enter (hpath : Path (links after.nodes) outer.start word outer.accept) :
    word ∈ repeated L skip again := by
  have hfinal := final_of_fresh houter hgrown (repeats_not_from_accept h houter)
  have hne : outer.start ≠ inner.accept := (houter.ne_start h.within.accept_lt).symm
  obtain ⟨label, r, v, rfl, hedge, hrest⟩ := hpath.exists_first houter.accept_ne_start.symm
  obtain ⟨rfl, hends⟩ := epsilonLinks_repeatEdges.mp (hgrown.added_of_new houter.start_le hedge)
  simp only [hne, false_and, and_false, or_false, true_and] at hends
  rcases hends with rfl | ⟨rfl, rfl⟩
  · exact .inr (repeats_leave h houter hgrown hrest)
  · obtain ⟨rfl, -⟩ := hrest.eq_nil_of_final hfinal
    exact .inl Language.nil_mem_one

omit houter

theorem repeats_again (hword : word ∈ (if again then L∗ else 1 : Language Char)) :
    Path (links after.nodes) inner.accept word outer.accept := by
  have hadded : ∀ p q, (p, q) ∈ repeatEdges inner outer skip again →
      links after.nodes p .epsilon q :=
    fun p q hedge => (hgrown.links_iff p .epsilon q).mpr (.inr ⟨rfl, hedge⟩)
  have hout : links after.nodes inner.accept .epsilon outer.accept :=
    hadded _ _ (by simp [repeatEdges])
  cases again with
  | false =>
    obtain rfl := (Language.mem_one word).mp hword
    exact Path.edge hout
  | true =>
    obtain ⟨parts, rfl, hparts⟩ := Language.mem_kstar.mp hword
    have hback : links after.nodes inner.accept .epsilon inner.start :=
      hadded _ _ (by simp [repeatEdges])
    clear hword
    induction parts with
    | nil => exact Path.edge hout
    | cons part parts ih =>
      have hpart := (h.reads part).mpr (hparts part (List.mem_cons_self ..))
      have hrest := ih fun y hy => hparts y (List.mem_cons_of_mem part hy)
      exact Path.epsilon_cons hback ((hgrown.path_mono hpart).append hrest)

theorem repeats_read (hword : word ∈ repeated L skip again) :
    Path (links after.nodes) outer.start word outer.accept := by
  have hadded : ∀ p q, (p, q) ∈ repeatEdges inner outer skip again →
      links after.nodes p .epsilon q :=
    fun p q hedge => (hgrown.links_iff p .epsilon q).mpr (.inr ⟨rfl, hedge⟩)
  rcases hword with hskip | hread
  · cases skip with
    | false => exact absurd hskip (Language.notMem_zero word)
    | true =>
      obtain rfl := (Language.mem_one word).mp hskip
      exact Path.edge (hadded _ _ (by simp [repeatEdges]))
  · obtain ⟨u, hu, v, hv, rfl⟩ := Language.mem_mul.mp hread
    have hinner := hgrown.path_mono ((h.reads u).mpr hu)
    have henter : links after.nodes outer.start .epsilon inner.start :=
      hadded _ _ (by simp [repeatEdges])
    exact Path.epsilon_cons henter (hinner.append (repeats_again h hgrown hv))

include houter

theorem repeats : Builds before after outer (repeated L skip again) := by
  have hstart := Nat.le_trans h.size_le houter.start_le
  have haccept := Nat.le_trans h.size_le houter.accept_le
  refine of_fresh h.toExtends houter hgrown ?_ (repeats_not_from_accept h houter) fun word => ?_
  · intro p label q hedge
    obtain ⟨-, hends⟩ := epsilonLinks_repeatEdges.mp hedge
    rcases hends with ⟨rfl, rfl⟩ | ⟨-, rfl, rfl⟩ | ⟨-, rfl, rfl⟩ | ⟨rfl, rfl⟩
    · exact ⟨hstart, h.start_le⟩
    · exact ⟨hstart, haccept⟩
    · exact ⟨h.accept_le, h.start_le⟩
    · exact ⟨h.accept_le, haccept⟩
  · constructor
    · exact repeats_enter h houter hgrown
    · exact repeats_read h hgrown

end Repeats

/-! ### One operand after the other -/

section Concat

variable (h : Builds before middle left L) (h' : Builds middle after right L')
  (hgrown : Grown after last 0 (epsilonLinks [(left.accept, right.start)]))

theorem epsilonLinks_singleton {r s : StateId} :
    epsilonLinks [(r, s)] p label q ↔ label = .epsilon ∧ p = r ∧ q = s := by
  simp [epsilonLinks]

include h h' hgrown

theorem concat_second (hpath : Path (links last.nodes) right.start word right.accept) :
    word ∈ L' := by
  refine (h'.reads word).mp (Path.transfer (middle.nodes.size ≤ ·) ?_ h'.start_le hpath)
  -- the only new edge starts in the first operand, and no edge leads back there
  intro p hp label q hedge
  have hne : p ≠ left.accept := Nat.ne_of_gt (Nat.lt_of_lt_of_le h.within.accept_lt hp)
  have hold : links after.nodes p label q :=
    ((hgrown.links_iff p label q).mp hedge).resolve_right fun hnew =>
      hne (epsilonLinks_singleton.mp hnew).2.1
  exact ⟨h'.apart p label q hp hold, hold⟩

theorem concat_enter (hpath : Path (links last.nodes) left.start word right.accept) :
    word ∈ L * L' := by
  have hrest : ∀ q v, epsilonLinks [(left.accept, right.start)] left.accept .epsilon q →
      Path (links last.nodes) q v right.accept → (q < middle.nodes.size → ∃ u v', v = u ++ v' ∧
        Path (links after.nodes) q u left.accept ∧ v' ∈ L') → v ∈ L' := by
    intro q v hedge hpath _
    obtain ⟨-, -, rfl⟩ := epsilonLinks_singleton.mp hedge
    exact concat_second h h' hgrown hpath
  have hexit : ∀ p label q, p < middle.nodes.size →
      epsilonLinks [(left.accept, right.start)] p label q → p = left.accept ∧ label = .epsilon := by
    intro p label q _ hedge
    obtain ⟨hlabel, hp, -⟩ := epsilonLinks_singleton.mp hedge
    exact ⟨hp, hlabel⟩
  obtain ⟨u, v, rfl, hu, hv⟩ := Path.leave (· < middle.nodes.size) (· ∈ L') hgrown.links_iff
    (fun p label q hp hedge => h'.toExtends.lt_of_links hp hedge) hexit hrest
    (Nat.not_lt.mpr h'.accept_le) h.within.start_lt hpath
  have hu' := (h'.toExtends.path_iff h.within.start_lt).mp hu
  exact Language.append_mem_mul ((h.reads u).mp hu') hv

theorem concat_read (hword : word ∈ L * L') :
    Path (links last.nodes) left.start word right.accept := by
  obtain ⟨u, hu, v, hv, rfl⟩ := Language.mem_mul.mp hword
  have hleft := (h'.toExtends.path_iff h.within.start_lt).mpr ((h.reads u).mpr hu)
  have hright := (h'.reads v).mpr hv
  have hjoin : links last.nodes left.accept .epsilon right.start :=
    (hgrown.links_iff _ _ _).mpr (.inr (epsilonLinks_singleton.mpr ⟨rfl, rfl, rfl⟩))
  exact (hgrown.path_mono hleft).append (Path.epsilon_cons hjoin (hgrown.path_mono hright))

theorem concat : Builds before last ⟨left.start, right.accept⟩ (L * L') where
  toExtends := by
    refine (h.toExtends.trans h'.toExtends).grow hgrown fun p label q hedge => ?_
    obtain ⟨-, rfl, rfl⟩ := epsilonLinks_singleton.mp hedge
    exact ⟨h.accept_le, Nat.le_trans h.size_le h'.start_le⟩
  start_le := h.start_le
  accept_le := Nat.le_trans h.size_le h'.accept_le
  within := by
    constructor
    · rw [hgrown.size_eq]
      exact Nat.lt_of_lt_of_le h.within.start_lt h'.size_le
    · rw [hgrown.size_eq]
      exact h'.within.accept_lt
  final label q hedge := by
    have hlt : left.accept < right.accept := Nat.lt_of_lt_of_le h.within.accept_lt h'.accept_le
    rcases (hgrown.links_iff _ label q).mp hedge with hold | hnew
    · exact h'.final label q hold
    · exact Nat.ne_of_gt hlt (epsilonLinks_singleton.mp hnew).2.1
  reads word := by
    show Path (links last.nodes) left.start word right.accept ↔ word ∈ L * L'
    constructor
    · exact concat_enter h h' hgrown
    · exact concat_read h h' hgrown

end Concat

/-! ### Either operand -/

theorem epsilonLinks_choiceEdges :
    epsilonLinks (choiceEdges left right outer) p label q ↔ label = .epsilon ∧
      (p = outer.start ∧ q = left.start ∨ p = outer.start ∧ q = right.start ∨
        p = left.accept ∧ q = outer.accept ∨ p = right.accept ∧ q = outer.accept) := by
  simp [epsilonLinks, choiceEdges]

/-- A path out of one of two fragments goes to its end, if the new edges out of the states around it
lead from there to the end of the whole. -/
theorem path_of_choice {exit finish : StateId} {count : Nat}
    (hgrown : Grown after last count added) (inside : StateId → Prop)
    (hinside : ∀ p label q, inside p → links after.nodes p label q → inside q)
    (hexit : ∀ p label q, inside p → added p label q → p = exit ∧ label = .epsilon)
    (hfinish : ∀ q, added exit .epsilon q → q = finish)
    (hfinal : ∀ label q, ¬ links last.nodes finish label q) (hnot : ¬ inside finish)
    (hp : inside p) (hpath : Path (links last.nodes) p word finish) :
    Path (links after.nodes) p word exit := by
  have hrest : ∀ q v, added exit .epsilon q → Path (links last.nodes) q v finish →
      (inside q → ∃ u v', v = u ++ v' ∧ Path (links after.nodes) q u exit ∧ v' = []) → v = [] := by
    intro q v hedge hpath _
    obtain rfl := hfinish q hedge
    exact (hpath.eq_nil_of_final hfinal).1
  obtain ⟨u, v, rfl, hu, rfl⟩ :=
    Path.leave inside (· = []) hgrown.links_iff hinside hexit hrest hnot hp hpath
  rwa [List.append_nil]

section Choice

variable (h : Builds before middle left L) (h' : Builds middle after right L')
  (houter : outer.Fresh after last)
  (hgrown : Grown after last 2 (epsilonLinks (choiceEdges left right outer)))

theorem choice_finish (houter : outer.Fresh after last) (hp : p < after.nodes.size)
    (hedge : epsilonLinks (choiceEdges left right outer) p label q) :
    label = .epsilon ∧ (p = left.accept ∨ p = right.accept) ∧ q = outer.accept := by
  obtain ⟨hlabel, hends⟩ := epsilonLinks_choiceEdges.mp hedge
  simp only [houter.ne_start hp, false_and, false_or] at hends
  rcases hends with ⟨hp', hq⟩ | ⟨hp', hq⟩
  · exact ⟨hlabel, .inl hp', hq⟩
  · exact ⟨hlabel, .inr hp', hq⟩

include h h' houter

theorem choice_not_from_accept (label : Label) (q : StateId) :
    ¬ epsilonLinks (choiceEdges left right outer) outer.accept label q := by
  have hleft := h.within.mono h'.size_le
  intro hedge
  obtain ⟨-, hends⟩ := epsilonLinks_choiceEdges.mp hedge
  simp [houter.accept_ne_start, (houter.ne_accept hleft.accept_lt).symm,
    (houter.ne_accept h'.within.accept_lt).symm] at hends

include hgrown

theorem choice_left (hpath : Path (links last.nodes) left.start word outer.accept) : word ∈ L := by
  have hfinal := final_of_fresh houter hgrown (choice_not_from_accept h h' houter)
  have hleft := h.within.mono h'.size_le
  have hexit : ∀ p label q, p < middle.nodes.size →
      epsilonLinks (choiceEdges left right outer) p label q →
      p = left.accept ∧ label = .epsilon := by
    intro p label q hp hedge
    have hne : p ≠ right.accept := Nat.ne_of_lt (Nat.lt_of_lt_of_le hp h'.accept_le)
    obtain ⟨hlabel, hends, -⟩ := choice_finish houter (Nat.lt_of_lt_of_le hp h'.size_le) hedge
    exact ⟨hends.resolve_right hne, hlabel⟩
  refine (h.reads word).mp ((h'.toExtends.path_iff h.within.start_lt).mp ?_)
  exact path_of_choice hgrown (· < middle.nodes.size)
    (fun p label q hp hedge => h'.toExtends.lt_of_links hp hedge) hexit
    (fun q hedge => (choice_finish houter hleft.accept_lt hedge).2.2) hfinal
    (Nat.not_lt.mpr (Nat.le_trans h'.size_le houter.accept_le)) h.within.start_lt hpath

theorem choice_right (hpath : Path (links last.nodes) right.start word outer.accept) :
    word ∈ L' := by
  have hfinal := final_of_fresh houter hgrown (choice_not_from_accept h h' houter)
  have hexit : ∀ p label q, middle.nodes.size ≤ p ∧ p < after.nodes.size →
      epsilonLinks (choiceEdges left right outer) p label q →
      p = right.accept ∧ label = .epsilon := by
    intro p label q hp hedge
    have hne : p ≠ left.accept := Nat.ne_of_gt (Nat.lt_of_lt_of_le h.within.accept_lt hp.1)
    obtain ⟨hlabel, hends, -⟩ := choice_finish houter hp.2 hedge
    exact ⟨hends.resolve_left hne, hlabel⟩
  have hinside : ∀ p label q, middle.nodes.size ≤ p ∧ p < after.nodes.size →
      links after.nodes p label q → middle.nodes.size ≤ q ∧ q < after.nodes.size :=
    fun p label q hp hedge =>
      ⟨h'.apart p label q hp.1 hedge, target_lt_of_links after.closed hedge⟩
  apply (h'.reads word).mp
  exact path_of_choice hgrown (fun p => middle.nodes.size ≤ p ∧ p < after.nodes.size) hinside hexit
    (fun q hedge => (choice_finish houter h'.within.accept_lt hedge).2.2) hfinal
    (fun hlt => Nat.not_lt.mpr houter.accept_le hlt.2) ⟨h'.start_le, h'.within.start_lt⟩ hpath

theorem choice_enter (hpath : Path (links last.nodes) outer.start word outer.accept) :
    word ∈ L + L' := by
  have hleft := h.within.mono h'.size_le
  obtain ⟨label, r, v, rfl, hedge, hrest⟩ := hpath.exists_first houter.accept_ne_start.symm
  obtain ⟨rfl, hends⟩ := epsilonLinks_choiceEdges.mp (hgrown.added_of_new houter.start_le hedge)
  simp only [(houter.ne_start hleft.accept_lt).symm, (houter.ne_start h'.within.accept_lt).symm,
    false_and, or_false, true_and] at hends
  rcases hends with rfl | rfl
  · exact .inl (choice_left h h' houter hgrown hrest)
  · exact .inr (choice_right h h' houter hgrown hrest)

omit houter in
theorem choice_read (hword : word ∈ L + L') :
    Path (links last.nodes) outer.start word outer.accept := by
  have hadded : ∀ p q, (p, q) ∈ choiceEdges left right outer → links last.nodes p .epsilon q :=
    fun p q hedge => (hgrown.links_iff p .epsilon q).mpr (.inr ⟨rfl, hedge⟩)
  rcases hword with hword | hword
  · have hread := (h'.toExtends.path_iff h.within.start_lt).mpr ((h.reads word).mpr hword)
    exact Path.epsilon_cons (hadded _ _ (by simp [choiceEdges]))
      ((hgrown.path_mono hread).epsilon_concat (hadded _ _ (by simp [choiceEdges])))
  · have hread := (h'.reads word).mpr hword
    exact Path.epsilon_cons (hadded _ _ (by simp [choiceEdges]))
      ((hgrown.path_mono hread).epsilon_concat (hadded _ _ (by simp [choiceEdges])))

theorem choice : Builds before last outer (L + L') := by
  have hstart := Nat.le_trans h.size_le (Nat.le_trans h'.size_le houter.start_le)
  have haccept := Nat.le_trans h.size_le (Nat.le_trans h'.size_le houter.accept_le)
  refine of_fresh (h.toExtends.trans h'.toExtends) houter hgrown ?_
    (choice_not_from_accept h h' houter) fun word => ?_
  · intro p label q hedge
    obtain ⟨-, hends⟩ := epsilonLinks_choiceEdges.mp hedge
    rcases hends with ⟨rfl, rfl⟩ | ⟨rfl, rfl⟩ | ⟨rfl, rfl⟩ | ⟨rfl, rfl⟩
    · exact ⟨hstart, h.start_le⟩
    · exact ⟨hstart, Nat.le_trans h.size_le h'.start_le⟩
    · exact ⟨h.accept_le, haccept⟩
    · exact ⟨Nat.le_trans h.size_le h'.accept_le, haccept⟩
  · constructor
    · exact choice_enter h h' houter hgrown
    · exact choice_read h h' hgrown

end Choice

end Builds

end Nfa

end PatternAutomata
