import PatternAutomata.Pattern.Check
import PatternAutomata.Proofs.Pattern.Grammar

/-!
# The check and the grammar

The check sees the character before and the groups that are open.  All that matters of the character
before is whether an operand must follow, may be repeated, or was repeated already; all that matters
of the groups is their number.  So the check is an automaton with three states, here called
standings, and a counter.  A text that it accepts splits at the parenthesis that closes a group, and
from this the derivation is found by induction on the length.  In the other direction, a part can be
read at any standing, and its last character says where the automaton then stands.
-/

namespace PatternAutomata

/-- What can follow the text read so far. -/
inductive Standing where
  | start    -- an operand must follow
  | operand  -- a repeat, a bar or a point may follow
  | repeated -- a point may follow
deriving DecidableEq, Repr

/-- The standing after a character. -/
def Standing.after (c : Char) : Standing :=
  if c = '(' ∨ c = '|' ∨ c = '.' then .start
  else if isRepeat c then .repeated
  else .operand

/-- The text can be read at a standing with a number of groups open, and closes them all. -/
inductive Accepts : Standing → Nat → List Char → Prop where
  | stop {standing : Standing} (h : standing ≠ .start) : Accepts standing 0 []
  | symbol {standing : Standing} {depth : Nat} {c : Char} {rest : List Char}
    (hc : isSymbol c = true) (h : Accepts .operand depth rest) : Accepts standing depth (c :: rest)
  | opens {standing : Standing} {depth : Nat} {rest : List Char}
    (h : Accepts .start (depth + 1) rest) : Accepts standing depth ('(' :: rest)
  | closes {standing : Standing} {depth : Nat} {rest : List Char} (hstanding : standing ≠ .start)
    (h : Accepts .operand depth rest) : Accepts standing (depth + 1) (')' :: rest)
  | repeats {depth : Nat} {c : Char} {rest : List Char} (hc : isRepeat c = true)
    (h : Accepts .repeated depth rest) : Accepts .operand depth (c :: rest)
  | bar {depth : Nat} {rest : List Char} (h : Accepts .start depth rest) :
    Accepts .operand depth ('|' :: rest)
  | point {standing : Standing} {depth : Nat} {rest : List Char} (hstanding : standing ≠ .start)
    (h : Accepts .start depth rest) : Accepts standing depth ('.' :: rest)

/-! ### Kinds of characters -/

section Kinds

variable {c : Char}

theorem isRepeat_iff : isRepeat c = true ↔ c = '*' ∨ c = '+' ∨ c = '?' := by
  simp [isRepeat, or_assoc]

theorem ne_of_isSymbol {d : Char} (hc : isSymbol c = true) (hd : isSymbol d = false) : c ≠ d := by
  rintro rfl
  rw [hc] at hd
  cases hd

theorem isRepeat_of_isSymbol (hc : isSymbol c = true) : isRepeat c = false := by
  rw [Bool.eq_false_iff, Ne, isRepeat_iff]
  rintro (rfl | rfl | rfl) <;> cases hc

theorem Standing.after_eq_start_iff : after c = .start ↔ c = '(' ∨ c = '|' ∨ c = '.' := by
  unfold after
  by_cases hstart : c = '(' ∨ c = '|' ∨ c = '.'
  · rw [if_pos hstart]
    simp [hstart]
  · rw [if_neg hstart]
    cases isRepeat c <;> simp [hstart]

theorem Standing.after_eq_operand_iff :
    after c = .operand ↔ isRepeat c = false ∧ ¬ (c = '(' ∨ c = '|' ∨ c = '.') := by
  unfold after
  by_cases hstart : c = '(' ∨ c = '|' ∨ c = '.'
  · rw [if_pos hstart]
    simp [hstart]
  · rw [if_neg hstart]
    cases isRepeat c <;> simp [hstart]

theorem Standing.after_of_isSymbol (hc : isSymbol c = true) : after c = .operand := by
  refine after_eq_operand_iff.mpr ⟨isRepeat_of_isSymbol hc, ?_⟩
  rintro (rfl | rfl | rfl) <;> cases hc

theorem Standing.after_of_isRepeat (hc : isRepeat c = true) : after c = .repeated := by
  rcases isRepeat_iff.mp hc with rfl | rfl | rfl <;> rfl

end Kinds

/-! ### The check as an automaton -/

namespace Scan

variable {scan : Scan} {c : Char} {text : List Char}

/-- The standing at which the next character is read. -/
def standing (scan : Scan) : Standing :=
  match scan.previous with
  | none => .start
  | some c => .after c

/-- A group is only open if it was opened. -/
structure Regular (scan : Scan) : Prop where
  started : scan.previous = none → scan.opened = []
  grouped : scan.previous = some '(' → scan.opened ≠ []

theorem regular_after (scan : Scan) (c : Char) : (scan.after c).Regular := by
  refine ⟨nofun, fun h => ?_⟩
  obtain rfl : c = '(' := Option.some.inj h
  exact List.cons_ne_nil _ _

theorem canFollow_iff : canFollow scan.previous = true ↔ scan.standing ≠ .start := by
  unfold canFollow standing
  cases scan.previous with
  | none => simp
  | some c => simp [Standing.after_eq_start_iff, and_assoc]

theorem standing_eq_operand_iff : scan.standing = .operand ↔
    scan.previous.any isRepeatOrBar = false ∧ canFollow scan.previous = true := by
  unfold canFollow standing
  cases scan.previous with
  | none => simp
  | some c =>
    have hrepeat : isRepeatOrBar c = (isRepeat c || decide (c = '|')) := rfl
    rw [Option.any_some, hrepeat, Standing.after_eq_operand_iff]
    simp only [Bool.or_eq_false_iff, decide_eq_false_iff_not, Bool.not_eq_true', not_or]
    tauto

theorem danglingOperator_eq_nil_iff (hgroup : scan.previous ≠ some '(')
    (hnone : scan.previous ≠ none) : scan.danglingOperator = [] ↔ scan.standing ≠ .start := by
  unfold danglingOperator standing
  cases hprevious : scan.previous with
  | none => exact absurd hprevious hnone
  | some c =>
    have hopen : c ≠ '(' := by
      rintro rfl
      exact hgroup hprevious
    simp [Standing.after_eq_start_iff, hopen]

/-! ### What shows at a character of each kind -/

theorem problemsAt_of_isSymbol (hc : isSymbol c = true) : scan.problemsAt c = [] := by
  have hrepeat := isRepeat_of_isSymbol hc
  have hopen : c ≠ '(' := ne_of_isSymbol hc rfl
  have hclose : c ≠ ')' := ne_of_isSymbol hc rfl
  have hbar : c ≠ '|' := ne_of_isSymbol hc rfl
  have hpoint : c ≠ '.' := ne_of_isSymbol hc rfl
  have hnone : ¬ (c = '*' ∨ c = '+' ∨ c = '?') := by
    rw [← isRepeat_iff, hrepeat]
    exact Bool.false_ne_true
  simp [problemsAt, isRepeatOrBar, hopen, hclose, hbar, hpoint, hc, not_or.mp hnone]

theorem problemsAt_close (h : scan.Regular) :
    scan.problemsAt ')' = [] ↔ scan.opened ≠ [] ∧ scan.standing ≠ .start := by
  have hunfold : scan.problemsAt ')' = scan.closingProblems := rfl
  rw [hunfold, closingProblems, List.append_eq_nil_iff]
  by_cases hopened : scan.opened = []
  · simp [hopened]
  · have hnone : scan.previous ≠ none := fun hprevious => hopened (h.started hprevious)
    by_cases hgroup : scan.previous = some '('
    · have hstanding : scan.standing = .start := by
        simp [standing, hgroup, Standing.after_eq_start_iff]
      simp [hgroup, hstanding]
    · simp [hopened, hgroup, danglingOperator_eq_nil_iff hgroup hnone]

theorem problemsAt_of_isRepeat (hc : isRepeat c = true) :
    scan.problemsAt c = [] ↔ scan.standing = .operand := by
  have hrepeat : isRepeatOrBar c = true := by
    rcases isRepeat_iff.mp hc with rfl | rfl | rfl <;> rfl
  rw [standing_eq_operand_iff]
  cases hprevious : scan.previous.any isRepeatOrBar <;>
    rcases isRepeat_iff.mp hc with rfl | rfl | rfl <;>
    simp [problemsAt, hrepeat, hprevious]

theorem problemsAt_bar : scan.problemsAt '|' = [] ↔ scan.standing = .operand := by
  have hrepeat : isRepeatOrBar '|' = true := rfl
  rw [standing_eq_operand_iff]
  cases hprevious : scan.previous.any isRepeatOrBar <;> simp [problemsAt, hrepeat, hprevious]

theorem problemsAt_point : scan.problemsAt '.' = [] ↔ scan.standing ≠ .start := by
  have hrepeat : isRepeatOrBar '.' = false := rfl
  rw [← canFollow_iff]
  simp [problemsAt, hrepeat]

theorem kind_of_problemsAt_eq_nil (h : scan.problemsAt c = []) :
    isSymbol c = true ∨ c = '(' ∨ c = ')' ∨ isRepeat c = true ∨ c = '|' ∨ c = '.' := by
  by_contra hnone
  simp only [not_or] at hnone
  obtain ⟨hsymbol, hopen, hclose, hrepeat, hbar, hpoint⟩ := hnone
  have hstars := not_or.mp (fun hc => hrepeat (isRepeat_iff.mpr hc))
  simp [problemsAt, isRepeatOrBar, hsymbol, hopen, hclose, hbar, hpoint, hstars] at h

/-! ### The whole check -/

theorem opened_after_of_ne (hopen : c ≠ '(') (hclose : c ≠ ')') :
    (scan.after c).opened = scan.opened := by
  simp [after, hopen, hclose]

theorem accepts_of_problems_eq_nil (hregular : scan.Regular)
    (hstarted : scan.previous = none → text ≠ []) (h : scan.problems text = []) :
    Accepts scan.standing scan.opened.length text := by
  induction text generalizing scan with
  | nil =>
    obtain ⟨hdangling, hopened⟩ := List.append_eq_nil_iff.mp h
    have hempty : scan.opened = [] := by simpa using hopened
    have hgroup : scan.previous ≠ some '(' := fun hprevious => hregular.grouped hprevious hempty
    have hnone : scan.previous ≠ none := fun hprevious => hstarted hprevious rfl
    rw [hempty]
    exact .stop ((danglingOperator_eq_nil_iff hgroup hnone).mp hdangling)
  | cons c rest ih =>
    obtain ⟨hat, hrest⟩ := List.append_eq_nil_iff.mp h
    have hread := ih (regular_after scan c) nofun hrest
    have hstanding : (scan.after c).standing = .after c := rfl
    rw [hstanding] at hread
    rcases kind_of_problemsAt_eq_nil hat with hc | rfl | rfl | hc | rfl | rfl
    · rw [Standing.after_of_isSymbol hc,
        opened_after_of_ne (ne_of_isSymbol hc rfl) (ne_of_isSymbol hc rfl)] at hread
      exact .symbol hc hread
    · exact .opens hread
    · obtain ⟨hopened, hplace⟩ := (problemsAt_close hregular).mp hat
      obtain ⟨start, outer, houter⟩ := List.exists_cons_of_ne_nil hopened
      have hafter : (scan.after ')').opened = outer := by simp [after, houter]
      rw [hafter] at hread
      rw [houter]
      exact .closes hplace hread
    · rw [Standing.after_of_isRepeat hc, opened_after_of_ne] at hread
      · rw [(problemsAt_of_isRepeat hc).mp hat]
        exact .repeats hc hread
      · rintro rfl
        cases hc
      · rintro rfl
        cases hc
    · rw [problemsAt_bar.mp hat]
      exact .bar hread
    · exact .point (problemsAt_point.mp hat) hread

theorem problems_eq_nil_of_accepts {standing : Standing} {depth : Nat}
    (h : Accepts standing depth text) (hregular : scan.Regular)
    (hstanding : scan.standing = standing) (hdepth : scan.opened.length = depth) :
    scan.problems text = [] := by
  induction h generalizing scan with
  | stop hstop =>
    have hempty : scan.opened = [] := List.eq_nil_of_length_eq_zero hdepth
    have hgroup : scan.previous ≠ some '(' := fun hprevious => hregular.grouped hprevious hempty
    have hnone : scan.previous ≠ none := by
      intro hprevious
      refine hstop (hstanding.symm.trans ?_)
      simp [Scan.standing, hprevious]
    refine List.append_eq_nil_iff.mpr ⟨?_, by simp [hempty]⟩
    exact (danglingOperator_eq_nil_iff hgroup hnone).mpr (hstanding ▸ hstop)
  | symbol hc _ ih =>
    refine List.append_eq_nil_iff.mpr ⟨problemsAt_of_isSymbol hc, ?_⟩
    apply ih (regular_after scan _) (Standing.after_of_isSymbol hc)
    rw [opened_after_of_ne (ne_of_isSymbol hc rfl) (ne_of_isSymbol hc rfl)]
    exact hdepth
  | opens _ ih =>
    refine List.append_eq_nil_iff.mpr ⟨rfl, ih (regular_after scan _) rfl ?_⟩
    exact congrArg (· + 1) hdepth
  | closes hplace _ ih =>
    obtain ⟨start, outer, houter⟩ := List.exists_cons_of_length_eq_add_one hdepth
    refine List.append_eq_nil_iff.mpr ⟨(problemsAt_close hregular).mpr ⟨?_, ?_⟩, ?_⟩
    · rw [houter]
      exact List.cons_ne_nil _ _
    · exact hstanding ▸ hplace
    · apply ih (regular_after scan _) rfl
      rw [houter] at hdepth
      simpa [after, houter] using hdepth
  | repeats hc _ ih =>
    refine List.append_eq_nil_iff.mpr ⟨(problemsAt_of_isRepeat hc).mpr hstanding, ?_⟩
    apply ih (regular_after scan _) (Standing.after_of_isRepeat hc)
    rwa [opened_after_of_ne]
    · rintro rfl
      cases hc
    · rintro rfl
      cases hc
  | bar _ ih =>
    exact List.append_eq_nil_iff.mpr
      ⟨problemsAt_bar.mpr hstanding, ih (regular_after scan _) rfl hdepth⟩
  | point hplace _ ih =>
    exact List.append_eq_nil_iff.mpr
      ⟨problemsAt_point.mpr (hstanding ▸ hplace), ih (regular_after scan _) rfl hdepth⟩

end Scan

variable {standing : Standing} {depth : Nat} {text rest : List Char} {level : Level}

/-- The check finds nothing exactly in the texts that the automaton accepts. -/
theorem check_eq_nil_iff_accepts : check text = [] ↔ Accepts .start 0 text := by
  have hregular : Scan.Regular {} := ⟨fun _ => rfl, nofun⟩
  cases text with
  | nil =>
    constructor
    · intro h
      cases h
    · intro h
      cases h with
      | stop hstart => exact absurd rfl hstart
  | cons c rest =>
    constructor
    · intro h
      exact Scan.accepts_of_problems_eq_nil hregular (fun _ => List.cons_ne_nil c rest) h
    · intro h
      exact Scan.problems_eq_nil_of_accepts h hregular rfl rfl

/-! ### From the automaton to derivations -/

/-- What is read up to the parenthesis that closes a group is read with the groups around it left
out. -/
theorem Accepts.split {outer inner : Nat} (h : Accepts standing (inner + 1 + outer) text) :
    ∃ group rest, text = group ++ ')' :: rest ∧ Accepts standing inner group ∧
      Accepts .operand outer rest := by
  generalize hdepth : inner + 1 + outer = depth at h
  induction h generalizing inner with
  | stop => omega
  | symbol hc _ ih =>
    obtain ⟨group, rest, rfl, hgroup, hrest⟩ := ih hdepth
    exact ⟨_, rest, (List.cons_append ..).symm, .symbol hc hgroup, hrest⟩
  | opens _ ih =>
    obtain ⟨group, rest, rfl, hgroup, hrest⟩ := @ih (inner + 1) (by omega)
    exact ⟨_, rest, (List.cons_append ..).symm, .opens hgroup, hrest⟩
  | @closes _ depth' rest hplace h ih =>
    cases inner with
    | zero =>
      obtain rfl : outer = depth' := by omega
      exact ⟨[], rest, rfl, .stop hplace, h⟩
    | succ inner =>
      obtain ⟨group, rest, rfl, hgroup, hrest⟩ := @ih inner (by omega)
      exact ⟨_, rest, (List.cons_append ..).symm, .closes hplace hgroup, hrest⟩
  | repeats hc _ ih =>
    obtain ⟨group, rest, rfl, hgroup, hrest⟩ := ih hdepth
    exact ⟨_, rest, (List.cons_append ..).symm, .repeats hc hgroup, hrest⟩
  | bar _ ih =>
    obtain ⟨group, rest, rfl, hgroup, hrest⟩ := ih hdepth
    exact ⟨_, rest, (List.cons_append ..).symm, .bar hgroup, hrest⟩
  | point hplace _ ih =>
    obtain ⟨group, rest, rfl, hgroup, hrest⟩ := ih hdepth
    exact ⟨_, rest, (List.cons_append ..).symm, .point hplace hgroup, hrest⟩

theorem Derives.isRepeat_getLast? (h : Derives .atom text) :
    ∀ c ∈ text.getLast?, isRepeat c = false := by
  intro c hc
  cases h with
  | symbol hsymbol =>
    obtain rfl := Option.some.inj hc
    exact isRepeat_of_isSymbol hsymbol
  | group =>
    rw [List.getLast?_concat] at hc
    obtain rfl := Option.some.inj hc
    rfl

theorem Accepts.exists_atom (h : Accepts .start depth text)
    (hshorter : ∀ group : List Char, group.length < text.length → Accepts .start 0 group →
      Derives .alternation group) :
    ∃ atom rest, text = atom ++ rest ∧ rest.length < text.length ∧ Derives .atom atom ∧
      Accepts .operand depth rest := by
  cases h with
  | stop hstart => exact absurd rfl hstart
  | @symbol _ _ c rest hc h =>
    exact ⟨[c], rest, rfl, Nat.lt_succ_self _, .symbol hc, h⟩
  | @opens _ _ text h =>
    rw [← Nat.zero_add (depth + 1), Nat.add_comm depth 1, ← Nat.add_assoc] at h
    obtain ⟨group, rest, rfl, hgroup, hrest⟩ := h.split
    have hlength : group.length < ('(' :: (group ++ ')' :: rest)).length := by
      simp only [List.length_cons, List.length_append]
      omega
    refine ⟨'(' :: group ++ [')'], rest, by simp, ?_, .group (hshorter group hlength hgroup), hrest⟩
    simp only [List.length_cons, List.length_append]
    omega
  | closes hstart | point hstart => exact absurd rfl hstart

theorem Derives.append_of_accepts {part : List Char} (hpart : Derives .repetition part)
    (h : Accepts .repeated 0 rest)
    (hshorter : ∀ text : List Char, text.length ≤ rest.length → Accepts .start 0 text →
      Derives .alternation text) : Derives .alternation (part ++ rest) := by
  cases h with
  | stop =>
    rw [List.append_nil]
    exact .only (.single hpart)
  | symbol hc h => exact (hpart.prepend (hshorter _ (Nat.le_refl _) (.symbol hc h))).1
  | opens h => exact (hpart.prepend (hshorter _ (Nat.le_refl _) (.opens h))).1
  | point _ h => exact (hpart.prepend (hshorter _ (Nat.le_succ _) h)).2

theorem derives_of_accepts (h : Accepts .start 0 text) : Derives .alternation text := by
  induction hlength : text.length using Nat.strong_induction_on generalizing text with
  | h n ih =>
    have hshorter : ∀ shorter : List Char, shorter.length < n → Accepts .start 0 shorter →
        Derives .alternation shorter := fun shorter hlt h => ih shorter.length hlt h rfl
    obtain ⟨atom, rest, rfl, hlt, hatom, hrest⟩ := h.exists_atom (hlength ▸ hshorter)
    rw [hlength] at hlt
    have hrests : ∀ shorter : List Char, shorter.length ≤ rest.length → Accepts .start 0 shorter →
        Derives .alternation shorter := by
      intro shorter hle
      exact hshorter shorter (Nat.lt_of_le_of_lt hle hlt)
    cases hrest with
    | stop => exact Derives.append_of_accepts (.once hatom) (.stop nofun) hrests
    | symbol hc hread => exact Derives.append_of_accepts (.once hatom) (.symbol hc hread) hrests
    | opens hread => exact Derives.append_of_accepts (.once hatom) (.opens hread) hrests
    | point _ hread => exact Derives.append_of_accepts (.once hatom) (.point nofun hread) hrests
    | @repeats _ c rest hc hread =>
      have hpart := Derives.append_of_accepts (.repeated hatom hc) hread
        fun shorter hle => hrests shorter (Nat.le_succ_of_le hle)
      rwa [List.append_assoc] at hpart
    | bar hread =>
      exact .either (.single (.once hatom)) hatom.isRepeat_getLast? (hrests _ (Nat.le_succ _) hread)

/-! ### From derivations to the automaton -/

theorem Derives.exists_getLast? (h : Derives level text) :
    ∃ c, text.getLast? = some c ∧ Standing.after c ≠ .start := by
  induction h with
  | @symbol c hc => exact ⟨c, rfl, Standing.after_of_isSymbol hc ▸ nofun⟩
  | group => exact ⟨')', List.getLast?_concat, nofun⟩
  | once _ ih | single _ ih | only _ ih => exact ih
  | @repeated _ c _ hc => exact ⟨c, List.getLast?_concat, Standing.after_of_isRepeat hc ▸ nofun⟩
  | juxtaposed _ _ _ ih | pointed _ _ _ ih | either _ _ _ _ ih =>
    obtain ⟨c, hlast, hc⟩ := ih
    exact ⟨c, by simp [List.getLast?_append, List.getLast?_cons, hlast], hc⟩

theorem Standing.after_eq_operand {c : Char} (hstart : after c ≠ .start)
    (hrepeat : isRepeat c = false) : after c = .operand :=
  after_eq_operand_iff.mpr ⟨hrepeat, fun hc => hstart (after_eq_start_iff.mpr hc)⟩

/-- A part can be read anywhere, and its last character says where the reading then stands. -/
theorem Derives.accepts_append (h : Derives level text) {c : Char} (hlast : text.getLast? = some c)
    (hrest : Accepts (.after c) depth rest) : Accepts standing depth (text ++ rest) := by
  induction h generalizing standing depth rest c with
  | @symbol d hc =>
    obtain rfl : d = c := Option.some.inj hlast
    rw [Standing.after_of_isSymbol hc] at hrest
    exact .symbol hc hrest
  | @group text h ih =>
    rw [List.getLast?_concat] at hlast
    obtain rfl := Option.some.inj hlast
    obtain ⟨d, hd, hstart⟩ := h.exists_getLast?
    have hgroup := @ih .start (depth + 1) (')' :: rest) d hd (.closes hstart hrest)
    simpa using Accepts.opens hgroup
  | once _ ih | single _ ih | only _ ih => exact ih hlast hrest
  | repeated h hc ih =>
    rw [List.getLast?_concat] at hlast
    obtain rfl := Option.some.inj hlast
    rw [Standing.after_of_isRepeat hc] at hrest
    obtain ⟨d, hd, hstart⟩ := h.exists_getLast?
    have hoperand := Standing.after_eq_operand hstart (h.isRepeat_getLast? d hd)
    rw [List.append_assoc]
    apply ih hd
    rw [hoperand]
    exact .repeats hc hrest
  | juxtaposed hleft hright ihleft ihright =>
    rw [List.getLast?_append_of_ne_nil _ hright.ne_nil] at hlast
    obtain ⟨d, hd, -⟩ := hleft.exists_getLast?
    rw [List.append_assoc]
    exact ihleft hd (ihright hlast hrest)
  | pointed hleft hright ihleft ihright =>
    rw [List.getLast?_append_of_ne_nil _ (List.cons_ne_nil _ _),
      List.getLast?_cons_of_ne_nil hright.ne_nil] at hlast
    obtain ⟨d, hd, hstart⟩ := hleft.exists_getLast?
    rw [List.append_assoc]
    exact ihleft hd (.point hstart (ihright hlast hrest))
  | either hleft hrepeat hright ihleft ihright =>
    rw [List.getLast?_append_of_ne_nil _ (List.cons_ne_nil _ _),
      List.getLast?_cons_of_ne_nil hright.ne_nil] at hlast
    obtain ⟨d, hd, hstart⟩ := hleft.exists_getLast?
    rw [List.append_assoc]
    apply ihleft hd
    rw [Standing.after_eq_operand hstart (hrepeat d hd)]
    exact .bar (ihright hlast hrest)

theorem accepts_of_derives (h : Derives .alternation text) : Accepts .start 0 text := by
  obtain ⟨c, hlast, hstart⟩ := h.exists_getLast?
  have hread : Accepts .start 0 (text ++ []) := h.accepts_append hlast (.stop hstart)
  rwa [List.append_nil] at hread

/-! ### The check and the grammar -/

theorem derives_of_check_eq_nil (h : check text = []) : Derives .alternation text :=
  derives_of_accepts (check_eq_nil_iff_accepts.mp h)

/-- **The check and the grammar.**  The check finds nothing exactly in the texts that are
patterns. -/
theorem check_eq_nil_iff_derives (text : List Char) :
    check text = [] ↔ Derives .alternation text := by
  constructor
  · exact derives_of_check_eq_nil
  · intro h
    exact check_eq_nil_iff_accepts.mpr (accepts_of_derives h)

end PatternAutomata
