import PatternAutomata.Proofs.Pattern.Points
import PatternAutomata.Proofs.Pattern.Reports

/-!
# The stack of the conversion

Behind any text, well formed or not, the operators that wait above one another bind the more
strongly the higher they stand.  An operator only comes onto the stack when all that bind as
strongly are gone, and all else that happens to the stack takes something off its top.  As there are
three strengths, no more than three operators wait in each group and below all groups.

In an explicit text no group is opened directly behind a repeat, for a point stands between them and
takes the repeat off the stack.  So no repeat waits below a group, and closing a group never
uncovers one: a conversion that does not look for it gives the same postfix.
-/

namespace PatternAutomata

open Pending

variable {stack rest : List Pending} {text read : List Char} {c d : Char} {op : Token}
  {ops : List Token} {bound : Nat} {last : Option Char}

/-! ### What waits behind a text -/

/-- What waits when a text has been read above a stack. -/
def waiting (stack : List Pending) (read : List Char) : List Pending :=
  read.foldl (fun stack c => (readPending stack c).2) stack

theorem waiting_concat (stack : List Pending) (read : List Char) (c : Char) :
    waiting stack (read ++ [c]) = (readPending (waiting stack read) c).2 :=
  List.foldl_concat ..

/-- What the conversion still does depends on what waits, and on nothing else that was read. -/
theorem exists_passed (stack : List Pending) (read : List Char) :
    ∃ passed, ∀ rest, postfixFrom stack (read ++ rest) =
      passed ++ postfixFrom (waiting stack read) rest := by
  induction read generalizing stack with
  | nil => exact ⟨[], fun rest => rfl⟩
  | cons c read ih =>
    obtain ⟨passed, hpassed⟩ := ih (readPending stack c).2
    refine ⟨(readPending stack c).1 ++ passed, ?_⟩
    intro rest
    rw [List.append_assoc]
    exact congrArg ((readPending stack c).1 ++ ·) (hpassed rest)

namespace Pending

theorem closeGroup_suffix (stack : List Pending) : (closeGroup stack).2 <:+ stack := by
  rcases closeGroup_split stack with hsplit | ⟨-, hleft⟩
  · exact (List.suffix_cons group _).trans ⟨_, hsplit⟩
  · rw [hleft]
    exact List.nil_suffix

theorem popUnary_suffix (stack : List Pending) : (popUnary stack).2 <:+ stack :=
  ⟨_, popUnary_split stack⟩

theorem popStronger_suffix (incoming : Token) (stack : List Pending) :
    (popStronger incoming stack).2 <:+ stack :=
  ⟨_, popStronger_split incoming stack⟩

theorem below_popStronger (incoming : Token) (stack : List Pending) :
    Below incoming.precedence (popStronger incoming stack).2 := by
  induction stack with
  | nil => exact below_nil _
  | cons top below ih =>
    cases top with
    | group => exact below_group _ _
    | operator op =>
      rw [popStronger]
      split
      · next hlt => exact below_operator hlt
      · exact ih

theorem count_group_operator (op : Token) (stack : List Pending) :
    (operator op :: stack).count group = stack.count group := by
  have hne : operator op ≠ group := nofun
  exact List.count_cons_of_ne hne

theorem count_group_append (ops : List Token) (stack : List Pending) :
    (ops.map operator ++ stack).count group = stack.count group := by
  induction ops with
  | nil => rfl
  | cons op ops ih => exact (count_group_operator op _).trans ih

/-- No operator binds more strongly than the repeats. -/
theorem below_four (stack : List Pending) : Below 4 stack :=
  fun op _ _ => Nat.lt_succ_of_le op.precedence_le

/-! ### Operators above one another -/

/-- Every operator on the stack has a strength, and binds more strongly than an operator directly
below it. -/
def Climbs (stack : List Pending) : Prop :=
  ∀ op below, operator op :: below <:+ stack → 0 < op.precedence ∧ Below op.precedence below

namespace Climbs

theorem nil : Climbs [] := by
  intro op below hbelow
  cases List.suffix_nil.mp hbelow

theorem of_suffix (h : Climbs stack) (hsuffix : rest <:+ stack) : Climbs rest := by
  intro op below hbelow
  exact h op below (hbelow.trans hsuffix)

theorem open_group (h : Climbs stack) : Climbs (group :: stack) := by
  intro op below hbelow
  rcases List.suffix_cons_iff.mp hbelow with heq | hbelow
  · cases heq
  · exact h op below hbelow

theorem push (h : Climbs stack) (hpos : 0 < op.precedence) (hbelow : Below op.precedence stack) :
    Climbs (operator op :: stack) := by
  intro other below hsuffix
  rcases List.suffix_cons_iff.mp hsuffix with heq | hsuffix
  · cases heq
    exact ⟨hpos, hbelow⟩
  · exact h other below hsuffix

theorem step (h : Climbs stack) (c : Char) : Climbs (readPending stack c).2 := by
  rcases readPending_cases stack c with
    ⟨-, -, -, hleft⟩ | ⟨-, hleft⟩ | ⟨-, hleft⟩ | ⟨op, hop, hleft⟩
  · rw [hleft]
    exact h
  · rw [hleft]
    exact h.open_group
  · rw [hleft]
    exact h.of_suffix ((popUnary_suffix _).trans (closeGroup_suffix stack))
  · rw [hleft]
    have hkept := h.of_suffix (popStronger_suffix op stack)
    exact hkept.push (Token.precedence_pos_of_operator? hop) (below_popStronger op stack)

theorem run (h : Climbs stack) (read : List Char) : Climbs (waiting stack read) := by
  induction read generalizing stack with
  | nil => exact h
  | cons c read ih => exact ih (h.step c)

/-- In a run of operators, listed from the top, the strengths descend. -/
theorem pairwise (h : Climbs (ops.map operator ++ rest)) :
    (ops.map Token.precedence).Pairwise (· > ·) := by
  induction ops with
  | nil => exact .nil
  | cons op ops ih =>
    have hrest := ih (h.of_suffix (List.suffix_cons _ _))
    obtain ⟨-, hbelow⟩ := h op (ops.map operator ++ rest) (List.suffix_refl _)
    refine List.pairwise_cons.mpr ⟨?_, hrest⟩
    intro strength hstrength
    cases ops with
    | nil => cases hstrength
    | cons next ops =>
      have hnext : next.precedence < op.precedence := hbelow next _ rfl
      rcases List.mem_cons.mp hstrength with rfl | hstrength
      · exact hnext
      · exact Nat.lt_trans ((List.pairwise_cons.mp hrest).1 _ hstrength) hnext

/-- Every group that is open makes room for three operators more. -/
theorem length_operators_le (h : Climbs stack) (hbelow : Below (bound + 1) stack) :
    (operators stack).length ≤ 3 * stack.count group + bound := by
  induction stack generalizing bound with
  | nil => exact Nat.zero_le _
  | cons top below ih =>
    have hrest := h.of_suffix (List.suffix_cons top below)
    cases top with
    | group =>
      have hlength := ih hrest (below_four below)
      rw [operators, List.count_cons_self]
      omega
    | operator op =>
      obtain ⟨hpos, hunder⟩ := h op below (List.suffix_refl _)
      have hop : op.precedence < bound + 1 := hbelow op below rfl
      rw [← Nat.sub_add_cancel hpos] at hunder
      have hlength := ih hrest hunder
      rw [operators, List.length_cons, count_group_operator]
      omega

end Climbs

/-! ### Groups that are open -/

theorem count_group_closeGroup (stack : List Pending) :
    (closeGroup stack).2.count group = stack.count group - 1 := by
  rcases closeGroup_split stack with hsplit | ⟨hsplit, hleft⟩
  · conv_rhs => rw [← hsplit, count_group_append, List.count_cons_self, Nat.add_sub_cancel]
  · conv_rhs => rw [← hsplit, ← List.append_nil (List.map _ _), count_group_append]
    rw [hleft]
    rfl

theorem count_group_popUnary (stack : List Pending) :
    (popUnary stack).2.count group = stack.count group := by
  conv_rhs => rw [← popUnary_split stack, count_group_append]

theorem count_group_popStronger (incoming : Token) (stack : List Pending) :
    (popStronger incoming stack).2.count group = stack.count group := by
  conv_rhs => rw [← popStronger_split incoming stack, count_group_append]

/-- The groups that wait are those that the check finds open. -/
theorem count_group_waiting (read : List Char) :
    (waiting [] read).count group = (Scan.read {} read).opened.length := by
  induction read using List.reverseRecOn with
  | nil => rfl
  | append_singleton read c ih =>
    rw [waiting_concat, Scan.read_append, Scan.read_cons, Scan.read_nil]
    rcases readPending_cases (waiting [] read) c with
      ⟨hopen, hclose, -, hleft⟩ | ⟨rfl, hleft⟩ | ⟨rfl, hleft⟩ | ⟨op, hop, hleft⟩
    · rw [hleft, ih, Scan.opened_after_of_ne hopen hclose]
    · rw [hleft, List.count_cons_self, ih]
      rfl
    · rw [hleft, count_group_popUnary, count_group_closeGroup, ih]
      exact (List.length_tail ..).symm
    · rw [hleft, count_group_operator, count_group_popStronger, ih,
        Scan.opened_after_of_ne]
      · rintro rfl
        cases hop
      · rintro rfl
        cases hop

end Pending

/-- **Operators wait in the order of their strength.**  Behind whatever has been read of a text, the
operators that wait above one another, with no group between them, bind the more strongly the higher
they stand; the stack lists them from the top.  So there are never more of them than three for each
group that is open, and three. -/
theorem waiting_operators_climb (read : List Char) :
    (∃ passed, ∀ rest, toPostfix (read ++ rest) =
        passed ++ postfixFrom (waiting [] read) rest) ∧
      (∀ (above : List Pending) (ops : List Token) (below : List Pending),
        waiting [] read = above ++ (ops.map operator ++ below) →
        (ops.map Token.precedence).Pairwise (· > ·)) ∧
      (waiting [] read).count group = (Scan.read {} read).opened.length ∧
      (operators (waiting [] read)).length ≤ 3 * (Scan.read {} read).opened.length + 3 := by
  have hclimbs := Climbs.nil.run read
  refine ⟨exists_passed [] read, ?_, count_group_waiting read, ?_⟩
  · intro above ops below hstack
    exact (hclimbs.of_suffix ⟨above, hstack.symm⟩).pairwise
  · rw [← count_group_waiting]
    exact hclimbs.length_operators_le (below_four _)

/-- As many operators wait as can: three in the open group and three below it. -/
theorem waiting_operators_climb_of_full :
    waiting [] "a|b.c*(d|e.f*".toList =
        [.star, .concat, .alternate].map operator ++
          (group :: [.star, .concat, .alternate].map operator) ∧
      ([.star, .concat, .alternate].map Token.precedence).Pairwise (· > ·) ∧
      (operators (waiting [] "a|b.c*(d|e.f*".toList)).length = 6 ∧
      6 ≤ 3 * (Scan.read {} "a|b.c*(d|e.f*".toList).opened.length + 3 := by
  have hstack : waiting [] "a|b.c*(d|e.f*".toList =
      [.star, .concat, .alternate].map operator ++
        (group :: [.star, .concat, .alternate].map operator) := by decide
  have hlength : (operators (waiting [] "a|b.c*(d|e.f*".toList)).length = 6 := by decide
  obtain ⟨-, hruns, -, hbound⟩ := waiting_operators_climb "a|b.c*(d|e.f*".toList
  rw [hlength] at hbound
  exact ⟨hstack, hruns [] _ _ hstack, hlength, hbound⟩

/-! ### Repeats -/

theorem Token.isUnary_of_operator? (h : Token.operator? c = some op) :
    op.isUnary = isRepeat c := by
  unfold Token.operator? at h
  repeat' split at h
  all_goals cases h
  all_goals
    subst c
    rfl

theorem isRepeat_of_joins (hc : beginsOperand c = true) (h : joins d c = false) :
    isRepeat d = false := by
  rw [Bool.eq_false_iff]
  intro hrepeat
  rcases isRepeat_iff.mp hrepeat with rfl | rfl | rfl <;> simp [joins, endsOperand, hc] at h

/-- No group is open directly above a repeat, and a repeat is on top only directly behind it. -/
structure Settled (last : Option Char) (stack : List Pending) : Prop where
  groups : ∀ below, group :: below <:+ stack → Below 3 below
  top : (∀ d ∈ last, isRepeat d = false) → Below 3 stack

namespace Settled

/-- What begins an operand is read with no repeat on top. -/
theorem below_of_begins (h : Settled last stack) (hc : beginsOperand c = true)
    (hjoins : ∀ d ∈ last, joins d c = false) : Below 3 stack := by
  apply h.top
  intro d hd
  exact isRepeat_of_joins hc (hjoins d hd)

theorem below_closeGroup (h : Settled last stack) : Below 3 (closeGroup stack).2 := by
  rcases closeGroup_split stack with hsplit | ⟨-, hleft⟩
  · exact h.groups _ ⟨_, hsplit⟩
  · rw [hleft]
    exact below_nil 3

theorem step (h : Settled last stack) (hc : isForeign c = false)
    (hjoins : ∀ d ∈ last, joins d c = false) : Settled (some c) (readPending stack c).2 := by
  rcases readPending_cases stack c with
    ⟨hopen, hclose, hop, hleft⟩ | ⟨rfl, hleft⟩ | ⟨rfl, hleft⟩ | ⟨op, hop, hleft⟩
  · -- the character is a symbol
    have hoperator : isOperator c = false := by
      rw [← Token.operator?_isSome, hop]
      rfl
    have hsymbol : isSymbol c = true := by
      simpa [isForeign, hoperator, isParenthesis_eq_false hopen hclose] using hc
    have hbegins : beginsOperand c = true := by simp [beginsOperand, hsymbol]
    rw [hleft]
    exact ⟨h.groups, fun _ => h.below_of_begins hbegins hjoins⟩
  · rw [hleft]
    refine ⟨?_, fun _ => below_group 3 stack⟩
    intro below hbelow
    rcases List.suffix_cons_iff.mp hbelow with heq | hbelow
    · cases heq
      exact h.below_of_begins rfl hjoins
    · exact h.groups below hbelow
  · have hclosed := h.below_closeGroup
    rw [hleft, popUnary_of_below hclosed]
    refine ⟨?_, fun _ => hclosed⟩
    intro below hbelow
    exact h.groups below (hbelow.trans (closeGroup_suffix stack))
  · rw [hleft]
    constructor
    · intro below hbelow
      rcases List.suffix_cons_iff.mp hbelow with heq | hbelow
      · cases heq
      · exact h.groups below (hbelow.trans (popStronger_suffix op stack))
    · intro hlast
      apply below_operator
      rw [Token.precedence_lt_iff, Token.isUnary_of_operator? hop]
      exact hlast c rfl

end Settled

theorem settled_waiting (hread : ∀ c ∈ read, isForeign c = false) (hexplicit : IsExplicit read) :
    Settled read.getLast? (waiting [] read) := by
  induction read using List.reverseRecOn with
  | nil =>
    refine ⟨?_, fun _ => below_nil 3⟩
    intro below hbelow
    cases List.suffix_nil.mp hbelow
  | append_singleton read c ih =>
    obtain ⟨hbefore, -, hjoins⟩ := List.isChain_append.mp hexplicit
    rw [List.forall_mem_append] at hread
    rw [waiting_concat, List.getLast?_concat]
    apply (ih hread.1 hbefore).step (hread.2 c (List.mem_singleton_self c))
    intro d hd
    exact hjoins d hd c rfl

theorem isForeign_of_mem_explicitConcat (htext : ∀ c ∈ text, isForeign c = false) :
    ∀ c ∈ explicitConcat text, isForeign c = false := by
  intro c hc
  by_cases hpoint : c = '.'
  · rw [hpoint]
    rfl
  · have hmem : c ∈ withoutPoints (explicitConcat text) :=
      List.mem_filter.mpr ⟨hc, decide_eq_true hpoint⟩
    rw [withoutPoints_explicitConcat] at hmem
    exact htext c (List.mem_of_mem_filter hmem)

/-! ### The conversion without the last pop -/

/-- Reads a character as the conversion does, but takes no repeat off the stack behind a group. -/
def readLeavingRepeats (stack : List Pending) (c : Char) : List Token × List Pending :=
  if c = ')' then closeGroup stack else readPending stack c

/-- The conversion of a text, but for the repeats that it leaves below groups. -/
def postfixLeavingRepeats (stack : List Pending) : List Char → Postfix
  | [] => operators stack
  | c :: rest =>
    let (passed, left) := readLeavingRepeats stack c
    passed ++ postfixLeavingRepeats left rest

/-- If no group uncovers a repeat, it makes no difference whether repeats are left. -/
theorem postfixLeavingRepeats_eq (h : ∀ before after, text = before ++ ')' :: after →
    popUnary (closeGroup (waiting stack before)).2 =
      ([], (closeGroup (waiting stack before)).2)) :
    postfixLeavingRepeats stack text = postfixFrom stack text := by
  induction text generalizing stack with
  | nil => rfl
  | cons c text ih =>
    have hread : readLeavingRepeats stack c = readPending stack c := by
      by_cases hclose : c = ')'
      · subst hclose
        have hpop : popUnary (closeGroup stack).2 = ([], (closeGroup stack).2) := h [] text rfl
        rw [readPending_close, hpop, List.append_nil]
        rfl
      · exact if_neg hclose
    have hrest := @ih (readPending stack c).2 fun before after htext =>
      h (c :: before) after (congrArg (c :: ·) htext)
    rw [postfixLeavingRepeats, hread]
    exact congrArg ((readPending stack c).1 ++ ·) hrest

/-- **No group hides a repeat.**  While the explicit form of a text over the characters of patterns
is converted, no group is opened directly above a repeat, and behind a group that is closed there is
no repeat to be taken off the stack.  So a conversion that leaves repeats where they are gives the
same postfix, be the text balanced or not. -/
theorem explicit_groups_hide_no_repeat (htext : ∀ c ∈ text, isForeign c = false) :
    (∀ before after, explicitConcat text = before ++ '(' :: after →
        ∀ op below, waiting [] before = operator op :: below → op.isUnary = false) ∧
      (∀ before after, explicitConcat text = before ++ ')' :: after →
        popUnary (closeGroup (waiting [] before)).2 =
          ([], (closeGroup (waiting [] before)).2)) ∧
      postfixLeavingRepeats [] (explicitConcat text) = toPostfix (explicitConcat text) := by
  -- what holds behind every beginning of the explicit form
  have hsettled : ∀ before c after, explicitConcat text = before ++ c :: after →
      Settled before.getLast? (waiting [] before) ∧ ∀ d ∈ before.getLast?, joins d c = false := by
    intro before c after hsplit
    have hforeign := isForeign_of_mem_explicitConcat htext
    have hexplicit := isExplicit_explicitConcat text
    rw [hsplit] at hforeign hexplicit
    obtain ⟨hbefore, -, hjoins⟩ := List.isChain_append.mp hexplicit
    refine ⟨settled_waiting (List.forall_mem_append.mp hforeign).1 hbefore, ?_⟩
    intro d hd
    exact hjoins d hd c rfl
  have hpop : ∀ before after, explicitConcat text = before ++ ')' :: after →
      popUnary (closeGroup (waiting [] before)).2 =
        ([], (closeGroup (waiting [] before)).2) := by
    intro before after hsplit
    exact popUnary_of_below (hsettled before ')' after hsplit).1.below_closeGroup
  refine ⟨?_, hpop, postfixLeavingRepeats_eq hpop⟩
  intro before after hsplit op below hstack
  obtain ⟨hbefore, hjoins⟩ := hsettled before '(' after hsplit
  exact Token.precedence_lt_iff.mp (hbefore.below_of_begins rfl hjoins op below hstack)

/-- A text with a group that is never opened and one that is never closed.  Where no point is put
between a repeat and a group, the repeat is taken off the stack behind the group. -/
theorem explicit_groups_hide_no_repeat_of_unbalanced :
    (∀ c ∈ "a*(b+)?)(c".toList, isForeign c = false) ∧
      explicitConcat "a*(b+)?)(c".toList = "a*.(b+)?).(c".toList ∧
      (∀ op below, waiting [] "a*.".toList = operator op :: below → op.isUnary = false) ∧
      postfixLeavingRepeats [] (explicitConcat "a*(b+)?)(c".toList) =
        toPostfix (explicitConcat "a*(b+)?)(c".toList) ∧
      postfixLeavingRepeats [] "a*(b)c".toList = [.symbol 'a', .symbol 'b', .symbol 'c', .star] ∧
      toPostfix "a*(b)c".toList = [.symbol 'a', .symbol 'b', .star, .symbol 'c'] := by
  have hall : "a*(b+)?)(c".toList.all (isForeign · = false) = true := rfl
  have htext : ∀ c ∈ "a*(b+)?)(c".toList, isForeign c = false := by
    intro c hc
    exact of_decide_eq_true (List.all_eq_true.mp hall c hc)
  have hexplicit : explicitConcat "a*(b+)?)(c".toList = "a*.(b+)?).(c".toList := by decide
  obtain ⟨hopened, -, hsame⟩ := explicit_groups_hide_no_repeat htext
  exact ⟨htext, hexplicit, hopened _ "b+)?).(c".toList hexplicit, hsame, rfl, rfl⟩

end PatternAutomata
