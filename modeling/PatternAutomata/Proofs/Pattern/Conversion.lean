import PatternAutomata.Proofs.Pattern.Grammar

/-!
# The conversion and the syntax tree

The conversion of a pattern text puts out the postfix of its tree.  While a part is read, the tokens
put out so far and the operators that still wait make up its postfix, and every waiting operator
binds at least as strongly as the part.  What waits below must bind less than the part, else it
would be put out too early; a group that is open shields what is below it.
-/

namespace PatternAutomata

variable {text left right rest : List Char} {level : Level} {e : Expr}

/-! ### Explicit concatenation -/

/-- What is put between two neighbouring characters. -/
def glue : Option Char → Option Char → List Char
  | some left, some right => if joins left right then ['.'] else []
  | _, _ => []

theorem explicitConcat_cons (c : Char) (text : List Char) :
    explicitConcat (c :: text) = c :: (glue (some c) text.head? ++ explicitConcat text) := by
  cases text with
  | nil => rfl
  | cons d text =>
    simp only [explicitConcat, List.head?_cons, glue]
    split <;> rfl

theorem explicitConcat_append (left right : List Char) :
    explicitConcat (left ++ right) =
      explicitConcat left ++ glue left.getLast? right.head? ++ explicitConcat right := by
  induction left with
  | nil => rfl
  | cons c left ih =>
    rw [List.cons_append, explicitConcat_cons, explicitConcat_cons, ih]
    cases left with
    | nil => simp [glue, explicitConcat]
    | cons d left => simp [List.getLast?_cons_cons]

theorem glue_of_begins {c : Char} (previous : Option Char) (h : beginsOperand c = false) :
    glue previous (some c) = [] := by
  cases previous with
  | none => rfl
  | some d => simp [glue, joins, h]

theorem glue_of_ends {c : Char} (next : Option Char) (h : endsOperand c = false) :
    glue (some c) next = [] := by
  cases next with
  | none => rfl
  | some d => simp [glue, joins, h]

theorem explicitConcat_cons_of_ends {c : Char} (h : endsOperand c = false) :
    explicitConcat (c :: text) = c :: explicitConcat text := by
  rw [explicitConcat_cons, glue_of_ends _ h, List.nil_append]

theorem explicitConcat_append_cons {c : Char} (h : beginsOperand c = false) :
    explicitConcat (left ++ c :: text) = explicitConcat left ++ explicitConcat (c :: text) := by
  rw [explicitConcat_append, List.head?_cons, glue_of_begins _ h, List.append_nil]

theorem explicitConcat_binary {c : Char} (hbegins : beginsOperand c = false)
    (hends : endsOperand c = false) :
    explicitConcat (left ++ c :: right) = explicitConcat left ++ c :: explicitConcat right := by
  rw [explicitConcat_append_cons hbegins, explicitConcat_cons_of_ends hends]

theorem explicitConcat_concat {c : Char} (h : beginsOperand c = false) :
    explicitConcat (text ++ [c]) = explicitConcat text ++ [c] := by
  rw [explicitConcat_append_cons h]
  rfl

theorem explicitConcat_group :
    explicitConcat ('(' :: text ++ [')']) = '(' :: explicitConcat text ++ [')'] := by
  rw [explicitConcat_concat rfl, explicitConcat_cons_of_ends rfl]

theorem explicitConcat_parts {l r : Expr} {level' : Level} (hleft : Parses level left l)
    (hright : Parses level' right r) :
    explicitConcat (left ++ right) = explicitConcat left ++ '.' :: explicitConcat right := by
  obtain ⟨c, hlast, hc⟩ := hleft.getLast?_eq
  obtain ⟨d, hhead, hd⟩ := hright.head?_eq
  have hglue : glue (some c) (some d) = ['.'] := by simp [glue, joins, hc, hd]
  rw [explicitConcat_append, hlast, hhead, hglue, List.append_assoc]
  rfl

/-! ### The stack -/

/-- How strongly the operators of a part bind. -/
def Level.strength : Level → Nat
  | .alternation => 1
  | .concatenation => 2
  | .repetition | .atom => 3

namespace Pending

variable {stack : List Pending} {ops : List Token} {op : Token} {bound bound' : Nat}

/-- No operator on top of the stack binds as strongly as the bound. -/
def Below (bound : Nat) (stack : List Pending) : Prop :=
  ∀ op rest, stack = operator op :: rest → op.precedence < bound

theorem below_nil (bound : Nat) : Below bound [] := nofun

theorem below_group (bound : Nat) (stack : List Pending) : Below bound (group :: stack) := nofun

theorem below_operator (h : op.precedence < bound) : Below bound (operator op :: stack) := by
  rintro _ _ ⟨⟩
  exact h

theorem Below.mono (h : Below bound stack) (hle : bound ≤ bound') : Below bound' stack :=
  fun op rest hstack => Nat.lt_of_lt_of_le (h op rest hstack) hle

theorem popStronger_of_below (h : Below op.precedence stack) :
    popStronger op stack = ([], stack) := by
  match stack with
  | [] | group :: _ => rfl
  | operator top :: rest => simp [popStronger, h top rest rfl]

theorem popStronger_append (hops : ∀ top ∈ ops, op.precedence ≤ top.precedence)
    (h : Below op.precedence stack) :
    popStronger op (ops.map operator ++ stack) = (ops, stack) := by
  induction ops with
  | nil => exact popStronger_of_below h
  | cons top ops ih =>
    have htop : ¬ top.precedence < op.precedence :=
      Nat.not_lt.mpr (hops top (List.mem_cons_self ..))
    rw [List.map_cons, List.cons_append, popStronger, if_neg htop,
      ih fun other hother => hops other (List.mem_cons_of_mem top hother)]

theorem closeGroup_append (ops : List Token) (stack : List Pending) :
    closeGroup (ops.map operator ++ group :: stack) = (ops, stack) := by
  induction ops with
  | nil => rfl
  | cons top ops ih => rw [List.map_cons, List.cons_append, closeGroup, ih]

theorem popUnary_of_below (h : Below 3 stack) : popUnary stack = ([], stack) := by
  match stack with
  | [] | group :: _ => rfl
  | operator top :: rest =>
    have hstrength := h top rest rfl
    cases top with
    | symbol | concat | alternate => rfl
    | star | plus | optional => exact absurd hstrength (Nat.lt_irrefl 3)

end Pending

open Pending

variable {stack : List Pending} {ops : List Token}

/-! ### Reading characters -/

theorem postfixFrom_symbol {c : Char} (hc : isSymbol c = true) :
    postfixFrom stack (c :: rest) = .symbol c :: postfixFrom stack rest := by
  rw [postfixFrom, readPending_of_isSymbol hc]
  rfl

theorem postfixFrom_open :
    postfixFrom stack ('(' :: rest) = postfixFrom (.group :: stack) rest := rfl

theorem postfixFrom_close (h : Below 3 stack) :
    postfixFrom (ops.map .operator ++ .group :: stack) (')' :: rest) =
      ops ++ postfixFrom stack rest := by
  have hread : readPending (ops.map .operator ++ .group :: stack) ')' = (ops, stack) := by
    rw [readPending_close, closeGroup_append, popUnary_of_below h, List.append_nil]
  rw [postfixFrom, hread]

theorem postfixFrom_operator {c : Char} {op : Token} (hop : Token.operator? c = some op)
    (hops : ∀ top ∈ ops, op.precedence ≤ top.precedence) (h : Below op.precedence stack) :
    postfixFrom (ops.map .operator ++ stack) (c :: rest) =
      ops ++ postfixFrom (.operator op :: stack) rest := by
  rw [postfixFrom, readPending_operator hop, popStronger_append hops h]

/-! ### Reading parts -/

/-- Reading the explicit form of a part above a stack puts out the postfix of its tree, but for
operators that are left waiting. -/
def Converts (level : Level) (text : List Char) (e : Expr) : Prop :=
  ∀ stack rest, Below level.strength stack → ∃ out ops,
    postfixFrom stack (explicitConcat text ++ rest) =
      out ++ postfixFrom (ops.map .operator ++ stack) rest ∧
    out ++ ops = e.postfixOf ∧ (∀ op ∈ ops, level.strength ≤ op.precedence) ∧
    (level = .atom → ops = [])

/-- A repeat waits above its operand, which has been put out. -/
theorem Converts.repeated {c : Char} {op : Token} {e' : Expr} (h : Converts .atom text e)
    (hbegins : beginsOperand c = false) (hop : Token.operator? c = some op)
    (hunary : op.precedence = 3) (he : e'.postfixOf = e.postfixOf ++ [op]) :
    Converts .repetition (text ++ [c]) e' := by
  intro stack rest hbelow
  obtain ⟨out, ops, hout, htokens, -, hops⟩ := h stack (c :: rest) hbelow
  obtain rfl := hops rfl
  rw [List.append_nil] at htokens
  refine ⟨out, [op], ?_, ?_, ?_, nofun⟩
  · have hexplicit : explicitConcat (text ++ [c]) ++ rest = explicitConcat text ++ c :: rest := by
      rw [explicitConcat_concat hbegins, List.append_assoc]
      rfl
    have hread := @postfixFrom_operator rest stack [] c op hop nofun (hunary ▸ hbelow)
    rw [hexplicit, hout, hread]
    rfl
  · rw [htokens, he]
  · intro top htop
    rw [List.mem_singleton.mp htop, hunary]
    exact Nat.le_refl 3

/-- An operator with two operands puts out what waits of the left operand, and waits below what
waits of the right one. -/
theorem Converts.infixed {c : Char} {op : Token} {e' l r : Expr} {level' : Level}
    (hleft : Converts level left l) (hright : Converts level' right r)
    (hop : Token.operator? c = some op) (hlevel : op.precedence = level.strength)
    (hlevel' : level.strength < level'.strength) (hatom : level ≠ .atom)
    (hexplicit : explicitConcat text = explicitConcat left ++ c :: explicitConcat right)
    (he : e'.postfixOf = l.postfixOf ++ r.postfixOf ++ [op]) : Converts level text e' := by
  intro stack rest hbelow
  obtain ⟨out, ops, hout, htokens, hstrong, -⟩ :=
    hleft stack (c :: (explicitConcat right ++ rest)) hbelow
  obtain ⟨out', ops', hout', htokens', hstrong', -⟩ :=
    hright (.operator op :: stack) rest (below_operator (hlevel ▸ hlevel'))
  refine ⟨out ++ ops ++ out', ops' ++ [op], ?_, ?_, ?_, fun h => absurd h hatom⟩
  · have hread := @postfixFrom_operator (explicitConcat right ++ rest) stack ops c op hop
      (hlevel ▸ hstrong) (hlevel ▸ hbelow)
    rw [hexplicit, List.append_assoc, List.cons_append, hout, hread, hout']
    simp
  · rw [he, ← htokens, ← htokens']
    simp
  · intro top htop
    rcases List.mem_append.mp htop with htop | htop
    · exact Nat.le_of_lt (Nat.lt_of_lt_of_le hlevel' (hstrong' top htop))
    · obtain rfl := List.mem_singleton.mp htop
      exact Nat.le_of_eq hlevel.symm

theorem Converts.weaken {level' : Level} (h : Converts level text e)
    (hlevel : level'.strength ≤ level.strength) (hatom : level' ≠ .atom) :
    Converts level' text e := by
  intro stack rest hbelow
  obtain ⟨out, ops, hout, htokens, hstrong, -⟩ := h stack rest (hbelow.mono hlevel)
  exact ⟨out, ops, hout, htokens, fun op hop => Nat.le_trans hlevel (hstrong op hop),
    fun h => absurd h hatom⟩

theorem Parses.converts (h : Parses level text e) : Converts level text e := by
  induction h with
  | symbol hc =>
    intro stack rest _
    exact ⟨[.symbol _], [], postfixFrom_symbol hc, rfl, nofun, fun _ => rfl⟩
  | @group text _ _ ih =>
    intro stack rest hbelow
    obtain ⟨out, ops, hout, htokens, -, -⟩ :=
      ih (.group :: stack) (')' :: rest) (below_group _ stack)
    refine ⟨out ++ ops, [], ?_, by rw [htokens, List.append_nil], nofun, fun _ => rfl⟩
    have hexplicit : explicitConcat ('(' :: text ++ [')']) ++ rest =
        '(' :: (explicitConcat text ++ ')' :: rest) := by
      rw [explicitConcat_group, List.append_assoc]
      rfl
    rw [hexplicit, postfixFrom_open, hout, postfixFrom_close hbelow, List.append_assoc]
    rfl
  | once _ ih => exact ih.weaken (Nat.le_refl 3) nofun
  | star _ ih => exact ih.repeated rfl rfl rfl rfl
  | plus _ ih => exact ih.repeated rfl rfl rfl rfl
  | optional _ ih => exact ih.repeated rfl rfl rfl rfl
  | single _ ih => exact ih.weaken (Nat.le_succ 2) nofun
  | juxtaposed hleft hright ihleft ihright =>
    exact ihleft.infixed ihright rfl rfl (Nat.lt_succ_self 2) nofun
      (explicitConcat_parts hleft hright) rfl
  | pointed _ _ ihleft ihright =>
    exact ihleft.infixed ihright rfl rfl (Nat.lt_succ_self 2) nofun
      (explicitConcat_binary rfl rfl) rfl
  | only _ ih => exact ih.weaken (Nat.le_succ 1) nofun
  | either _ _ ihleft ihright =>
    exact ihleft.infixed ihright rfl rfl (Nat.lt_succ_self 1) nofun
      (explicitConcat_binary rfl rfl) rfl

/-- The conversion of a text with a tree puts out the postfix of the tree. -/
theorem Parses.toPostfix_eq (h : Parses .alternation text e) :
    toPostfix (explicitConcat text) = e.postfixOf := by
  obtain ⟨out, ops, hout, htokens, -, -⟩ := h.converts [] [] (below_nil _)
  rw [List.append_nil] at hout
  rw [toPostfix, hout, postfixFrom, operators_append, operators, List.append_nil, htokens]

theorem Parses.unique {e' : Expr} (h : Parses .alternation text e)
    (h' : Parses .alternation text e') : e = e' :=
  Expr.postfixOf_injective (h.toPostfix_eq.symm.trans h'.toPostfix_eq)

end PatternAutomata
