import PatternAutomata.Pattern.Concatenation
import PatternAutomata.Proofs.Pattern.Expression

/-!
# Two grammars of patterns

The grammar of the texts that are patterns, and the grammar that gives a pattern its syntax tree.
They differ in two ways.  The first is read from the left, the second makes chains of concatenations
and of alternatives lean to the left, as usual.  And the first does not let a repeat stand before a
bar, which the second does not mind.  So every text of the first grammar has a tree in the second.
-/

namespace PatternAutomata

/-- The parts of a pattern, by how strongly they hold together. -/
inductive Level where
  | alternation
  | concatenation
  | repetition
  | atom
deriving DecidableEq, Repr

/-- Whether the character repeats the operand before it. -/
def isRepeat (c : Char) : Bool :=
  c = '*' || c = '+' || c = '?'

/-- The texts that are patterns. -/
inductive Derives : Level → List Char → Prop where
  | symbol {c : Char} (h : isSymbol c = true) : Derives .atom [c]
  | group {text : List Char} (h : Derives .alternation text) : Derives .atom ('(' :: text ++ [')'])
  | once {text : List Char} (h : Derives .atom text) : Derives .repetition text
  | repeated {text : List Char} {c : Char} (h : Derives .atom text) (hc : isRepeat c = true) :
    Derives .repetition (text ++ [c])
  | single {text : List Char} (h : Derives .repetition text) : Derives .concatenation text
  | juxtaposed {left right : List Char} (hleft : Derives .repetition left)
    (hright : Derives .concatenation right) : Derives .concatenation (left ++ right)
  | pointed {left right : List Char} (hleft : Derives .repetition left)
    (hright : Derives .concatenation right) : Derives .concatenation (left ++ '.' :: right)
  | only {text : List Char} (h : Derives .concatenation text) : Derives .alternation text
  | either {left right : List Char} (hleft : Derives .concatenation left)
    (hlast : ∀ c ∈ left.getLast?, isRepeat c = false) (hright : Derives .alternation right) :
    Derives .alternation (left ++ '|' :: right)

/-- The syntax trees of texts: the bar binds least, then concatenation, then the repeats. -/
inductive Parses : Level → List Char → Expr → Prop where
  | symbol {c : Char} (h : isSymbol c = true) : Parses .atom [c] (.symbol c)
  | group {text : List Char} {e : Expr} (h : Parses .alternation text e) :
    Parses .atom ('(' :: text ++ [')']) e
  | once {text : List Char} {e : Expr} (h : Parses .atom text e) : Parses .repetition text e
  | star {text : List Char} {e : Expr} (h : Parses .atom text e) :
    Parses .repetition (text ++ ['*']) (.star e)
  | plus {text : List Char} {e : Expr} (h : Parses .atom text e) :
    Parses .repetition (text ++ ['+']) (.plus e)
  | optional {text : List Char} {e : Expr} (h : Parses .atom text e) :
    Parses .repetition (text ++ ['?']) (.optional e)
  | single {text : List Char} {e : Expr} (h : Parses .repetition text e) :
    Parses .concatenation text e
  | juxtaposed {left right : List Char} {l r : Expr} (hleft : Parses .concatenation left l)
    (hright : Parses .repetition right r) : Parses .concatenation (left ++ right) (.concat l r)
  | pointed {left right : List Char} {l r : Expr} (hleft : Parses .concatenation left l)
    (hright : Parses .repetition right r) :
    Parses .concatenation (left ++ '.' :: right) (.concat l r)
  | only {text : List Char} {e : Expr} (h : Parses .concatenation text e) :
    Parses .alternation text e
  | either {left right : List Char} {l r : Expr} (hleft : Parses .alternation left l)
    (hright : Parses .concatenation right r) :
    Parses .alternation (left ++ '|' :: right) (.alternate l r)

variable {left right text : List Char} {level : Level} {e l : Expr}

/-! ### Putting a part in front -/

theorem Derives.ne_nil (h : Derives level text) : text ≠ [] := by
  induction h with
  | symbol | group | repeated | pointed | either => simp
  | once _ ih | single _ ih | only _ ih => exact ih
  | juxtaposed _ _ ihleft _ => exact fun h => ihleft (List.append_eq_nil_iff.mp h).1

theorem Derives.prepend (hleft : Derives .repetition left) (hright : Derives .alternation right) :
    Derives .alternation (left ++ right) ∧ Derives .alternation (left ++ '.' :: right) := by
  cases hright with
  | only h => exact ⟨.only (.juxtaposed hleft h), .only (.pointed hleft h)⟩
  | @either first rest hfirst hlast hrest =>
    -- the part joins the first alternative, whose last character stays
    have hne := hfirst.ne_nil
    have hjuxtaposed := Derives.either (.juxtaposed hleft hfirst)
      (by rwa [List.getLast?_append_of_ne_nil _ hne]) hrest
    have hpointed := Derives.either (.pointed hleft hfirst)
      (by rwa [List.getLast?_append_of_ne_nil _ (List.cons_ne_nil _ _),
        List.getLast?_cons_of_ne_nil hne]) hrest
    rw [List.append_assoc] at hjuxtaposed hpointed
    exact ⟨hjuxtaposed, hpointed⟩

theorem Parses.prepend (hleft : Parses .concatenation left l)
    (hright : Parses .concatenation right e) :
    (∃ e', Parses .concatenation (left ++ right) e') ∧
      ∃ e', Parses .concatenation (left ++ '.' :: right) e' := by
  generalize hlevel : Level.concatenation = level at hright
  induction hright with
  | symbol | group | once | star | plus | optional | only | either => cases hlevel
  | single h => exact ⟨⟨_, .juxtaposed hleft h⟩, _, .pointed hleft h⟩
  | juxtaposed _ hlast ih =>
    obtain ⟨⟨_, h⟩, _, h'⟩ := ih rfl
    rw [← List.append_assoc, ← List.cons_append, ← List.append_assoc]
    exact ⟨⟨_, .juxtaposed h hlast⟩, _, .juxtaposed h' hlast⟩
  | pointed _ hlast ih =>
    obtain ⟨⟨_, h⟩, _, h'⟩ := ih rfl
    rw [← List.append_assoc, ← List.cons_append, ← List.append_assoc]
    exact ⟨⟨_, .pointed h hlast⟩, _, .pointed h' hlast⟩

theorem Parses.prepend_bar (hleft : Parses .concatenation left l)
    (hright : Parses .alternation right e) :
    ∃ e', Parses .alternation (left ++ '|' :: right) e' := by
  generalize hlevel : Level.alternation = level at hright
  induction hright with
  | symbol | group | once | star | plus | optional | single | juxtaposed | pointed => cases hlevel
  | only h => exact ⟨_, .either (.only hleft) h⟩
  | either _ hlast ih =>
    obtain ⟨_, h⟩ := ih rfl
    rw [← List.cons_append, ← List.append_assoc]
    exact ⟨_, .either h hlast⟩

/-- Every text that is a pattern has a tree. -/
theorem Derives.exists_parses (h : Derives level text) : ∃ e, Parses level text e := by
  induction h with
  | symbol hc => exact ⟨_, .symbol hc⟩
  | group _ ih =>
    obtain ⟨e, he⟩ := ih
    exact ⟨e, .group he⟩
  | once _ ih =>
    obtain ⟨e, he⟩ := ih
    exact ⟨e, .once he⟩
  | @repeated text c _ hc ih =>
    obtain ⟨e, he⟩ := ih
    have hcases : c = '*' ∨ c = '+' ∨ c = '?' := by simpa [isRepeat, or_assoc] using hc
    rcases hcases with rfl | rfl | rfl
    · exact ⟨_, .star he⟩
    · exact ⟨_, .plus he⟩
    · exact ⟨_, .optional he⟩
  | single _ ih =>
    obtain ⟨e, he⟩ := ih
    exact ⟨e, .single he⟩
  | juxtaposed _ _ ihleft ihright =>
    obtain ⟨l, hl⟩ := ihleft
    obtain ⟨r, hr⟩ := ihright
    exact (Parses.prepend (.single hl) hr).1
  | pointed _ _ ihleft ihright =>
    obtain ⟨l, hl⟩ := ihleft
    obtain ⟨r, hr⟩ := ihright
    exact (Parses.prepend (.single hl) hr).2
  | only _ ih =>
    obtain ⟨e, he⟩ := ih
    exact ⟨e, .only he⟩
  | either _ _ _ ihleft ihright =>
    obtain ⟨l, hl⟩ := ihleft
    obtain ⟨r, hr⟩ := ihright
    exact Parses.prepend_bar hl hr

/-! ### How parts begin and end -/

theorem Parses.head?_eq (h : Parses level text e) :
    ∃ c, text.head? = some c ∧ beginsOperand c = true := by
  induction h with
  | symbol hc => exact ⟨_, rfl, by simp [beginsOperand, hc]⟩
  | group => exact ⟨'(', rfl, rfl⟩
  | once _ ih | single _ ih | only _ ih => exact ih
  | star _ ih | plus _ ih | optional _ ih | juxtaposed _ _ ih _ | pointed _ _ ih _
  | either _ _ ih _ =>
    obtain ⟨c, hhead, hc⟩ := ih
    exact ⟨c, by rw [List.head?_append, hhead, Option.some_or], hc⟩

theorem Parses.getLast?_eq (h : Parses level text e) :
    ∃ c, text.getLast? = some c ∧ endsOperand c = true := by
  induction h with
  | symbol hc => exact ⟨_, rfl, by simp [endsOperand, hc]⟩
  | group => exact ⟨')', List.getLast?_concat, rfl⟩
  | once _ ih | single _ ih | only _ ih => exact ih
  | star | plus | optional => exact ⟨_, List.getLast?_concat, rfl⟩
  | juxtaposed _ _ _ ih | pointed _ _ _ ih | either _ _ _ ih =>
    obtain ⟨c, hlast, hc⟩ := ih
    exact ⟨c, by simp [List.getLast?_append, List.getLast?_cons, hlast], hc⟩

end PatternAutomata
