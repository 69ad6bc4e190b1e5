import Mathlib.Data.List.Perm.Basic
import PatternAutomata.Proofs.Pattern.Operands

/-!
# Where the tokens of a postfix come from

The conversion makes no token of its own and drops none, whatever text it reads.  A symbol passes at
once.  An operator goes onto the stack, and every loop of the conversion takes operators off the top
of the stack and passes them in this order.  So beside the stack one can keep the places of the text
that its operators came from, and give with each token the place it came from.  An operator never
passes before it was read, so it stands behind every symbol that comes before it in the text.
-/

namespace PatternAutomata

variable {stack : List Pending} {text rest : List Char} {waiting : List Nat} {place : Nat}
  {c : Char} {tokens : Postfix}

/-! ### One character -/

namespace Pending

theorem closeGroup_append_operators (stack : List Pending) :
    (closeGroup stack).1 ++ operators (closeGroup stack).2 = operators stack := by
  rw [← operators_append]
  rcases closeGroup_split stack with hsplit | ⟨hsplit, hleft⟩
  · conv_rhs => rw [← hsplit, operators_append]
    exact operators_append _ _
  · rw [hleft, List.append_nil, hsplit]

theorem popUnary_append_operators (stack : List Pending) :
    (popUnary stack).1 ++ operators (popUnary stack).2 = operators stack := by
  rw [← operators_append, popUnary_split]

theorem popStronger_append_operators (incoming : Token) (stack : List Pending) :
    (popStronger incoming stack).1 ++ operators (popStronger incoming stack).2 =
      operators stack := by
  rw [← operators_append, popStronger_split]

end Pending

open Pending

/-- A character that is no symbol lets operators pass from the top of the stack.  If it is an operator
itself, it comes to wait on top of those that are kept. -/
theorem exists_kept (stack : List Pending) (hc : isSymbol c = false) :
    ∃ kept, operators stack = (readPending stack c).1 ++ kept ∧
      operators (readPending stack c).2 = (Token.operator? c).toList ++ kept := by
  by_cases hopen : c = '('
  · obtain rfl := hopen
    exact ⟨operators stack, rfl, rfl⟩
  by_cases hclose : c = ')'
  · obtain rfl := hclose
    refine ⟨operators (popUnary (closeGroup stack).2).2, ?_, rfl⟩
    calc
      operators stack = (closeGroup stack).1 ++ operators (closeGroup stack).2 :=
        (closeGroup_append_operators stack).symm
      _ = (closeGroup stack).1 ++ ((popUnary (closeGroup stack).2).1 ++
            operators (popUnary (closeGroup stack).2).2) := by rw [popUnary_append_operators]
      _ = (readPending stack ')').1 ++ operators (popUnary (closeGroup stack).2).2 :=
        (List.append_assoc ..).symm
  · cases hop : Token.operator? c with
    | none =>
      rw [readPending_skipped hc hopen hclose hop]
      exact ⟨operators stack, rfl, rfl⟩
    | some op =>
      rw [readPending_operator hop]
      exact ⟨operators (popStronger op stack).2, (popStronger_append_operators op stack).symm, rfl⟩

/-! ### Symbols and operators -/

theorem Token.symbol?_of_operator? {op : Token} (h : operator? c = some op) :
    op.symbol? = none ∧ op.char = c := by
  unfold operator? at h
  repeat' split at h
  all_goals cases h
  all_goals exact ⟨rfl, by simp_all [char]⟩

namespace Postfix

/-- The operators of a postfix, as the characters that write them. -/
def operatorSigns (tokens : Postfix) : List Char :=
  (tokens.filter (·.symbol?.isNone)).map Token.char

theorem symbols_eq_nil (h : ∀ op ∈ tokens, op.symbol? = none) : tokens.symbols = [] :=
  List.filterMap_eq_nil_iff.mpr h

end Postfix

/-- Symbols pass in the order of the text. -/
theorem symbols_postfixFrom (hstack : ∀ op ∈ operators stack, op.symbol? = none) :
    (postfixFrom stack text).symbols = text.filter isSymbol := by
  induction text generalizing stack with
  | nil => exact Postfix.symbols_eq_nil hstack
  | cons c rest ih =>
    by_cases hc : isSymbol c = true
    · rw [postfixFrom, readPending_of_isSymbol hc, List.filter_cons_of_pos hc, ← ih hstack]
      rfl
    · obtain ⟨kept, hkept, hleft⟩ := exists_kept stack (Bool.eq_false_iff.mpr hc)
      rw [hkept] at hstack
      have hpassed : ∀ op ∈ (readPending stack c).1, op.symbol? = none :=
        fun op hop => hstack op (List.mem_append_left kept hop)
      have hnext : ∀ op ∈ operators (readPending stack c).2, op.symbol? = none := by
        intro op hop
        rw [hleft, List.mem_append, Option.mem_toList] at hop
        rcases hop with hop | hop
        · exact (Token.symbol?_of_operator? hop).1
        · exact hstack op (List.mem_append_right _ hop)
      rw [postfixFrom, Postfix.symbols_append, Postfix.symbols_eq_nil hpassed, ih hnext,
        List.filter_cons_of_neg hc]
      rfl

/-- What passes, what is kept and what is new, in any order. -/
theorem perm_passed_append {α : Type} {kept new more all : List α} (passed : List α)
    (h : all.Perm (new ++ kept ++ more)) :
    (passed ++ all).Perm (passed ++ kept ++ (new ++ more)) := by
  calc
    List.Perm (passed ++ all) (passed ++ (new ++ kept ++ more)) := h.append_left passed
    List.Perm _ (passed ++ (kept ++ new ++ more)) :=
      (List.perm_append_comm.append_right more).append_left passed
    _ = passed ++ kept ++ (new ++ more) := by simp only [List.append_assoc]

theorem filterMap_ofChar?_cons (hc : isSymbol c = false) :
    (c :: rest).filterMap Token.ofChar? =
      (Token.operator? c).toList ++ rest.filterMap Token.ofChar? := by
  have hoperator : Token.ofChar? c = Token.operator? c := if_neg (Bool.eq_false_iff.mp hc)
  rw [List.filterMap_cons, hoperator]
  cases Token.operator? c <;> rfl

/-- The tokens that pass are those that wait and those that the text adds. -/
theorem postfixFrom_perm (stack : List Pending) (text : List Char) :
    (postfixFrom stack text).Perm (operators stack ++ text.filterMap Token.ofChar?) := by
  induction text generalizing stack with
  | nil => simp [postfixFrom]
  | cons c rest ih =>
    by_cases hc : isSymbol c = true
    · have hchar : Token.ofChar? c = some (.symbol c) := if_pos hc
      rw [postfixFrom, readPending_of_isSymbol hc, List.filterMap_cons_some hchar]
      exact ((ih stack).cons _).trans List.perm_middle.symm
    · rw [Bool.not_eq_true] at hc
      obtain ⟨kept, hkept, hleft⟩ := exists_kept stack hc
      have hrest := ih (readPending stack c).2
      rw [hleft] at hrest
      rw [postfixFrom, hkept, filterMap_ofChar?_cons hc]
      exact perm_passed_append _ hrest

theorem operatorSigns_filterMap (text : List Char) :
    Postfix.operatorSigns (text.filterMap Token.ofChar?) = text.filter isOperator := by
  induction text with
  | nil => rfl
  | cons c rest ih =>
    by_cases hc : isSymbol c = true
    · have hchar : Token.ofChar? c = some (.symbol c) := if_pos hc
      have hoperator : ¬ isOperator c = true := by
        rw [isOperator_of_isSymbol hc]
        exact Bool.false_ne_true
      rw [List.filterMap_cons_some hchar, List.filter_cons_of_neg hoperator, ← ih]
      rfl
    · rw [Bool.not_eq_true] at hc
      rw [filterMap_ofChar?_cons hc]
      cases hop : Token.operator? c with
      | none =>
        have hoperator : ¬ isOperator c = true := by
          rw [← Token.operator?_isSome, hop]
          exact Bool.false_ne_true
        rw [List.filter_cons_of_neg hoperator, ← ih]
        rfl
      | some op =>
        have hoperator : isOperator c = true := by
          rw [← Token.operator?_isSome, hop]
          rfl
        obtain ⟨hsymbol, hchar⟩ := Token.symbol?_of_operator? hop
        rw [List.filter_cons_of_pos hoperator, ← ih]
        simp [Postfix.operatorSigns, hsymbol, hchar]

/-! ### Places -/

/-- The token that the character at a place of a text stands for. -/
def tokenAt (text : List Char) (place : Nat) : Option Token :=
  text[place]?.bind Token.ofChar?

/-- Whether a symbol stands at a place of a text. -/
def symbolAt (text : List Char) (place : Nat) : Bool :=
  text[place]?.any isSymbol

/-- The places that the tokens still to come are from, when the characters from `place` on are still
to be read.  The operators of the stack are from the places `waiting`, from the top. -/
def originsFrom (stack : List Pending) (waiting : List Nat) (place : Nat) : List Char → List Nat
  | [] => waiting
  | c :: rest =>
    let (passed, left) := readPending stack c
    if isSymbol c then place :: originsFrom left waiting (place + 1) rest
    else
      let waiting' := (if isOperator c then [place] else []) ++ waiting.drop passed.length
      waiting.take passed.length ++ originsFrom left waiting' (place + 1) rest

/-- The places of a text that the tokens of its postfix are from. -/
def origins (text : List Char) : List Nat :=
  originsFrom [] [] 0 text

/-- The places say where the tokens come from: one token from every place that has one, each behind
every symbol that comes before its place in the text. -/
structure ComesFrom (text : List Char) (places : List Nat) (tokens : Postfix) : Prop where
  tokens_eq : places.map (tokenAt text) = tokens.map some
  perm : places.Perm ((List.range text.length).filter fun place => (tokenAt text place).isSome)
  ordered : ∀ i j symbol later : Nat, places[i]? = some symbol → places[j]? = some later →
    symbolAt text symbol = true → symbol < later → i < j

theorem originsFrom_of_isSymbol (hc : isSymbol c = true) :
    originsFrom stack waiting place (c :: rest) =
      place :: originsFrom stack waiting (place + 1) rest := by
  simp [originsFrom, readPending_of_isSymbol hc, hc]

theorem originsFrom_of_not_isSymbol (hc : isSymbol c = false) :
    originsFrom stack waiting place (c :: rest) =
      waiting.take (readPending stack c).1.length ++
        originsFrom (readPending stack c).2
          ((if isOperator c then [place] else []) ++ waiting.drop (readPending stack c).1.length)
          (place + 1) rest := by
  simp [originsFrom, hc]

/-! ### Along the text

`text.drop place = rest` says that the characters of the text from `place` on are `rest`. -/

theorem getElem?_of_drop_eq (hrest : text.drop place = c :: rest) : text[place]? = some c := by
  rw [← List.head?_drop, hrest, List.head?_cons]

theorem drop_next (hrest : text.drop place = c :: rest) : text.drop (place + 1) = rest := by
  rw [← List.tail_drop, hrest, List.tail_cons]

theorem tokenAt_eq (hrest : text.drop place = c :: rest) : tokenAt text place = Token.ofChar? c := by
  rw [tokenAt, getElem?_of_drop_eq hrest, Option.bind_some]

theorem symbolAt_eq (hrest : text.drop place = c :: rest) : symbolAt text place = isSymbol c := by
  rw [symbolAt, getElem?_of_drop_eq hrest, Option.any_some]

theorem tokenAt_of_not_isSymbol (hrest : text.drop place = c :: rest) (hc : isSymbol c = false) :
    tokenAt text place = Token.operator? c := by
  rw [tokenAt_eq hrest]
  exact if_neg (Bool.eq_false_iff.mp hc)

theorem mem_new_iff {other : Nat} :
    other ∈ (if isOperator c then [place] else []) ↔ isOperator c = true ∧ other = place := by
  cases isOperator c <;> simp

theorem map_tokenAt_new (hrest : text.drop place = c :: rest) (hc : isSymbol c = false) :
    (if isOperator c then [place] else []).map (tokenAt text) =
      (Token.operator? c).toList.map some := by
  have htoken := tokenAt_of_not_isSymbol hrest hc
  rw [← Token.operator?_isSome]
  cases hop : Token.operator? c with
  | none => rfl
  | some op =>
    rw [hop] at htoken
    simp [htoken]

/-- The places are those of the operators that wait before a place of the text. -/
structure Tracks (text : List Char) (place : Nat) (stack : List Pending) (waiting : List Nat) :
    Prop where
  tokens_eq : waiting.map (tokenAt text) = (operators stack).map some
  earlier : ∀ other ∈ waiting, other < place
  no_symbol : ∀ other ∈ waiting, symbolAt text other = false

namespace Tracks

theorem next (h : Tracks text place stack waiting) : Tracks text (place + 1) stack waiting :=
  ⟨h.tokens_eq, fun other hother => Nat.lt_succ_of_lt (h.earlier other hother), h.no_symbol⟩

/-- A character that is no symbol: the places of what passes, and the places that then wait. -/
theorem read (h : Tracks text place stack waiting) (hrest : text.drop place = c :: rest)
    (hc : isSymbol c = false) :
    (waiting.take (readPending stack c).1.length).map (tokenAt text) =
        (readPending stack c).1.map some ∧
      Tracks text (place + 1) (readPending stack c).2
        ((if isOperator c then [place] else []) ++
          waiting.drop (readPending stack c).1.length) := by
  obtain ⟨kept, hkept, hleft⟩ := exists_kept stack hc
  have htokens := h.tokens_eq
  have hlength : ((readPending stack c).1.map some).length = (readPending stack c).1.length :=
    List.length_map some
  rw [hkept, List.map_append] at htokens
  refine ⟨?_, ?_, ?_, ?_⟩
  · rw [List.map_take, htokens, List.take_left' hlength]
  · rw [List.map_append, List.map_drop, htokens, List.drop_left' hlength,
      map_tokenAt_new hrest hc, hleft, List.map_append]
  · intro other hother
    rcases List.mem_append.mp hother with hnew | hold
    · obtain ⟨-, rfl⟩ := mem_new_iff.mp hnew
      exact Nat.lt_succ_self other
    · exact Nat.lt_succ_of_lt (h.earlier other (List.mem_of_mem_drop hold))
  · intro other hother
    rcases List.mem_append.mp hother with hnew | hold
    · obtain ⟨-, rfl⟩ := mem_new_iff.mp hnew
      rw [symbolAt_eq hrest, hc]
    · exact h.no_symbol other (List.mem_of_mem_drop hold)

theorem map_originsFrom (h : Tracks text place stack waiting) (hrest : text.drop place = rest) :
    (originsFrom stack waiting place rest).map (tokenAt text) =
      (postfixFrom stack rest).map some := by
  induction rest generalizing place stack waiting with
  | nil => exact h.tokens_eq
  | cons c rest ih =>
    by_cases hc : isSymbol c = true
    · have htoken : tokenAt text place = some (.symbol c) :=
        (tokenAt_eq hrest).trans (if_pos hc)
      rw [originsFrom_of_isSymbol hc, List.map_cons, ih h.next (drop_next hrest), htoken,
        postfixFrom, readPending_of_isSymbol hc]
      rfl
    · rw [Bool.not_eq_true] at hc
      obtain ⟨hpassed, hnext⟩ := h.read hrest hc
      rw [originsFrom_of_not_isSymbol hc, List.map_append, hpassed, ih hnext (drop_next hrest),
        postfixFrom, List.map_append]

/-- Every place that waits is given, and every place of a token to come. -/
theorem originsFrom_perm (h : Tracks text place stack waiting) (hrest : text.drop place = rest) :
    (originsFrom stack waiting place rest).Perm
      (waiting ++ (List.range' place rest.length).filter fun other =>
        (tokenAt text other).isSome) := by
  induction rest generalizing place stack waiting with
  | nil => simp [originsFrom]
  | cons c rest ih =>
    rw [List.length_cons, List.range'_succ, List.filter_cons]
    by_cases hc : isSymbol c = true
    · have htoken : tokenAt text place = some (.symbol c) :=
        (tokenAt_eq hrest).trans (if_pos hc)
      rw [originsFrom_of_isSymbol hc, htoken]
      exact ((ih h.next (drop_next hrest)).cons place).trans List.perm_middle.symm
    · rw [Bool.not_eq_true] at hc
      obtain ⟨-, hnext⟩ := h.read hrest hc
      have hperm := perm_passed_append (waiting.take (readPending stack c).1.length)
        (ih hnext (drop_next hrest))
      rw [List.take_append_drop] at hperm
      rw [originsFrom_of_not_isSymbol hc, tokenAt_of_not_isSymbol hrest hc, Token.operator?_isSome]
      cases hop : isOperator c
      · rw [hop] at hperm
        exact hperm
      · rw [hop] at hperm
        exact hperm

/-- Only symbols that are still to be read are still to come. -/
theorem le_of_mem_originsFrom (h : Tracks text place stack waiting) (hrest : text.drop place = rest)
    {symbol : Nat} (hmem : symbol ∈ originsFrom stack waiting place rest)
    (hsymbol : symbolAt text symbol = true) : place ≤ symbol := by
  rw [(h.originsFrom_perm hrest).mem_iff, List.mem_append] at hmem
  rcases hmem with hwaiting | hread
  · rw [h.no_symbol symbol hwaiting] at hsymbol
    cases hsymbol
  · exact (List.mem_range'_1.mp (List.mem_of_mem_filter hread)).1

theorem pairwise_waiting (h : Tracks text place stack waiting) :
    waiting.Pairwise fun first second => symbolAt text second = true → first < second := by
  apply List.pairwise_of_forall_mem_list
  intro first _ second hsecond hsymbol
  rw [h.no_symbol second hsecond] at hsymbol
  cases hsymbol

/-- Of two places, the second has no symbol unless it comes later in the text. -/
theorem pairwise_originsFrom (h : Tracks text place stack waiting) (hrest : text.drop place = rest) :
    (originsFrom stack waiting place rest).Pairwise fun first second =>
      symbolAt text second = true → first < second := by
  induction rest generalizing place stack waiting with
  | nil => exact h.pairwise_waiting
  | cons c rest ih =>
    by_cases hc : isSymbol c = true
    · rw [originsFrom_of_isSymbol hc, List.pairwise_cons]
      refine ⟨?_, ih h.next (drop_next hrest)⟩
      intro second hsecond hsymbol
      exact h.next.le_of_mem_originsFrom (drop_next hrest) hsecond hsymbol
    · rw [Bool.not_eq_true] at hc
      obtain ⟨-, hnext⟩ := h.read hrest hc
      rw [originsFrom_of_not_isSymbol hc, List.pairwise_append]
      refine ⟨h.pairwise_waiting.sublist (List.take_sublist _ _), ih hnext (drop_next hrest), ?_⟩
      -- what passes now was read before, and a symbol that passes later is still to be read
      intro first hfirst second hsecond hsymbol
      have hbefore : first < place := h.earlier first (List.mem_of_mem_take hfirst)
      have hafter : place + 1 ≤ second :=
        hnext.le_of_mem_originsFrom (drop_next hrest) hsecond hsymbol
      exact Nat.lt_trans hbefore hafter

end Tracks

theorem tracks_start (text : List Char) : Tracks text 0 [] [] :=
  ⟨rfl, nofun, nofun⟩

theorem origins_perm (text : List Char) :
    (origins text).Perm
      ((List.range text.length).filter fun place => (tokenAt text place).isSome) := by
  rw [List.range_eq_range']
  exact (tracks_start text).originsFrom_perm List.drop_zero

theorem comesFrom_origins (text : List Char) : ComesFrom text (origins text) (toPostfix text) := by
  have hpairs := (tracks_start text).pairwise_originsFrom List.drop_zero
  refine ⟨(tracks_start text).map_originsFrom List.drop_zero, origins_perm text, ?_⟩
  intro i j symbol later hplace hplace' hsymbol hlater
  obtain ⟨hi, rfl⟩ := List.getElem?_eq_some_iff.mp hplace
  obtain ⟨hj, rfl⟩ := List.getElem?_eq_some_iff.mp hplace'
  by_contra hle
  rcases Nat.lt_or_eq_of_le (Nat.le_of_not_lt hle) with hlt | rfl
  · have hback := List.pairwise_iff_getElem.mp hpairs j i hj hi hlt hsymbol
    exact Nat.lt_asymm hlater hback
  · exact Nat.lt_irrefl _ hlater

/-- **The conversion keeps the tokens.**  From any text, also one that is no pattern, the postfix has
the symbols of the text in their order and the operators of the text in some order.  Each token comes
from a place of its own in the text, and it stands behind every symbol that comes before its
place. -/
theorem toPostfix_keeps_tokens (text : List Char) :
    (toPostfix text).symbols = text.filter isSymbol ∧
      (toPostfix text).operatorSigns.Perm (text.filter isOperator) ∧
      ComesFrom text (origins text) (toPostfix text) := by
  refine ⟨symbols_postfixFrom nofun, ?_, comesFrom_origins text⟩
  have hperm : (toPostfix text).Perm (text.filterMap Token.ofChar?) := postfixFrom_perm [] text
  rw [← operatorSigns_filterMap]
  exact (hperm.filter _).map _

/-- A stray parenthesis on either side, and a group that is never closed. -/
example : origins "a|)b+(c*.".toList = [0, 1, 3, 6, 7, 8, 4] ∧
    (toPostfix "a|)b+(c*.".toList).map Token.char = "a|bc*.+".toList := by decide

end PatternAutomata
