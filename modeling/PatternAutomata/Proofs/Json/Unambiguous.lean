import PatternAutomata.Proofs.Delimiting

/-!
# Written values are unambiguous

The first character of a written value tells what kind of value it is, the marks behind an item tell
whether another one follows, and strings and numbers are delimited.  So from a text that begins with
a written value, in a layout that adds blanks only, both the value and where it ends are known; no
two values are written the same.
-/

namespace PatternAutomata.Json

variable {layout : Layout} {depth : Nat} {blanks text rest more : List Char} {c d : Char}

/-! ### Kinds -/

/-- The kinds of values. -/
inductive Kind where
  | null
  | bool (value : Bool)
  | number
  | text
  | list
  | object
deriving DecidableEq

def Value.kind : Value → Kind
  | .null => .null
  | .bool value => .bool value
  | .number _ => .number
  | .text _ => .text
  | .list _ => .list
  | .object _ => .object

/-- The kind of the values that are written with this first character. -/
def kindOf (c : Char) : Kind :=
  if c = 'n' then .null
  else if c = 't' then .bool true
  else if c = 'f' then .bool false
  else if c = '"' then .text
  else if c = '[' then .list
  else if c = '\x7b' then .object
  else .number

theorem kindOf_of_isDigit (h : c.isDigit = true) : kindOf c = .number := by
  have hne {mark : Char} (hmark : mark.isDigit = false) : c ≠ mark := by
    rintro rfl
    rw [hmark] at h
    cases h
  simp [kindOf, hne]

theorem exists_write_cons (layout : Layout) (depth : Nat) (value : Value) :
    ∃ c text, write layout depth value = c :: text ∧ kindOf c = value.kind ∧ c ≠ ']' := by
  cases value with
  | null => exact ⟨_, _, rfl, by decide, by decide⟩
  | bool value => cases value <;> exact ⟨_, _, rfl, by decide, by decide⟩
  | number n =>
    obtain ⟨c, digits, hdigits, hc⟩ := (isWhole_toDigits n).1.exists_cons
    refine ⟨c, digits, hdigits, kindOf_of_isDigit hc, ?_⟩
    rintro rfl
    cases hc
  | text s => exact ⟨_, _, rfl, rfl, by decide⟩
  | list items => cases items <;> exact ⟨_, _, rfl, rfl, by decide⟩
  | object members => cases members <;> exact ⟨_, _, rfl, rfl, by decide⟩

theorem kind_eq_of_write_append_eq {value other : Value}
    (h : write layout depth value ++ rest = write layout depth other ++ more) :
    value.kind = other.kind := by
  obtain ⟨c, text, hwrite, hkind, -⟩ := exists_write_cons layout depth value
  obtain ⟨d, text', hwrite', hkind', -⟩ := exists_write_cons layout depth other
  rw [hwrite, hwrite'] at h
  obtain ⟨rfl, -⟩ := List.cons.inj h
  rw [← hkind, hkind']

/-! ### Items and their ends -/

theorem blanks_append_cons_ne (hblanks : Blank blanks) (hd : isSpace d = false) (hne : c ≠ d) :
    blanks ++ c :: text ≠ d :: rest := by
  intro h
  cases blanks with
  | nil => exact hne (List.cons.inj h).1
  | cons b blanks =>
    have hb : isSpace b = true := hblanks b (List.mem_cons_self ..)
    rw [(List.cons.inj h).1, hd] at hb
    cases hb

/-- What comes next closes a list or an object. -/
def Closing (text : List Char) : Prop :=
  ∃ blanks c rest, Blank blanks ∧ (c = ']' ∨ c = '\x7d') ∧ text = blanks ++ c :: rest

theorem Layout.IsBlank.closing (hlayout : layout.IsBlank) (hc : c = ']' ∨ c = '\x7d') (depth : Nat)
    (rest : List Char) : Closing (layout.lineBreak depth ++ c :: rest) :=
  ⟨_, c, rest, hlayout.lineBreak depth, hc, rfl⟩

theorem Closing.ended (h : Closing text) : Ended text := by
  obtain ⟨blanks, c, rest, hblanks, hc, rfl⟩ := h
  have hended := ended_blanks_cons hblanks (.inr hc) rest []
  rwa [List.append_nil] at hended

/-- No other item comes next. -/
theorem Closing.ne_comma (h : Closing text) (rest : List Char) : text ≠ ',' :: rest := by
  obtain ⟨blanks, c, more, hblanks, hc, rfl⟩ := h
  refine blanks_append_cons_ne hblanks (by decide) ?_
  rcases hc with rfl | rfl <;> decide

theorem ended_writeItems (items : List Value) (h : Closing rest) :
    Ended (writeItems layout depth items ++ rest) := by
  cases items with
  | nil => exact h.ended
  | cons item items => exact ended_cons (.inr (.inl rfl))

theorem ended_writeMembers (members : List (String × Value)) (h : Closing rest) :
    Ended (writeMembers layout depth members ++ rest) := by
  cases members with
  | nil => exact h.ended
  | cons member members => exact ended_cons (.inr (.inl rfl))

theorem write_list_cons_append (item : Value) (items : List Value) (rest : List Char) :
    write layout depth (.list (item :: items)) ++ rest =
      '[' :: (layout.lineBreak (depth + 1) ++ (write layout (depth + 1) item ++
        (writeItems layout (depth + 1) items ++ (layout.lineBreak depth ++ ']' :: rest)))) := by
  simp only [write, List.cons_append, List.append_assoc, List.nil_append]

theorem write_object_cons_append (name : String) (value : Value) (members : List (String × Value))
    (rest : List Char) :
    write layout depth (.object ((name, value) :: members)) ++ rest =
      '\x7b' :: (layout.lineBreak (depth + 1) ++ (writeText name.toList ++ (layout.colon ++
        (write layout (depth + 1) value ++ (writeMembers layout (depth + 1) members ++
          (layout.lineBreak depth ++ '\x7d' :: rest)))))) := by
  simp only [write, List.cons_append, List.append_assoc, List.nil_append]

/-- A list with items is not written as the empty list. -/
theorem write_list_cons_ne (hlayout : layout.IsBlank) (item : Value) (items : List Value) :
    write layout depth (.list (item :: items)) ++ rest ≠ write layout depth (.list []) ++ more := by
  intro h
  rw [write_list_cons_append] at h
  obtain ⟨c, text, hwrite, -, hc⟩ := exists_write_cons layout (depth + 1) item
  rw [hwrite] at h
  exact blanks_append_cons_ne (hlayout.lineBreak _) (by decide) hc (List.cons.inj h).2

/-- An object with members is not written as the empty object. -/
theorem write_object_cons_ne (hlayout : layout.IsBlank) (name : String) (value : Value)
    (members : List (String × Value)) :
    write layout depth (.object ((name, value) :: members)) ++ rest ≠
      write layout depth (.object []) ++ more := by
  intro h
  rw [write_object_cons_append] at h
  exact blanks_append_cons_ne (hlayout.lineBreak _) (by decide) (by decide) (List.cons.inj h).2

/-! ### Values -/

mutual

theorem eq_of_write_append_eq (hlayout : layout.IsBlank) (value other : Value) {depth : Nat}
    {rest more : List Char} (hrest : Ended rest) (hmore : Ended more)
    (h : write layout depth value ++ rest = write layout depth other ++ more) :
    value = other ∧ rest = more := by
  -- the kinds agree, so only two values of the same kind are left
  have hkind := kind_eq_of_write_append_eq h
  match value, other, hkind with
  | .null, .null, _ => exact ⟨rfl, List.append_cancel_left h⟩
  | .bool true, .bool true, _ => exact ⟨rfl, List.append_cancel_left h⟩
  | .bool false, .bool false, _ => exact ⟨rfl, List.append_cancel_left h⟩
  | .number m, .number n, _ =>
    obtain ⟨rfl, htext⟩ :=
      delimited_toDigits trivial trivial hrest.not_isDigit hmore.not_isDigit h
    exact ⟨rfl, htext⟩
  | .text s, .text t, _ =>
    obtain ⟨rfl, htext⟩ := eq_of_writeText_append_eq h
    exact ⟨rfl, htext⟩
  | .list [], .list [], _ => exact ⟨rfl, List.append_cancel_left h⟩
  | .list [], .list (item :: items), _ =>
    exact absurd h.symm (write_list_cons_ne hlayout item items)
  | .list (item :: items), .list [], _ =>
    exact absurd h (write_list_cons_ne hlayout item items)
  | .list (item :: items), .list (item' :: items'), _ =>
    rw [write_list_cons_append, write_list_cons_append] at h
    have hclose := hlayout.closing (.inl rfl) depth rest
    have hclose' := hlayout.closing (.inl rfl) depth more
    obtain ⟨rfl, hitems⟩ := eq_of_write_append_eq hlayout item item' (ended_writeItems items hclose)
      (ended_writeItems items' hclose') (List.append_cancel_left (List.cons.inj h).2)
    obtain ⟨rfl, hend⟩ := eq_of_writeItems_append_eq hlayout items items' hclose hclose' hitems
    exact ⟨rfl, (List.cons.inj (List.append_cancel_left hend)).2⟩
  | .object [], .object [], _ => exact ⟨rfl, List.append_cancel_left h⟩
  | .object [], .object ((name, value) :: members), _ =>
    exact absurd h.symm (write_object_cons_ne hlayout name value members)
  | .object ((name, value) :: members), .object [], _ =>
    exact absurd h (write_object_cons_ne hlayout name value members)
  | .object ((name, value) :: members), .object ((name', value') :: members'), _ =>
    rw [write_object_cons_append, write_object_cons_append] at h
    have hclose := hlayout.closing (.inr rfl) depth rest
    have hclose' := hlayout.closing (.inr rfl) depth more
    obtain ⟨rfl, hvalue⟩ :=
      eq_of_writeText_append_eq (List.append_cancel_left (List.cons.inj h).2)
    obtain ⟨rfl, hmembers⟩ := eq_of_write_append_eq hlayout value value'
      (ended_writeMembers members hclose) (ended_writeMembers members' hclose')
      (List.append_cancel_left hvalue)
    obtain ⟨rfl, hend⟩ :=
      eq_of_writeMembers_append_eq hlayout members members' hclose hclose' hmembers
    exact ⟨rfl, (List.cons.inj (List.append_cancel_left hend)).2⟩

theorem eq_of_writeItems_append_eq (hlayout : layout.IsBlank) (items others : List Value)
    {depth : Nat} {rest more : List Char} (hrest : Closing rest) (hmore : Closing more)
    (h : writeItems layout depth items ++ rest = writeItems layout depth others ++ more) :
    items = others ∧ rest = more := by
  match items, others with
  | [], [] => exact ⟨rfl, h⟩
  | [], item :: others => exact absurd h (hrest.ne_comma _)
  | item :: items, [] => exact absurd h.symm (hmore.ne_comma _)
  | item :: items, other :: others =>
    simp only [writeItems, List.cons_append, List.append_assoc] at h
    obtain ⟨rfl, hitems⟩ := eq_of_write_append_eq hlayout item other (ended_writeItems items hrest)
      (ended_writeItems others hmore) (List.append_cancel_left (List.cons.inj h).2)
    obtain ⟨rfl, hend⟩ := eq_of_writeItems_append_eq hlayout items others hrest hmore hitems
    exact ⟨rfl, hend⟩

theorem eq_of_writeMembers_append_eq (hlayout : layout.IsBlank)
    (members others : List (String × Value)) {depth : Nat} {rest more : List Char}
    (hrest : Closing rest) (hmore : Closing more)
    (h : writeMembers layout depth members ++ rest = writeMembers layout depth others ++ more) :
    members = others ∧ rest = more := by
  match members, others with
  | [], [] => exact ⟨rfl, h⟩
  | [], (name, value) :: others => exact absurd h (hrest.ne_comma _)
  | (name, value) :: members, [] => exact absurd h.symm (hmore.ne_comma _)
  | (name, value) :: members, (name', value') :: others =>
    simp only [writeMembers, List.cons_append, List.append_assoc] at h
    obtain ⟨rfl, hvalue⟩ :=
      eq_of_writeText_append_eq (List.append_cancel_left (List.cons.inj h).2)
    obtain ⟨rfl, hmembers⟩ := eq_of_write_append_eq hlayout value value'
      (ended_writeMembers members hrest) (ended_writeMembers others hmore)
      (List.append_cancel_left hvalue)
    obtain ⟨rfl, hend⟩ := eq_of_writeMembers_append_eq hlayout members others hrest hmore hmembers
    exact ⟨rfl, hend⟩

end

/-- No two values are written the same. -/
theorem Layout.IsBlank.render_injective (hlayout : layout.IsBlank) :
    Function.Injective (Value.render · layout) := by
  intro value other h
  have hwrite : write layout 0 value ++ [] = write layout 0 other ++ [] :=
    congrArg (· ++ []) (String.ofList_injective h)
  have hended : Ended [] := fun c hc => by cases hc
  exact (eq_of_write_append_eq hlayout value other hended hended hwrite).1

end PatternAutomata.Json
