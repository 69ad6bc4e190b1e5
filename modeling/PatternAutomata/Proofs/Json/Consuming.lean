import PatternAutomata.Proofs.Json.Skipping

/-!
# What readers take

A reader that succeeds takes one value and leaves the text that follows it, whatever shape it
expects.  The readers of items and of members keep this: if each item, or each member, is taken in
full, so is the bracket around them.
-/

namespace PatternAutomata.Json

variable {α σ : Type} {text rest left : List Char} {first : Bool} {reader : Reader α} {value : α}

/-- If the reader succeeds, the text that it leaves follows a value. -/
def Consumes (reader : Reader α) : Prop :=
  ∀ text value rest, reader text = .ok (value, rest) → Passes text rest

/-! ### Single values -/

theorem skipSpace_skipSpace (text : List Char) : skipSpace (skipSpace text) = skipSpace text := by
  cases h : skipSpace text with
  | nil => rfl
  | cons c rest =>
    refine skipSpace_cons ?_
    have hhead := List.head?_dropWhile_not isSpace text
    rw [show text.dropWhile isSpace = c :: rest from h] at hhead
    simpa using hhead

theorem Passes.of_skipSpace (h : Passes (skipSpace text) rest) : Passes text rest := by
  intro outer final hrest
  cases h outer final hrest with
  | scalar hscalar hnext => exact .scalar (skipSpace_skipSpace text ▸ hscalar) hnext
  | openList hstart hnext => exact .openList (skipSpace_skipSpace text ▸ hstart) hnext
  | openObject hstart hnext => exact .openObject (skipSpace_skipSpace text ▸ hstart) hnext

theorem exists_of_prepend {c : Char} {read : Except ReadError (List Char × List Char)}
    {chars : List Char} (h : prepend c read = .ok (chars, rest)) :
    ∃ more, read = .ok (more, rest) := by
  cases read with
  | error error => cases h
  | ok result =>
    cases h
    exact ⟨result.1, rfl⟩

/-- A string that is read is skipped up to the same mark. -/
theorem skipChars_of_readChars {chars : List Char} (h : readChars text = .ok (chars, rest)) :
    skipChars text = .ok rest := by
  fun_induction readChars text generalizing chars with
  | case2 =>
    cases h
    simp [skipChars]
  | case6 _ _ _ _ _ hhigh _ _ _ _ _ _ _ _ hlow _ ih =>
    obtain ⟨more, hmore⟩ := exists_of_prepend h
    simp [skipChars, hhigh, hlow, ih hmore]
  | case13 _ _ _ _ _ _ hunit _ _ ih =>
    obtain ⟨more, hmore⟩ := exists_of_prepend h
    simp [skipChars, hunit, ih hmore]
  | case15 _ _ _ _ _ hshort ih =>
    obtain ⟨more, hmore⟩ := exists_of_prepend h
    simp [skipChars, hshort, ih hmore]
  | case19 _ _ _ _ _ _ _ hcontrol ih =>
    obtain ⟨more, hmore⟩ := exists_of_prepend h
    rw [skipChars, if_neg hcontrol]
    · exact ih hmore
    all_goals assumption
  | _ => cases h

theorem unexpected_ne_ok {expected : String} : unexpected expected text ≠ .ok value := by
  intro h
  unfold unexpected at h
  split at h
  · cases h
  · obtain ⟨left, -, h⟩ := bind_eq_ok_iff.mp h
    cases h
  · obtain ⟨left, -, h⟩ := bind_eq_ok_iff.mp h
    cases h
  · obtain ⟨left, -, h⟩ := bind_eq_ok_iff.mp h
    cases h
  · obtain ⟨left, -, h⟩ := bind_eq_ok_iff.mp h
    cases h
  · cases h
  · cases h
  · split at h
    · obtain ⟨left, -, h⟩ := bind_eq_ok_iff.mp h
      cases h
    · cases h

theorem passes_string (h : skipSpace text = '"' :: left) (hchars : skipChars left = .ok rest) :
    Passes text rest :=
  passes_scalar (by rw [h, skipScalar, hchars])

theorem consumes_text : Consumes readText := by
  intro text value rest h
  unfold readText at h
  split at h
  · next hquote =>
    obtain ⟨⟨chars, left⟩, hchars, h⟩ := bind_eq_ok_iff.mp h
    cases h
    exact passes_string hquote (skipChars_of_readChars hchars)
  · exact absurd h unexpected_ne_ok

theorem passes_number {number : Number} {c : Char} {more : List Char}
    (hstart : skipSpace text = c :: more) (hc : (c = '-' || c.isDigit) = true)
    (h : readNumber (c :: more) = .ok (number, rest)) : Passes text rest := by
  obtain ⟨⟨parts, left⟩, hparts, h⟩ := bind_eq_ok_iff.mp h
  dsimp only at h
  split at h
  · cases h
    refine passes_scalar ?_
    rw [hstart]
    exact skipScalar_number hparts ⟨c, more, rfl, by simpa using hc⟩
  · cases h

theorem consumes_word32 : Consumes readWord32 := by
  intro text value rest h
  unfold readWord32 at h
  dsimp only at h
  split at h
  · cases h
  · next c more hstart =>
    split at h
    · next hc =>
      obtain ⟨⟨number, left⟩, hnumber, h⟩ := bind_eq_ok_iff.mp h
      have hleft : left = rest := by
        dsimp only at h
        split at h
        · split at h
          · cases h
            rfl
          · cases h
        · cases h
        · cases h
      rw [hstart, hleft] at hnumber
      exact passes_number hstart hc hnumber
    · exact absurd h unexpected_ne_ok

theorem passes_null {more : List Char} (h : skipSpace text = 'n' :: more)
    (hword : readWord ['u', 'l', 'l'] more = .ok rest) : Passes text rest :=
  passes_scalar (by rw [h, skipScalar, hword])

theorem Consumes.optional (h : Consumes reader) : Consumes (readOptional reader) := by
  intro text value rest hread
  unfold readOptional at hread
  split at hread
  · next hnull =>
    obtain ⟨left, hword, hread⟩ := bind_eq_ok_iff.mp hread
    cases hread
    exact passes_null hnull hword
  · obtain ⟨⟨value, left⟩, hvalue, hread⟩ := bind_eq_ok_iff.mp hread
    cases hread
    exact (h _ _ _ hvalue).of_skipSpace

theorem skipChars_of_readChoiceName {choice : Choice α}
    (h : readChoiceName choice text = .ok (value, rest)) : skipChars text = .ok rest := by
  obtain ⟨⟨chars, left⟩, hchars, h⟩ := bind_eq_ok_iff.mp h
  have hleft : left = rest := by
    dsimp only at h
    split at h
    · cases h
      rfl
    · split at h
      · cases h
        rfl
      · cases h
  rw [hleft] at hchars
  exact skipChars_of_readChars hchars

theorem consumes_nothing : Consumes readNothing := by
  intro text value rest h
  unfold readNothing at h
  split at h
  · next hnull =>
    obtain ⟨left, hword, h⟩ := bind_eq_ok_iff.mp h
    cases h
    exact passes_null hnull hword
  · exact absurd h unexpected_ne_ok

theorem consumes_choice (choice : Choice α) : Consumes (readChoice choice) := by
  intro text value rest h
  unfold readChoice at h
  split at h
  · cases h
  · next hquote => exact passes_string hquote (skipChars_of_readChoiceName h)
  · next inner hobject =>
    split at h
    · cases h
    · next quoted hquote =>
      obtain ⟨⟨chosen, afterName⟩, hname, h⟩ := bind_eq_ok_iff.mp h
      obtain ⟨afterColon, hcolon, h⟩ := bind_eq_ok_iff.mp h
      obtain ⟨⟨nothing, afterNull⟩, hnull, h⟩ := bind_eq_ok_iff.mp h
      dsimp only at hcolon hnull h
      have hskipped : skipName ('"' :: quoted) = .ok afterColon := by
        rw [skipName, skipSpace_cons (by decide)]
        simp only [skipChars_of_readChoiceName hname, ok_bind, hcolon]
      split at h
      · next hclose =>
        cases h
        have hmember := inside_firstMember hquote hskipped (consumes_nothing _ _ _ hnull)
        exact passes_object hobject (hmember.leaves (leaves_close hclose))
      · cases h
      · cases h
    · cases h
  · cases h

/-! ### Items -/

/-- The end of a list is left for its reader to take. -/
theorem leaves_of_nextItem (h : nextItem first text = .ok (false, rest)) :
    ∃ left, rest = ']' :: left ∧ Leaves .list first text left := by
  unfold nextItem at h
  split at h
  · cases h
  · next hclose =>
    cases h
    exact ⟨_, rfl, leaves_close hclose⟩
  · split at h
    · cases h
    · split at h
      · split at h <;> cases h
      · cases h

theorem inside_of_nextItem (h : nextItem first text = .ok (true, left)) (hitem : Passes left rest) :
    Inside .list first text rest := by
  unfold nextItem at h
  split at h
  · cases h
  · cases h
  · next c more hclose hstart =>
    split at h
    · next hfirst =>
      cases h
      subst hfirst
      refine inside_firstItem hstart ?_ hitem
      rintro rfl
      exact hclose rfl
    · next hfirst =>
      obtain rfl : first = false := Bool.eq_false_iff.mpr hfirst
      split at h
      · next hcomma =>
        subst hcomma
        split at h
        · cases h
        · cases h
        · cases h
          exact inside_nextItem hstart hitem.of_skipSpace
      · cases h

theorem Consumes.items (h : Consumes reader) {fuel : Nat} {items : List α}
    (hread : readItems reader fuel first text = .ok (items, rest)) :
    Leaves .list first text rest := by
  induction fuel generalizing first text items with
  | zero => cases hread
  | succ fuel ih =>
    obtain ⟨⟨more, left⟩, hnext, hread⟩ := bind_eq_ok_iff.mp hread
    cases more with
    | false =>
      cases hread
      obtain ⟨inner, rfl, hleaves⟩ := leaves_of_nextItem hnext
      exact hleaves
    | true =>
      obtain ⟨⟨item, between⟩, hitem, hread⟩ := bind_eq_ok_iff.mp hread
      obtain ⟨⟨others, last⟩, hothers, hread⟩ := bind_eq_ok_iff.mp hread
      cases hread
      exact (inside_of_nextItem hnext (h _ _ _ hitem)).leaves (ih hothers)

theorem Consumes.list (h : Consumes reader) : Consumes (readList reader) := by
  intro text items rest hread
  unfold readList at hread
  split at hread
  · next hstart => exact passes_list hstart (h.items hread)
  · exact absurd hread unexpected_ne_ok

/-- A field that is read is an item. -/
theorem Consumes.field (h : Consumes reader)
    (hread : readField? first reader text = .ok (some value, rest)) :
    Inside .list first text rest := by
  obtain ⟨⟨more, left⟩, hnext, hread⟩ := bind_eq_ok_iff.mp hread
  cases more with
  | false => cases hread
  | true =>
    obtain ⟨⟨item, between⟩, hitem, hread⟩ := bind_eq_ok_iff.mp hread
    cases hread
    exact inside_of_nextItem hnext (h _ _ _ hitem)

theorem leaves_of_endList (h : endList text = .ok rest) : Leaves .list false text rest := by
  unfold endList at h
  split at h
  · next hclose =>
    cases h
    exact leaves_close hclose
  · cases h
  · split at h <;> cases h
  · cases h

/-! ### Members -/

theorem leaves_of_nextMember (h : nextMember first text = .ok (false, rest)) :
    ∃ left, rest = '\x7d' :: left ∧ Leaves .object first text left := by
  unfold nextMember at h
  split at h
  · cases h
  · next hclose =>
    cases h
    exact ⟨_, rfl, leaves_close hclose⟩
  · split at h
    · split at h <;> cases h
    · split at h
      · split at h <;> cases h
      · cases h

theorem inside_of_nextMember {chars afterName afterColon : List Char}
    (h : nextMember first text = .ok (true, left)) (hname : readChars left = .ok (chars, afterName))
    (hcolon : readColon afterName = .ok afterColon) (hvalue : Passes afterColon rest) :
    Inside .object first text rest := by
  have hskipped : ∀ {name}, skipSpace name = '"' :: left → skipName name = .ok afterColon := by
    intro name hstart
    rw [skipName, hstart]
    simp only [skipChars_of_readChars hname, ok_bind, hcolon]
  unfold nextMember at h
  split at h
  · cases h
  · cases h
  · next c more hclose hstart =>
    split at h
    · next hfirst =>
      subst hfirst
      split at h
      · next hquote =>
        subst hquote
        cases h
        exact inside_firstMember hstart (hskipped (skipSpace_cons (by decide))) hvalue
      · cases h
    · next hfirst =>
      obtain rfl : first = false := Bool.eq_false_iff.mpr hfirst
      split at h
      · next hcomma =>
        subst hcomma
        split at h
        · cases h
        · next hquote =>
          cases h
          exact inside_nextMember hstart (hskipped hquote) hvalue
        · cases h
        · cases h
      · cases h

/-- The reader of a member takes the colon and a value. -/
def ConsumesMember (reader : Reader σ) : Prop :=
  ∀ text state rest, reader text = .ok (state, rest) →
    ∃ value, readColon text = .ok value ∧ Passes value rest

theorem consumesMember_skip (state : σ) : ConsumesMember (skipMember state) := by
  intro text next rest h
  obtain ⟨value, hcolon, h⟩ := bind_eq_ok_iff.mp h
  obtain ⟨left, hvalue, h⟩ := bind_eq_ok_iff.mp h
  cases h
  exact ⟨value, hcolon, passes_of_skipValue hvalue⟩

/-- The end of an object is left for its reader to take. -/
theorem leaves_of_readMembers {member : σ → String → Reader σ}
    (hmember : ∀ state name, ConsumesMember (member state name)) {fuel : Nat} {start finish : σ}
    (h : readMembers member fuel first start text = .ok (finish, rest)) :
    ∃ left, rest = '\x7d' :: left ∧ Leaves .object first text left := by
  induction fuel generalizing first start text with
  | zero => cases h
  | succ fuel ih =>
    obtain ⟨⟨more, quoted⟩, hnext, h⟩ := bind_eq_ok_iff.mp h
    cases more with
    | false =>
      cases h
      exact leaves_of_nextMember hnext
    | true =>
      obtain ⟨⟨chars, afterName⟩, hname, h⟩ := bind_eq_ok_iff.mp h
      obtain ⟨⟨state, between⟩, hstate, h⟩ := bind_eq_ok_iff.mp h
      obtain ⟨value, hcolon, hvalue⟩ := hmember _ _ _ _ _ hstate
      obtain ⟨left, rfl, hleaves⟩ := ih h
      exact ⟨left, rfl, (inside_of_nextMember hnext hname hcolon hvalue).leaves hleaves⟩

/-- A known member is read once, and only if it was not read before. -/
theorem readOnce_eq_ok {name : String} {before : Option α}
    (h : readOnce name before reader text = .ok (value, rest)) :
    before = none ∧ ∃ left, readColon text = .ok left ∧ reader left = .ok (value, rest) := by
  unfold readOnce at h
  split at h
  · cases h
  · next hbefore => exact ⟨by simpa using hbefore, bind_eq_ok_iff.mp h⟩

/-- What is read once may be kept in any way. -/
theorem consumes_once {name : String} {known : Option α} {state : σ} {keep : α → σ}
    {next : α × List Char → Except ReadError (σ × List Char)} (hreader : Consumes reader)
    (h : readOnce name known reader text >>= next = .ok (state, rest))
    (hkeep : ∀ value left, next (value, left) = .ok (keep value, left)) :
    ∃ left, readColon text = .ok left ∧ Passes left rest := by
  obtain ⟨⟨value, after⟩, honce, h⟩ := bind_eq_ok_iff.mp h
  rw [hkeep] at h
  cases h
  obtain ⟨-, left, hcolon, hread⟩ := readOnce_eq_ok honce
  exact ⟨left, hcolon, hreader _ _ _ hread⟩

/-- The loop reads the member that comes next, and goes on behind it. -/
theorem readMembers_of_nextMember {member : σ → String → Reader σ} {fuel : Nat} {start : σ}
    {quoted : List Char} {pair : σ × List Char} (hquoted : Quotes quoted name.toList)
    (hnext : ∀ inner, quoted ++ rest = '"' :: inner → nextMember first text = .ok (true, inner))
    (h : readMembers member (fuel + 1) first start text = .ok pair) :
    ∃ state left, member start name rest = .ok (state, left) ∧
      readMembers member fuel false state left = .ok pair := by
  obtain ⟨inner, hinner, hchars⟩ := hquoted.exists_spelled rest
  rw [readMembers, hnext inner hinner] at h
  simp only [ok_bind, if_true, hchars, String.ofList_toList] at h
  obtain ⟨⟨state, left⟩, hstate, h⟩ := bind_eq_ok_iff.mp h
  exact ⟨state, left, hstate, h⟩

end PatternAutomata.Json
