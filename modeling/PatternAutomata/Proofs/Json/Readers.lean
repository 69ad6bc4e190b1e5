import PatternAutomata.Proofs.Json.Scalars

/-!
# Texts that readers read

A reader reads a written value if it takes the value off the front of any text, whatever blanks
stand before it and wherever the value ends.  The texts of lists and objects are described with
blanks in every place where there may be some, so a reader of items or members reads them in any
layout; the two layouts that are written are of this form.
-/

namespace PatternAutomata.Json

variable {α σ : Type}

/-! ### Blanks -/

def Blank (text : List Char) : Prop :=
  ∀ c ∈ text, isSpace c = true

section Blanks

variable {c : Char} {blanks text rest : List Char}

theorem blank_nil : Blank [] := nofun

theorem skipSpace_append (h : Blank blanks) : skipSpace (blanks ++ text) = skipSpace text :=
  List.dropWhile_append_of_pos h

theorem skipSpace_cons (h : isSpace c = false) : skipSpace (c :: text) = c :: text :=
  List.dropWhile_cons_of_neg (by rw [h]; exact Bool.false_ne_true)

theorem skipSpace_blanks_cons (hblanks : Blank blanks) (h : isSpace c = false) :
    skipSpace (blanks ++ c :: text) = c :: text := by
  rw [skipSpace_append hblanks, skipSpace_cons h]

theorem ended_cons (h : isSpace c = true ∨ c = ',' ∨ c = ']' ∨ c = '\x7d') : Ended (c :: text) := by
  intro d hd
  cases hd
  exact h

theorem isSpace_of_isDigit (h : c.isDigit = true) : isSpace c = false := by
  refine Bool.eq_false_iff.mpr fun hspace => ?_
  have hended : Ended [c] := ended_cons (.inl hspace)
  rw [hended.not_isDigit c rfl] at h
  cases h

/-- Behind any blanks, a value has ended where a comma or a closing bracket stands. -/
theorem ended_blanks_cons (hblanks : Blank blanks) (hc : c = ',' ∨ c = ']' ∨ c = '\x7d')
    (text rest : List Char) : Ended (blanks ++ c :: text ++ rest) := by
  cases blanks with
  | nil => exact ended_cons (.inr hc)
  | cons c blanks => exact ended_cons (.inl (hblanks c (List.mem_cons_self ..)))

end Blanks

/-! ### Single values -/

/-- The reader takes the written value off the front of a text, after any blanks. -/
structure Reads (reader : Reader α) (written : List Char) (value : α) : Prop where
  begins : ∃ c rest, written = c :: rest ∧ isSpace c = false ∧ c ≠ ']'
  read : ∀ blanks rest, Blank blanks → Ended rest →
    reader (blanks ++ (written ++ rest)) = .ok (value, rest)

section Values

variable {reader : Reader α} {written rest : List Char} {value : α}

theorem Reads.read_at (h : Reads reader written value) (hrest : Ended rest) :
    reader (written ++ rest) = .ok (value, rest) :=
  h.read [] rest blank_nil hrest

theorem skipSpace_written (h : Reads reader written value) {blanks : List Char}
    (hblanks : Blank blanks) : skipSpace (blanks ++ (written ++ rest)) = written ++ rest := by
  obtain ⟨c, more, rfl, hc, -⟩ := h.begins
  exact skipSpace_blanks_cons hblanks hc

/-- The text is a string with these characters. -/
def Quotes (text chars : List Char) : Prop :=
  ∃ spelled, Spells spelled chars ∧ text = '"' :: (spelled ++ ['"'])

theorem quotes_writeText (chars : List Char) : Quotes (writeText chars) chars :=
  ⟨chars.flatMap escapeChar, spells_flatMap_escapeChar chars, rfl⟩

theorem Quotes.begins {chars : List Char} (h : Quotes written chars) :
    ∃ c rest, written = c :: rest ∧ isSpace c = false ∧ c ≠ ']' := by
  obtain ⟨spelled, -, rfl⟩ := h
  exact ⟨'"', spelled ++ ['"'], rfl, by decide, by decide⟩

theorem Quotes.exists_spelled {chars : List Char} (h : Quotes written chars) (rest : List Char) :
    ∃ inner, written ++ rest = '"' :: inner ∧ readChars inner = .ok (chars, rest) := by
  obtain ⟨spelled, hspelled, rfl⟩ := h
  refine ⟨spelled ++ '"' :: rest, ?_, hspelled.readChars_eq rest⟩
  rw [List.cons_append, List.append_assoc, List.singleton_append]

theorem reads_text {text : String} (h : Quotes written text.toList) :
    Reads readText written text where
  begins := h.begins
  read blanks rest hblanks _ := by
    obtain ⟨inner, hinner, hread⟩ := h.exists_spelled rest
    rw [hinner, readText, skipSpace_blanks_cons hblanks (by decide)]
    simp only [hread, bind, Except.bind, String.ofList_toList]
    rfl

theorem reads_writeText (text : String) : Reads readText (writeText text.toList) text :=
  reads_text (quotes_writeText _)

theorem reads_word32 {n : Nat} (h : n < UInt32.size) : Reads readWord32 (Nat.toDigits 10 n) n := by
  obtain ⟨c, digits, hwritten⟩ := List.exists_cons_of_ne_nil (@Nat.toDigits_ne_nil n 10)
  have hdigit : c.isDigit = true :=
    Nat.isDigit_of_mem_toDigits (by decide) (by decide) (hwritten ▸ List.mem_cons_self ..)
  have hspace : isSpace c = false := isSpace_of_isDigit hdigit
  have hlist : c ≠ ']' := by
    rintro rfl
    cases hdigit
  refine ⟨⟨c, digits, hwritten, hspace, hlist⟩, fun blanks rest hblanks hrest => ?_⟩
  have hnumber : readNumber (c :: digits ++ rest) = .ok (.natural n, rest) := by
    have hword : n ≤ greatestWord := by
      unfold greatestWord UInt64.size
      unfold UInt32.size at h
      omega
    rw [← hwritten]
    exact readNumber_toDigits hword hrest
  rw [hwritten, readWord32, List.cons_append, skipSpace_blanks_cons hblanks hspace]
  simp only [hdigit, Bool.or_true, if_true, bind, Except.bind]
  rw [← List.cons_append, hnumber]
  simp only [if_pos h]
  rfl

theorem reads_optional (h : Reads reader written value) (hnull : written.head? ≠ some 'n') :
    Reads (readOptional reader) written (some value) where
  begins := h.begins
  read blanks rest hblanks hrest := by
    have hread := h.read_at hrest
    rw [readOptional, skipSpace_written h hblanks]
    split
    · next hn =>
      obtain ⟨c, more, rfl, -⟩ := h.begins
      rw [List.cons_append] at hn
      cases hn
      exact absurd rfl hnull
    · simp only [hread, bind, Except.bind]
      rfl

theorem reads_null (reader : Reader α) : Reads (readOptional reader) ['n', 'u', 'l', 'l'] none where
  begins := ⟨'n', ['u', 'l', 'l'], rfl, by decide, by decide⟩
  read blanks rest hblanks _ := by
    rw [readOptional, List.cons_append, skipSpace_blanks_cons hblanks (by decide)]
    rfl

theorem reads_choice_first {choice : Choice α} (h : Quotes written choice.first.1.toList) :
    Reads (readChoice choice) written choice.first.2 where
  begins := h.begins
  read blanks rest hblanks _ := by
    obtain ⟨inner, hinner, hread⟩ := h.exists_spelled rest
    rw [hinner, readChoice, skipSpace_blanks_cons hblanks (by decide)]
    simp only [readChoiceName, hread, bind, Except.bind, String.ofList_toList, if_true]
    rfl

theorem reads_choice_second {choice : Choice α} (hne : choice.second.1 ≠ choice.first.1)
    (h : Quotes written choice.second.1.toList) :
    Reads (readChoice choice) written choice.second.2 where
  begins := h.begins
  read blanks rest hblanks _ := by
    obtain ⟨inner, hinner, hread⟩ := h.exists_spelled rest
    rw [hinner, readChoice, skipSpace_blanks_cons hblanks (by decide)]
    simp only [readChoiceName, hread, bind, Except.bind, String.ofList_toList, if_neg hne, if_true]
    rfl

end Values

/-! ### Lists -/

/-- The items of a list with any blanks around them, up to the closing bracket; unless an item is
the first, a comma stands before it. -/
inductive ItemsText (reader : Reader α) : Bool → List α → List Char → Prop where
  | close {first : Bool} {blanks : List Char} (hblanks : Blank blanks) :
    ItemsText reader first [] (blanks ++ [']'])
  | first {blanks written text : List Char} {item : α} {items : List α} (hblanks : Blank blanks)
    (hitem : Reads reader written item) (hrest : ItemsText reader false items text) :
    ItemsText reader true (item :: items) (blanks ++ (written ++ text))
  | next {before blanks written text : List Char} {item : α} {items : List α}
    (hbefore : Blank before) (hblanks : Blank blanks) (hitem : Reads reader written item)
    (hrest : ItemsText reader false items text) :
    ItemsText reader false (item :: items) (before ++ ',' :: (blanks ++ (written ++ text)))

section Lists

variable {reader : Reader α} {text : List Char} {items : List α} {first : Bool}

theorem ItemsText.ended (h : ItemsText reader false items text) (rest : List Char) :
    Ended (text ++ rest) := by
  cases h with
  | close hblanks => exact ended_blanks_cons hblanks (.inr (.inl rfl)) [] rest
  | next hbefore => exact ended_blanks_cons hbefore (.inl rfl) _ rest

theorem nextItem_close {blanks : List Char} (hblanks : Blank blanks) (first : Bool)
    (rest : List Char) : nextItem first (blanks ++ ']' :: rest) = .ok (false, ']' :: rest) := by
  rw [nextItem, skipSpace_blanks_cons hblanks (by decide)]
  rfl

theorem nextItem_first {written blanks rest : List Char} {item : α} (hblanks : Blank blanks)
    (hitem : Reads reader written item) :
    nextItem true (blanks ++ (written ++ rest)) = .ok (true, written ++ rest) := by
  obtain ⟨c, more, rfl, hc, hclose⟩ := hitem.begins
  rw [nextItem, List.cons_append, skipSpace_blanks_cons hblanks hc]
  simp

theorem nextItem_next {written before blanks rest : List Char} {item : α} (hbefore : Blank before)
    (hblanks : Blank blanks) (hitem : Reads reader written item) :
    nextItem false (before ++ ',' :: (blanks ++ (written ++ rest))) =
      .ok (true, written ++ rest) := by
  obtain ⟨c, more, rfl, hc, hclose⟩ := hitem.begins
  rw [nextItem, skipSpace_blanks_cons hbefore (by decide), List.cons_append]
  simp [skipSpace_blanks_cons hblanks hc, hclose]

/-- The items are read one by one; every item takes a character at least, so the fuel is enough. -/
theorem ItemsText.readItems_eq (h : ItemsText reader first items text) {fuel : Nat}
    (hfuel : text.length < fuel) (rest : List Char) :
    readItems reader fuel first (text ++ rest) = .ok (items, rest) := by
  induction h generalizing fuel with
  | close hblanks =>
    obtain ⟨fuel, rfl⟩ := Nat.exists_eq_add_one_of_ne_zero (Nat.ne_zero_of_lt hfuel)
    rw [List.append_assoc, List.singleton_append, readItems, nextItem_close hblanks]
    rfl
  | @first blanks written text item items hblanks hitem hrest ih =>
    obtain ⟨fuel, rfl⟩ := Nat.exists_eq_add_one_of_ne_zero (Nat.ne_zero_of_lt hfuel)
    obtain ⟨c, more, hwritten, -⟩ := hitem.begins
    have hfuel' : text.length < fuel := by
      rw [hwritten, List.length_append, List.length_append, List.length_cons] at hfuel
      omega
    rw [List.append_assoc, List.append_assoc, readItems, nextItem_first hblanks hitem]
    simp only [bind, Except.bind, if_true, hitem.read_at (hrest.ended rest), ih hfuel']
    rfl
  | @next before blanks written text item items hbefore hblanks hitem hrest ih =>
    obtain ⟨fuel, rfl⟩ := Nat.exists_eq_add_one_of_ne_zero (Nat.ne_zero_of_lt hfuel)
    have hfuel' : text.length < fuel := by
      rw [List.length_append, List.length_cons, List.length_append, List.length_append] at hfuel
      omega
    rw [List.append_assoc, List.cons_append, List.append_assoc, List.append_assoc, readItems,
      nextItem_next hbefore hblanks hitem]
    simp only [bind, Except.bind, if_true, hitem.read_at (hrest.ended rest), ih hfuel']
    rfl

theorem ItemsText.reads (h : ItemsText reader true items text) :
    Reads (readList reader) ('[' :: text) items where
  begins := ⟨'[', text, rfl, by decide, by decide⟩
  read blanks rest hblanks _ := by
    rw [readList, List.cons_append, skipSpace_blanks_cons hblanks (by decide)]
    refine h.readItems_eq ?_ rest
    rw [List.length_append]
    omega

end Lists

/-! ### Objects -/

/-- The reader reads a member after its name: a colon with any blanks around it, and the value. -/
def ReadsMember (reader : Reader α) (written : List Char) (value : α) : Prop :=
  ∃ before blanks text, Blank before ∧ Blank blanks ∧ Reads reader text value ∧
    written = before ++ ':' :: (blanks ++ text)

/-- The members of an object with any blanks around them, up to the closing bracket; unless a member
is the first, a comma stands before it.  Each member changes what was read before it. -/
inductive MembersText (member : σ → String → Reader σ) : Bool → σ → σ → List Char → Prop where
  | close {first : Bool} {state : σ} {blanks : List Char} (hblanks : Blank blanks) :
    MembersText member first state state (blanks ++ ['\x7d'])
  | first {blanks quoted written text : List Char} {name : String} {start middle finish : σ}
    (hblanks : Blank blanks) (hname : Quotes quoted name.toList)
    (hmember : ∀ rest, Ended rest → member start name (written ++ rest) = .ok (middle, rest))
    (hrest : MembersText member false middle finish text) :
    MembersText member true start finish (blanks ++ (quoted ++ (written ++ text)))
  | next {before blanks quoted written text : List Char} {name : String} {start middle finish : σ}
    (hbefore : Blank before) (hblanks : Blank blanks) (hname : Quotes quoted name.toList)
    (hmember : ∀ rest, Ended rest → member start name (written ++ rest) = .ok (middle, rest))
    (hrest : MembersText member false middle finish text) :
    MembersText member false start finish
      (before ++ ',' :: (blanks ++ (quoted ++ (written ++ text))))

section Objects

variable {reader : Reader α} {member : σ → String → Reader σ} {written text rest : List Char}
  {value : α} {first : Bool} {start finish : σ}

theorem readColon_eq {before : List Char} (hbefore : Blank before) (text : List Char) :
    readColon (before ++ ':' :: text) = .ok text := by
  rw [readColon, skipSpace_blanks_cons hbefore (by decide)]
  rfl

theorem ReadsMember.readOnce_eq (h : ReadsMember reader written value) (name : String)
    (hrest : Ended rest) : readOnce name none reader (written ++ rest) = .ok (value, rest) := by
  obtain ⟨before, blanks, text, hbefore, hblanks, hread, rfl⟩ := h
  have hunfold : ∀ text, readOnce name none reader text = readColon text >>= reader := fun _ => rfl
  rw [hunfold, List.append_assoc, List.cons_append, List.append_assoc, readColon_eq hbefore]
  exact hread.read blanks rest hblanks hrest

theorem MembersText.ended (h : MembersText member false start finish text) (rest : List Char) :
    Ended (text ++ rest) := by
  cases h with
  | close hblanks => exact ended_blanks_cons hblanks (.inr (.inr rfl)) [] rest
  | next hbefore => exact ended_blanks_cons hbefore (.inl rfl) _ rest

theorem nextMember_close {blanks : List Char} (hblanks : Blank blanks) (first : Bool)
    (rest : List Char) :
    nextMember first (blanks ++ '\x7d' :: rest) = .ok (false, '\x7d' :: rest) := by
  rw [nextMember, skipSpace_blanks_cons hblanks (by decide)]
  rfl

theorem nextMember_first {blanks : List Char} (hblanks : Blank blanks) (rest : List Char) :
    nextMember true (blanks ++ '"' :: rest) = .ok (true, rest) := by
  rw [nextMember, skipSpace_blanks_cons hblanks (by decide)]
  simp

theorem nextMember_next {before blanks : List Char} (hbefore : Blank before)
    (hblanks : Blank blanks) (rest : List Char) :
    nextMember false (before ++ ',' :: (blanks ++ '"' :: rest)) = .ok (true, rest) := by
  rw [nextMember, skipSpace_blanks_cons hbefore (by decide)]
  simp [skipSpace_blanks_cons hblanks (show isSpace '"' = false by decide)]

/-- The members are read one by one; every member takes a character at least, so the fuel is
enough. -/
theorem MembersText.readMembers_eq (h : MembersText member first start finish text) {fuel : Nat}
    (hfuel : text.length < fuel) (rest : List Char) :
    readMembers member fuel first start (text ++ rest) = .ok (finish, '\x7d' :: rest) := by
  induction h generalizing fuel with
  | close hblanks =>
    obtain ⟨fuel, rfl⟩ := Nat.exists_eq_add_one_of_ne_zero (Nat.ne_zero_of_lt hfuel)
    rw [List.append_assoc, List.singleton_append, readMembers, nextMember_close hblanks]
    rfl
  | @first blanks quoted written text name start middle finish hblanks hname hmember hrest ih =>
    obtain ⟨fuel, rfl⟩ := Nat.exists_eq_add_one_of_ne_zero (Nat.ne_zero_of_lt hfuel)
    obtain ⟨inner, hinner, hread⟩ := hname.exists_spelled (written ++ (text ++ rest))
    have hfuel' : text.length < fuel := by
      obtain ⟨spelled, -, rfl⟩ := hname
      simp only [List.length_append, List.length_cons] at hfuel
      omega
    rw [List.append_assoc, List.append_assoc, List.append_assoc, hinner, readMembers,
      nextMember_first hblanks]
    simp only [bind, Except.bind, if_true, hread, String.ofList_toList,
      hmember _ (hrest.ended rest), ih hfuel']
  | @next before blanks quoted written text name start middle finish hbefore hblanks hname hmember
      hrest ih =>
    obtain ⟨fuel, rfl⟩ := Nat.exists_eq_add_one_of_ne_zero (Nat.ne_zero_of_lt hfuel)
    obtain ⟨inner, hinner, hread⟩ := hname.exists_spelled (written ++ (text ++ rest))
    have hfuel' : text.length < fuel := by
      simp only [List.length_append, List.length_cons] at hfuel
      omega
    rw [List.append_assoc, List.cons_append, List.append_assoc, List.append_assoc,
      List.append_assoc, hinner, readMembers, nextMember_next hbefore hblanks]
    simp only [bind, Except.bind, if_true, hread, String.ofList_toList,
      hmember _ (hrest.ended rest), ih hfuel']

/-- The fuel of an object is the length of the text after its bracket. -/
theorem MembersText.readMembers_object (h : MembersText member true start finish text)
    (rest : List Char) :
    readMembers member ((text ++ rest).length + 1) true start (text ++ rest) =
      .ok (finish, '\x7d' :: rest) := by
  refine h.readMembers_eq ?_ rest
  rw [List.length_append]
  omega

theorem leaveObject_close (rest : List Char) : leaveObject ('\x7d' :: rest) = rest := by
  rw [leaveObject, skipSpace_cons (by decide)]
  rfl

end Objects

/-! ### Layouts -/

/-- A layout adds blanks only. -/
structure Layout.IsBlank (layout : Layout) : Prop where
  lineBreak : ∀ depth, Blank (layout.lineBreak depth)
  colon : ∃ before blanks, Blank before ∧ Blank blanks ∧ layout.colon = before ++ ':' :: blanks

theorem Layout.ofChoice_isBlank (pretty : Bool) : (Layout.ofChoice pretty).IsBlank := by
  cases pretty with
  | false => exact ⟨fun _ => blank_nil, [], [], blank_nil, blank_nil, rfl⟩
  | true =>
    refine ⟨fun depth c hc => ?_, [], [' '], blank_nil, ?_, rfl⟩
    · rcases List.mem_cons.mp hc with rfl | hc
      · decide
      · rw [List.eq_of_mem_replicate hc]
        decide
    · intro c hc
      rw [List.mem_singleton.mp hc]
      decide

section Layouts

variable {layout : Layout} {reader : Reader α} {member : σ → String → Reader σ}

theorem Layout.IsBlank.readsMember (hlayout : layout.IsBlank) {written : List Char} {value : α}
    (h : Reads reader written value) : ReadsMember reader (layout.colon ++ written) value := by
  obtain ⟨before, blanks, hbefore, hblanks, hcolon⟩ := hlayout.colon
  exact ⟨before, blanks, written, hbefore, hblanks, h, by rw [hcolon, List.append_assoc]; rfl⟩

theorem itemsText_writeItems (hlayout : layout.IsBlank) {depth : Nat} (outer : Nat) {items : List α}
    {toJson : α → Value}
    (hitems : ∀ item ∈ items, Reads reader (write layout depth (toJson item)) item) :
    ItemsText reader false items
      (writeItems layout depth (items.map toJson) ++ (layout.lineBreak outer ++ [']'])) := by
  induction items with
  | nil => exact .close (hlayout.lineBreak outer)
  | cons item items ih =>
    obtain ⟨hitem, hrest⟩ := List.forall_mem_cons.mp hitems
    have hnext := ItemsText.next blank_nil (hlayout.lineBreak depth) hitem (ih hrest)
    simpa only [List.map_cons, writeItems, List.append_assoc, List.cons_append, List.nil_append]
      using hnext

/-- A list is read back in any layout, if its items are. -/
theorem reads_list (hlayout : layout.IsBlank) {depth : Nat} {items : List α} {toJson : α → Value}
    (hitems : ∀ item ∈ items, Reads reader (write layout (depth + 1) (toJson item)) item) :
    Reads (readList reader) (write layout depth (.list (items.map toJson))) items := by
  cases items with
  | nil => exact ItemsText.reads (.close blank_nil)
  | cons item items =>
    obtain ⟨hitem, hrest⟩ := List.forall_mem_cons.mp hitems
    have htext := ItemsText.first (hlayout.lineBreak (depth + 1)) hitem
      (itemsText_writeItems hlayout depth hrest)
    simpa only [List.map_cons, write, List.append_assoc, List.cons_append] using htext.reads

/-- The members of a list, each written with its name, change what was read one after the other. -/
inductive MembersRead (layout : Layout) (depth : Nat) (member : σ → String → Reader σ) :
    List (String × Value) → σ → σ → Prop where
  | nil (state : σ) : MembersRead layout depth member [] state state
  | cons {name : String} {value : Value} {members : List (String × Value)}
    {start middle finish : σ}
    (hmember : ∀ rest, Ended rest →
      member start name (layout.colon ++ write layout depth value ++ rest) = .ok (middle, rest))
    (hrest : MembersRead layout depth member members middle finish) :
    MembersRead layout depth member ((name, value) :: members) start finish

theorem MembersRead.append {depth : Nat} {members more : List (String × Value)}
    {start middle finish : σ} (h : MembersRead layout depth member members start middle)
    (h' : MembersRead layout depth member more middle finish) :
    MembersRead layout depth member (members ++ more) start finish := by
  induction h with
  | nil => exact h'
  | cons hmember _ ih => exact .cons hmember (ih h')

theorem MembersRead.membersText (hlayout : layout.IsBlank) {depth : Nat} (outer : Nat)
    {members : List (String × Value)} {start finish : σ}
    (h : MembersRead layout depth member members start finish) :
    MembersText member false start finish
      (writeMembers layout depth members ++ (layout.lineBreak outer ++ ['\x7d'])) := by
  induction h with
  | nil => exact .close (hlayout.lineBreak outer)
  | cons hmember _ ih =>
    have hnext := MembersText.next blank_nil (hlayout.lineBreak depth) (quotes_writeText _) hmember ih
    simpa only [writeMembers, List.append_assoc, List.cons_append, List.nil_append] using hnext

/-- The written object is an opening bracket and the text of its members. -/
theorem MembersRead.exists_write_eq (hlayout : layout.IsBlank) {depth : Nat}
    {members : List (String × Value)} {start finish : σ}
    (h : MembersRead layout (depth + 1) member members start finish) :
    ∃ text, write layout depth (.object members) = '\x7b' :: text ∧
      MembersText member true start finish text := by
  cases h with
  | nil => exact ⟨['\x7d'], rfl, .close blank_nil⟩
  | cons hmember hrest =>
    have htext := MembersText.first (hlayout.lineBreak (depth + 1)) (quotes_writeText _) hmember
      (hrest.membersText hlayout depth)
    refine ⟨_, ?_, htext⟩
    simp only [write, List.append_assoc, List.cons_append]

end Layouts

end PatternAutomata.Json
