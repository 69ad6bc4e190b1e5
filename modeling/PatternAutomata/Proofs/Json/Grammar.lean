import PatternAutomata.Proofs.Json.Readers

/-!
# The grammar of JSON

JSON as it may stand in a text: values of any shape and depth, with white space wherever there may
be some, numbers of any size, and strings with any escapes, even with those that stand for no
character.

Two more views of a text look into its objects.  One gives the members, in the order of the text, as
names with the texts of their values.  The other says that a text holds a given value: however its
strings are spelled, wherever its white space stands, in whatever order its members come, and
whatever members with other names stand between them.
-/

namespace PatternAutomata.Json

/-! ### Well-formed texts -/

/-- The point of a number and the digits after it, or nothing. -/
inductive IsFraction : List Char → Prop where
  | absent : IsFraction []
  | digits {text : List Char} (h : Digits text) : IsFraction ('.' :: text)

/-- The power of ten of a number, or nothing. -/
inductive IsPower : List Char → Prop where
  | absent : IsPower []
  | digits {mark : Char} {sign text : List Char} (hmark : mark = 'e' ∨ mark = 'E')
    (hsign : sign = [] ∨ sign = ['+'] ∨ sign = ['-']) (h : Digits text) :
    IsPower (mark :: (sign ++ text))

/-- A number as it may stand in a text. -/
inductive IsNumber : List Char → Prop where
  | parts {sign whole fraction power : List Char} (hsign : sign = [] ∨ sign = ['-'])
    (hwhole : IsWhole whole) (hfraction : IsFraction fraction) (hpower : IsPower power) :
    IsNumber (sign ++ (whole ++ (fraction ++ power)))

/-- What stands between the marks of a string.  Four hexadecimal digits need not stand for a
character. -/
inductive StringText : List Char → Prop where
  | nil : StringText []
  | plain {text : List Char} {c : Char} (hquote : c ≠ '"') (hbackslash : c ≠ '\\')
    (hcontrol : ¬ c.toNat < 0x20) (hrest : StringText text) : StringText (c :: text)
  | short {text : List Char} {letter c : Char} (hletter : (letter, c) ∈ shortEscapes)
    (hrest : StringText text) : StringText ('\\' :: letter :: text)
  | unit {text : List Char} {d₁ d₂ d₃ d₄ : Char} {n : Nat} (hunit : hexUnit? d₁ d₂ d₃ d₄ = some n)
    (hrest : StringText text) : StringText ('\\' :: 'u' :: d₁ :: d₂ :: d₃ :: d₄ :: text)

/-- A part of a text: a value, or what stands in a bracket up to its end.  In the latter, an item
has a comma before it unless it is the first. -/
inductive Part where
  | value
  | items (first : Bool)
  | members (first : Bool)

/-- The values without parts that are words. -/
def words : List (List Char) :=
  [['n', 'u', 'l', 'l'], ['t', 'r', 'u', 'e'], ['f', 'a', 'l', 's', 'e']]

/-- The text is JSON. -/
inductive WellFormed : Part → List Char → Prop where
  | word {text : List Char} (h : text ∈ words) : WellFormed .value text
  | number {text : List Char} (h : IsNumber text) : WellFormed .value text
  | text {text : List Char} (h : StringText text) : WellFormed .value ('"' :: (text ++ ['"']))
  | list {text : List Char} (h : WellFormed (.items true) text) : WellFormed .value ('[' :: text)
  | object {text : List Char} (h : WellFormed (.members true) text) :
    WellFormed .value ('\x7b' :: text)
  | closeList {first : Bool} {blanks : List Char} (hblanks : Blank blanks) :
    WellFormed (.items first) (blanks ++ [']'])
  | firstItem {blanks item text : List Char} (hblanks : Blank blanks)
    (hitem : WellFormed .value item) (hrest : WellFormed (.items false) text) :
    WellFormed (.items true) (blanks ++ (item ++ text))
  | nextItem {before blanks item text : List Char} (hbefore : Blank before) (hblanks : Blank blanks)
    (hitem : WellFormed .value item) (hrest : WellFormed (.items false) text) :
    WellFormed (.items false) (before ++ ',' :: (blanks ++ (item ++ text)))
  | closeObject {first : Bool} {blanks : List Char} (hblanks : Blank blanks) :
    WellFormed (.members first) (blanks ++ ['\x7d'])
  | firstMember {blanks name before after value text : List Char} (hblanks : Blank blanks)
    (hname : StringText name) (hbefore : Blank before) (hafter : Blank after)
    (hvalue : WellFormed .value value) (hrest : WellFormed (.members false) text) :
    WellFormed (.members true)
      (blanks ++ '"' :: (name ++ '"' :: (before ++ ':' :: (after ++ (value ++ text)))))
  | nextMember {comma blanks name before after value text : List Char} (hcomma : Blank comma)
    (hblanks : Blank blanks) (hname : StringText name) (hbefore : Blank before)
    (hafter : Blank after) (hvalue : WellFormed .value value)
    (hrest : WellFormed (.members false) text) :
    WellFormed (.members false)
      (comma ++ ',' ::
        (blanks ++ '"' :: (name ++ '"' :: (before ++ ':' :: (after ++ (value ++ text))))))

theorem Spells.stringText {text chars : List Char} (h : Spells text chars) : StringText text := by
  induction h with
  | nil => exact .nil
  | plain hquote hbackslash hcontrol _ ih => exact .plain hquote hbackslash hcontrol ih
  | short hletter _ ih => exact .short hletter ih
  | unit hunit _ ih => exact .unit hunit ih
  | pair hhigh hlow _ _ _ _ ih => exact .unit hhigh (.unit hlow ih)

theorem Quotes.wellFormed {text chars : List Char} (h : Quotes text chars) :
    WellFormed .value text := by
  obtain ⟨spelled, hspelled, rfl⟩ := h
  exact .text hspelled.stringText

theorem wellFormed_toDigits (n : Nat) : WellFormed .value (Nat.toDigits 10 n) := by
  have hnumber := IsNumber.parts (.inl rfl) (isWhole_toDigits n) .absent .absent
  rw [List.append_nil, List.append_nil, List.nil_append] at hnumber
  exact .number hnumber

theorem WellFormed.ended_items {text : List Char} (h : WellFormed (.items false) text)
    (rest : List Char) : Ended (text ++ rest) := by
  cases h with
  | closeList hblanks => exact ended_blanks_cons hblanks (.inr (.inl rfl)) [] rest
  | nextItem hbefore => exact ended_blanks_cons hbefore (.inl rfl) _ rest

theorem WellFormed.ended_members {text : List Char} (h : WellFormed (.members false) text)
    (rest : List Char) : Ended (text ++ rest) := by
  cases h with
  | closeObject hblanks => exact ended_blanks_cons hblanks (.inr (.inr rfl)) [] rest
  | nextMember hcomma => exact ended_blanks_cons hcomma (.inl rfl) _ rest

/-! ### Items and members -/

/-- The items of a list up to its end, each as its text. -/
inductive Items : Bool → List (List Char) → List Char → Prop where
  | close {first : Bool} {blanks : List Char} (hblanks : Blank blanks) :
    Items first [] (blanks ++ [']'])
  | first {blanks item text : List Char} {items : List (List Char)} (hblanks : Blank blanks)
    (hrest : Items false items text) : Items true (item :: items) (blanks ++ (item ++ text))
  | next {before blanks item text : List Char} {items : List (List Char)} (hbefore : Blank before)
    (hblanks : Blank blanks) (hrest : Items false items text) :
    Items false (item :: items) (before ++ ',' :: (blanks ++ (item ++ text)))

/-- A name and the text of a value. -/
abbrev Entry := String × List Char

/-- The colon and the value of a member, as they stand after its name. -/
def Follows (value text : List Char) : Prop :=
  WellFormed .value value ∧
    ∃ before after, Blank before ∧ Blank after ∧ text = before ++ ':' :: (after ++ value)

theorem WellFormed.follows {value : List Char} (h : WellFormed .value value) :
    Follows value (':' :: value) :=
  ⟨h, [], [], blank_nil, blank_nil, rfl⟩

/-- The members of an object up to its end.  Names are strings; the values are of any shape. -/
inductive Members : Bool → List Entry → List Char → Prop where
  | close {first : Bool} {blanks : List Char} (hblanks : Blank blanks) :
    Members first [] (blanks ++ ['\x7d'])
  | first {blanks quoted value written text : List Char} {name : String} {entries : List Entry}
    (hblanks : Blank blanks) (hname : Quotes quoted name.toList) (hvalue : Follows value written)
    (hrest : Members false entries text) :
    Members true ((name, value) :: entries) (blanks ++ (quoted ++ (written ++ text)))
  | next {before blanks quoted value written text : List Char} {name : String}
    {entries : List Entry} (hbefore : Blank before) (hblanks : Blank blanks)
    (hname : Quotes quoted name.toList) (hvalue : Follows value written)
    (hrest : Members false entries text) :
    Members false ((name, value) :: entries)
      (before ++ ',' :: (blanks ++ (quoted ++ (written ++ text))))

theorem Members.wellFormed {first : Bool} {entries : List Entry} {text : List Char}
    (h : Members first entries text) : WellFormed (.members first) text := by
  induction h with
  | close hblanks => exact .closeObject hblanks
  | first hblanks hname hvalue _ ih =>
    obtain ⟨name, hspelled, rfl⟩ := hname
    obtain ⟨hvalue, before, after, hbefore, hafter, rfl⟩ := hvalue
    have hmember := WellFormed.firstMember hblanks hspelled.stringText hbefore hafter hvalue ih
    simpa using hmember
  | next hcomma hblanks hname hvalue _ ih =>
    obtain ⟨name, hspelled, rfl⟩ := hname
    obtain ⟨hvalue, before, after, hbefore, hafter, rfl⟩ := hvalue
    have hmember :=
      WellFormed.nextMember hcomma hblanks hspelled.stringText hbefore hafter hvalue ih
    simpa using hmember

theorem Members.ended {entries : List Entry} {text : List Char}
    (h : Members false entries text) (rest : List Char) : Ended (text ++ rest) :=
  h.wellFormed.ended_members rest

/-- The text is an object with these members in this order, and white space around it. -/
def IsObject (entries : List Entry) (text : List Char) : Prop :=
  ∃ before inner after, Blank before ∧ Blank after ∧ Members true entries inner ∧
    text = before ++ '\x7b' :: (inner ++ after)

/-! ### Held values -/

/-- The texts of the values that stand under a name. -/
def valuesOf (name : String) (entries : List Entry) : List (List Char) :=
  (entries.filter fun entry => entry.1 = name).map Prod.snd

mutual

/-- The text holds the value. -/
def Presents : Value → List Char → Prop
  | .null, text => text = ['n', 'u', 'l', 'l']
  | .bool true, text => text = ['t', 'r', 'u', 'e']
  | .bool false, text => text = ['f', 'a', 'l', 's', 'e']
  | .number value, text => text = Nat.toDigits 10 value
  | .text value, text => Quotes text value.toList
  | .list items, text =>
    ∃ texts inner, Items true texts inner ∧ text = '[' :: inner ∧ PresentsAll items texts
  | .object members, text =>
    ∃ entries inner, Members true entries inner ∧ text = '\x7b' :: inner ∧
      PresentsMembers members entries

/-- The texts hold the items, in this order. -/
def PresentsAll : List Value → List (List Char) → Prop
  | [], texts => texts = []
  | item :: items, texts =>
    ∃ text rest, texts = text :: rest ∧ Presents item text ∧ PresentsAll items rest

/-- Each member stands once among the entries. -/
def PresentsMembers : List (String × Value) → List Entry → Prop
  | [], _ => True
  | (name, value) :: members, entries =>
    (∃ text, valuesOf name entries = [text] ∧ Presents value text) ∧ PresentsMembers members entries

end

variable {α σ : Type} {entries before after : List Entry} {name other : String}
  {value written text : List Char} {first : Bool}

theorem valuesOf_append (name : String) (before after : List Entry) :
    valuesOf name (before ++ after) = valuesOf name before ++ valuesOf name after := by
  simp [valuesOf]

theorem valuesOf_concat (name other : String) (entries : List Entry) (value : List Char) :
    valuesOf name (entries ++ [(other, value)]) =
      if other = name then valuesOf name entries ++ [value] else valuesOf name entries := by
  rw [valuesOf_append]
  split
  · next h => simp [valuesOf, h]
  · next h => simp [valuesOf, h]

theorem valuesOf_cons_self :
    valuesOf name ((name, value) :: entries) = value :: valuesOf name entries := by
  simp [valuesOf]

/-- The only text under a name stands behind entries with other names. -/
theorem eq_of_valuesOf_append {only : List Char}
    (h : valuesOf name (before ++ (name, value) :: after) = [only]) :
    valuesOf name before = [] ∧ value = only := by
  rw [valuesOf_append, valuesOf_cons_self] at h
  cases hbefore : valuesOf name before with
  | nil =>
    rw [hbefore] at h
    exact ⟨rfl, (List.cons.inj h).1⟩
  | cons first more =>
    rw [hbefore] at h
    simp at h

/-- The member stands once among the entries. -/
def HoldsOnce (entries : List Entry) (member : String × Value) : Prop :=
  ∃ text, valuesOf member.1 entries = [text] ∧ Presents member.2 text

/-! ### Held values are read -/

theorem reads_of_presents_text {held : String} (h : Presents (.text held) value) :
    Reads readText value held :=
  reads_text (by simpa only [Presents] using h)

theorem Items.itemsText {reader : Reader α} {toJson : α → Value} {texts : List (List Char)}
    (h : Items first texts text) {items : List α} (hitems : PresentsAll (items.map toJson) texts)
    (hread : ∀ item ∈ items, ∀ text, Presents (toJson item) text → Reads reader text item) :
    ItemsText reader first items text := by
  induction h generalizing items with
  | close hblanks =>
    cases items with
    | nil => exact .close hblanks
    | cons item items => simp [PresentsAll] at hitems
  | first hblanks _ ih =>
    cases items with
    | nil => simp [PresentsAll] at hitems
    | cons item items =>
      simp only [List.map_cons, PresentsAll] at hitems
      obtain ⟨held, others, heq, hitem, hrest⟩ := hitems
      cases heq
      obtain ⟨hfirst, hothers⟩ := List.forall_mem_cons.mp hread
      exact .first hblanks (hfirst _ hitem) (ih hrest hothers)
  | next hbefore hblanks _ ih =>
    cases items with
    | nil => simp [PresentsAll] at hitems
    | cons item items =>
      simp only [List.map_cons, PresentsAll] at hitems
      obtain ⟨held, others, heq, hitem, hrest⟩ := hitems
      cases heq
      obtain ⟨hfirst, hothers⟩ := List.forall_mem_cons.mp hread
      exact .next hbefore hblanks (hfirst _ hitem) (ih hrest hothers)

/-- A list that holds items is read, if whatever holds an item is. -/
theorem reads_of_presents_list {reader : Reader α} {toJson : α → Value} {items : List α}
    (h : Presents (.list (items.map toJson)) value)
    (hread : ∀ item ∈ items, ∀ text, Presents (toJson item) text → Reads reader text item) :
    Reads (readList reader) value items := by
  simp only [Presents] at h
  obtain ⟨texts, inner, hinner, rfl, hitems⟩ := h
  exact (hinner.itemsText hitems hread).reads

theorem Follows.readsMember {reader : Reader α} {a : α} (h : Follows value written)
    (hread : Reads reader value a) : ReadsMember reader written a := by
  obtain ⟨-, before, after, hbefore, hafter, heq⟩ := h
  exact ⟨before, after, value, hbefore, hafter, hread, heq⟩

/-- Reading the members one by one, where what was read is a function of the entries so far. -/
theorem Members.membersText {member : σ → String → Reader σ} (h : Members first entries text)
    {state : List Entry → σ} (done : List Entry)
    (hmember : ∀ before name value after, done ++ entries = before ++ (name, value) :: after →
      ∀ written, Follows value written → ∀ rest, Ended rest →
        member (state before) name (written ++ rest) =
          .ok (state (before ++ [(name, value)]), rest)) :
    MembersText member first (state done) (state (done ++ entries)) text := by
  -- Each member that is read moves from the entries to those that are done.
  induction h generalizing done with
  | close hblanks =>
    rw [List.append_nil]
    exact .close hblanks
  | first hblanks hname hvalue _ ih =>
    have hrest := ih (done ++ [(_, _)]) fun before name value after heq =>
      hmember before name value after (by simpa using heq)
    rw [List.append_assoc, List.singleton_append] at hrest
    exact .first hblanks hname (hmember done _ _ _ rfl _ hvalue) hrest
  | next hbefore hblanks hname hvalue _ ih =>
    have hrest := ih (done ++ [(_, _)]) fun before name value after heq =>
      hmember before name value after (by simpa using heq)
    rw [List.append_assoc, List.singleton_append] at hrest
    exact .next hbefore hblanks hname (hmember done _ _ _ rfl _ hvalue) hrest

end PatternAutomata.Json
