import PatternAutomata.Proofs.Json.Readers

/-!
# Delimited texts

Where texts are put together without marks between them, what stands at the front must show where it
ends.  What is written of an item is delimited if, whatever may come next does come next, the item
and the rest are known from the text.  The digits of a number are delimited by anything but a digit,
a string by its closing mark, and items one after another by what no item begins with.
-/

namespace PatternAutomata

section

variable {α : Type} {domain : α → Prop} {follows stops : List Char → Prop}
  {write : α → List Char}

/-- In front of texts that may follow, what is written of an item in the domain tells the item and
where it ends. -/
def Delimited (domain : α → Prop) (follows : List Char → Prop) (write : α → List Char) : Prop :=
  ∀ ⦃a b : α⦄ ⦃rest more : List Char⦄, domain a → domain b → follows rest → follows more →
    write a ++ rest = write b ++ more → a = b ∧ rest = more

theorem Delimited.mono {domain' : α → Prop} (h : Delimited domain follows write)
    (hdomain : ∀ a, domain' a → domain a) : Delimited domain' follows write :=
  fun _ _ _ _ ha hb => h (hdomain _ ha) (hdomain _ hb)

/-- Items in a row are delimited by what no item begins with, if each of them is delimited by such
texts and by the next one. -/
theorem Delimited.flatMap (h : Delimited domain follows write)
    (hitem : ∀ a rest, follows (write a ++ rest)) (hstop : ∀ rest, stops rest → follows rest)
    (hne : ∀ a rest, domain a → ¬ stops (write a ++ rest)) :
    Delimited (∀ a ∈ ·, domain a) stops (List.flatMap write) := by
  intro items others rest more hitems hothers hrest hmore heq
  have hnext : ∀ (items : List α) rest, stops rest → follows (items.flatMap write ++ rest) := by
    intro items rest hrest
    cases items with
    | nil => exact hstop rest hrest
    | cons a items =>
      rw [List.flatMap_cons, List.append_assoc]
      exact hitem a _
  induction items generalizing others with
  | nil =>
    cases others with
    | nil => exact ⟨rfl, heq⟩
    | cons b others =>
      rw [List.flatMap_nil, List.nil_append, List.flatMap_cons, List.append_assoc] at heq
      exact absurd (heq ▸ hrest) (hne b _ (hothers b (List.mem_cons_self ..)))
  | cons a items ih =>
    cases others with
    | nil =>
      rw [List.flatMap_nil, List.nil_append, List.flatMap_cons, List.append_assoc] at heq
      exact absurd (heq ▸ hmore) (hne a _ (hitems a (List.mem_cons_self ..)))
    | cons b others =>
      obtain ⟨ha, htail⟩ := List.forall_mem_cons.mp hitems
      obtain ⟨hb, htail'⟩ := List.forall_mem_cons.mp hothers
      rw [List.flatMap_cons, List.flatMap_cons, List.append_assoc, List.append_assoc] at heq
      obtain ⟨rfl, hrow⟩ := h ha hb (hnext items rest hrest) (hnext others more hmore) heq
      obtain ⟨rfl, htext⟩ := ih htail htail' hrow
      exact ⟨rfl, htext⟩

end

/-! ### Numbers and strings -/

/-- No digit comes next. -/
def NoDigit (text : List Char) : Prop :=
  ∀ c ∈ text.head?, c.isDigit = false

theorem noDigit_append {text : List Char} (h : text.head?.map Char.isDigit = some false)
    (rest : List Char) : NoDigit (text ++ rest) := by
  obtain ⟨c, hc, hdigit⟩ := Option.map_eq_some_iff.mp h
  intro d hd
  rw [List.head?_append, hc] at hd
  cases hd
  exact hdigit

theorem delimited_toDigits : Delimited (fun _ => True) NoDigit (Nat.toDigits 10) := by
  intro m n rest more _ _ hrest hmore heq
  have hread := congrArg Json.someDigits heq
  rw [Json.someDigits_append (Json.isWhole_toDigits m).1 hrest,
    Json.someDigits_append (Json.isWhole_toDigits n).1 hmore] at hread
  obtain ⟨hdigits, hrest⟩ := Prod.mk.inj (Except.ok.inj hread)
  have hvalue := congrArg (Nat.ofDigitChars 10 · 0) hdigits
  simp only [Nat.ofDigitChars_ten_toDigits] at hvalue
  exact ⟨hvalue, hrest⟩

theorem Json.eq_of_writeText_append_eq {text other : String} {rest more : List Char}
    (h : writeText text.toList ++ rest = writeText other.toList ++ more) :
    text = other ∧ rest = more := by
  obtain ⟨inner, hinner, hread⟩ := (quotes_writeText text.toList).exists_spelled rest
  obtain ⟨inner', hinner', hread'⟩ := (quotes_writeText other.toList).exists_spelled more
  rw [hinner, hinner'] at h
  obtain ⟨-, rfl⟩ := List.cons.inj h
  obtain ⟨hchars, hrest⟩ := Prod.mk.inj (Except.ok.inj (hread.symm.trans hread'))
  exact ⟨String.toList_inj.mp hchars, hrest⟩

end PatternAutomata
