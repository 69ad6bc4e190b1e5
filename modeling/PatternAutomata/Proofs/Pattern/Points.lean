import PatternAutomata.Proofs.Compilation

/-!
# Written and unwritten points

A concatenation may be written with a point or left unwritten.  In the explicit form no two
neighbours are left between which a point would be put, so a second pass finds nothing to do, and
all that the first pass adds are points.  In a pattern a point only stands where the pass would put
one itself: behind the end of an operand and before the beginning of another.  So taking the points
out of a pattern loses nothing, and all the ways to write its concatenations compile alike.
-/

namespace PatternAutomata

variable {text left right form : List Char} {level level' : Level} {e : Expr}

/-! ### Any text -/

/-- No two neighbours are the end of an operand and the beginning of another. -/
def IsExplicit (text : List Char) : Prop :=
  text.IsChain fun left right => joins left right = false

theorem not_joins_point_left (c : Char) : joins '.' c = false := rfl

theorem not_joins_point_right (c : Char) : joins c '.' = false :=
  Bool.and_false (endsOperand c)

theorem head?_explicitConcat (text : List Char) : (explicitConcat text).head? = text.head? := by
  cases text with
  | nil => rfl
  | cons c text => rw [explicitConcat_cons, List.head?_cons, List.head?_cons]

theorem getLast?_explicitConcat (text : List Char) :
    (explicitConcat text).getLast? = text.getLast? := by
  rcases List.eq_nil_or_concat text with rfl | ⟨text, c, rfl⟩
  · rfl
  · rw [List.concat_eq_append, explicitConcat_append, List.getLast?_concat]
    exact List.getLast?_concat

theorem isExplicit_explicitConcat (text : List Char) : IsExplicit (explicitConcat text) := by
  fun_induction explicitConcat text with
  | case1 => exact .nil
  | case2 c => exact .singleton c
  | case3 left right rest hjoins ih =>
    exact .cons_cons (not_joins_point_right left) (ih.cons fun c _ => not_joins_point_left c)
  | case4 left right rest hjoins ih =>
    apply ih.cons
    intro c hc
    rw [head?_explicitConcat, List.head?_cons] at hc
    cases hc
    exact Bool.eq_false_iff.mpr hjoins

theorem explicitConcat_of_isExplicit (h : IsExplicit text) : explicitConcat text = text := by
  fun_induction explicitConcat text with
  | case1 | case2 => rfl
  | case3 left right rest hjoins ih =>
    have hnot : joins left right = false := h.rel
    rw [hnot] at hjoins
    cases hjoins
  | case4 left right rest hjoins ih => rw [ih h.tail]

/-! ### Texts without points -/

/-- The text with its points taken out. -/
def withoutPoints (text : List Char) : List Char :=
  text.filter (· ≠ '.')

theorem withoutPoints_append (left right : List Char) :
    withoutPoints (left ++ right) = withoutPoints left ++ withoutPoints right :=
  List.filter_append left right

theorem withoutPoints_point (text : List Char) :
    withoutPoints ('.' :: text) = withoutPoints text := rfl

theorem withoutPoints_cons {c : Char} (hc : c ≠ '.') (text : List Char) :
    withoutPoints (c :: text) = c :: withoutPoints text :=
  List.filter_cons_of_pos (decide_eq_true hc)

theorem withoutPoints_concat {c : Char} (hc : c ≠ '.') (text : List Char) :
    withoutPoints (text ++ [c]) = withoutPoints text ++ [c] := by
  rw [withoutPoints_append, withoutPoints_cons hc]
  rfl

theorem withoutPoints_group (text : List Char) :
    withoutPoints ('(' :: text ++ [')']) = '(' :: withoutPoints text ++ [')'] := by
  rw [withoutPoints_concat (by decide), withoutPoints_cons (by decide)]

theorem withoutPoints_explicitConcat (text : List Char) :
    withoutPoints (explicitConcat text) = withoutPoints text := by
  fun_induction explicitConcat text with
  | case1 | case2 => rfl
  | case3 left right rest hjoins ih =>
    calc
      withoutPoints (left :: '.' :: explicitConcat (right :: rest))
          = withoutPoints [left] ++ withoutPoints ('.' :: explicitConcat (right :: rest)) :=
        withoutPoints_append [left] _
      _ = withoutPoints [left] ++ withoutPoints (right :: rest) := by rw [withoutPoints_point, ih]
      _ = withoutPoints (left :: right :: rest) := (withoutPoints_append [left] _).symm
  | case4 left right rest hjoins ih =>
    calc
      withoutPoints (left :: explicitConcat (right :: rest))
          = withoutPoints [left] ++ withoutPoints (explicitConcat (right :: rest)) :=
        withoutPoints_append [left] _
      _ = withoutPoints [left] ++ withoutPoints (right :: rest) := by rw [ih]
      _ = withoutPoints (left :: right :: rest) := (withoutPoints_append [left] _).symm

/-! ### Patterns in either form -/

theorem Derives.explicitConcat_append (hleft : Derives level left) (hright : Derives level' right) :
    explicitConcat (left ++ right) = explicitConcat left ++ '.' :: explicitConcat right := by
  obtain ⟨l, hl⟩ := hleft.exists_parses
  obtain ⟨r, hr⟩ := hright.exists_parses
  exact explicitConcat_parts hl hr

theorem beginsOperand_of_isRepeat {c : Char} (hc : isRepeat c = true) : beginsOperand c = false := by
  rcases isRepeat_iff.mp hc with rfl | rfl | rfl <;> rfl

theorem ne_point_of_isRepeat {c : Char} (hc : isRepeat c = true) : c ≠ '.' := by
  rintro rfl
  cases hc

/-- The last character of a part is no point, so it stays. -/
theorem Derives.getLast?_withoutPoints (h : Derives level text) :
    (withoutPoints text).getLast? = text.getLast? := by
  obtain ⟨c, hlast, hstart⟩ := h.exists_getLast?
  obtain ⟨before, rfl⟩ := List.getLast?_eq_some_iff.mp hlast
  have hc : c ≠ '.' := fun hc => hstart (Standing.after_eq_start_iff.mpr (.inr (.inr hc)))
  rw [withoutPoints_concat hc, List.getLast?_concat, List.getLast?_concat]

theorem derives_explicitConcat (h : Derives level text) : Derives level (explicitConcat text) := by
  induction h with
  | symbol hc => exact .symbol hc
  | group _ ih =>
    rw [explicitConcat_group]
    exact .group ih
  | once _ ih => exact .once ih
  | repeated _ hc ih =>
    rw [explicitConcat_concat (beginsOperand_of_isRepeat hc)]
    exact .repeated ih hc
  | single _ ih => exact .single ih
  | juxtaposed hleft hright ihleft ihright =>
    rw [hleft.explicitConcat_append hright]
    exact .pointed ihleft ihright
  | pointed _ _ ihleft ihright =>
    rw [explicitConcat_binary rfl rfl]
    exact .pointed ihleft ihright
  | only _ ih => exact .only ih
  | either _ hlast _ ihleft ihright =>
    rw [explicitConcat_binary rfl rfl]
    exact .either ihleft (by rwa [getLast?_explicitConcat]) ihright

theorem derives_withoutPoints (h : Derives level text) : Derives level (withoutPoints text) := by
  induction h with
  | symbol hc =>
    rw [withoutPoints_cons (ne_of_isSymbol hc rfl)]
    exact .symbol hc
  | group _ ih =>
    rw [withoutPoints_group]
    exact .group ih
  | once _ ih => exact .once ih
  | repeated _ hc ih =>
    rw [withoutPoints_concat (ne_point_of_isRepeat hc)]
    exact .repeated ih hc
  | single _ ih => exact .single ih
  | juxtaposed _ _ ihleft ihright =>
    rw [withoutPoints_append]
    exact .juxtaposed ihleft ihright
  | pointed _ _ ihleft ihright =>
    rw [withoutPoints_append, withoutPoints_point]
    exact .juxtaposed ihleft ihright
  | only _ ih => exact .only ih
  | either hleft hlast _ ihleft ihright =>
    rw [withoutPoints_append, withoutPoints_cons (by decide)]
    exact .either ihleft (by rwa [hleft.getLast?_withoutPoints]) ihright

/-- In a pattern, the points that are taken out are put back. -/
theorem explicitConcat_withoutPoints (h : Derives level text) :
    explicitConcat (withoutPoints text) = explicitConcat text := by
  induction h with
  | symbol hc =>
    rw [withoutPoints_cons (ne_of_isSymbol hc rfl)]
    rfl
  | group _ ih => rw [withoutPoints_group, explicitConcat_group, explicitConcat_group, ih]
  | once _ ih | single _ ih | only _ ih => exact ih
  | repeated _ hc ih =>
    have hbegins := beginsOperand_of_isRepeat hc
    rw [withoutPoints_concat (ne_point_of_isRepeat hc), explicitConcat_concat hbegins,
      explicitConcat_concat hbegins, ih]
  | juxtaposed hleft hright ihleft ihright =>
    have hparts := (derives_withoutPoints hleft).explicitConcat_append (derives_withoutPoints hright)
    rw [withoutPoints_append, hparts, hleft.explicitConcat_append hright, ihleft, ihright]
  | pointed hleft hright ihleft ihright =>
    have hparts := (derives_withoutPoints hleft).explicitConcat_append (derives_withoutPoints hright)
    rw [withoutPoints_append, withoutPoints_point, hparts, explicitConcat_binary rfl rfl, ihleft,
      ihright]
  | either _ _ _ ihleft ihright =>
    rw [withoutPoints_append, withoutPoints_cons (by decide), explicitConcat_binary rfl rfl,
      explicitConcat_binary rfl rfl, ihleft, ihright]

/-! ### Compiling either form -/

/-- Patterns with one explicit form have one tree. -/
theorem Derives.parses_of_explicitConcat_eq (h : Derives .alternation form)
    (htree : Parses .alternation text e) (hexplicit : explicitConcat form = explicitConcat text) :
    Parses .alternation form e := by
  obtain ⟨e', htree'⟩ := h.exists_parses
  have htokens : e'.postfixOf = e.postfixOf := by
    rw [← htree'.toPostfix_eq, hexplicit, htree.toPostfix_eq]
  rwa [Expr.postfixOf_injective htokens] at htree'

/-- **Written and unwritten points.**  Making the concatenations of a text explicit is done after one
pass, and changes nothing but points.  A pattern passes the check with all of its points written and
with none of them, both have the explicit form of the pattern, and they compile to the same postfix
and the same automaton. -/
theorem points_interchangeable (text : String) :
    explicitConcat (explicitConcat text.toList) = explicitConcat text.toList ∧
      withoutPoints (explicitConcat text.toList) = withoutPoints text.toList ∧
      (check text.toList = [] →
        ∀ form ∈ [explicitConcat text.toList, withoutPoints text.toList],
          check form = [] ∧ explicitConcat form = explicitConcat text.toList ∧
            ∀ options, ∃ tokens automaton,
              compile text options =
                .ok ⟨text, writeConcat text, tokens, automaton, options.closure⟩ ∧
              compile (String.ofList form) options =
                .ok ⟨String.ofList form, writeConcat text, tokens, automaton, options.closure⟩) := by
  have hagain := explicitConcat_of_isExplicit (isExplicit_explicitConcat text.toList)
  refine ⟨hagain, withoutPoints_explicitConcat text.toList, ?_⟩
  intro hcheck form hform
  have hpattern := derives_of_check_eq_nil hcheck
  have hsame : Derives .alternation form ∧ explicitConcat form = explicitConcat text.toList := by
    simp only [List.mem_cons, List.not_mem_nil, or_false] at hform
    rcases hform with rfl | rfl
    · exact ⟨derives_explicitConcat hpattern, hagain⟩
    · exact ⟨derives_withoutPoints hpattern, explicitConcat_withoutPoints hpattern⟩
  obtain ⟨hderives, hexplicit⟩ := hsame
  have hcheck' : check form = [] := (check_eq_nil_iff_derives form).mpr hderives
  refine ⟨hcheck', hexplicit, ?_⟩
  intro options
  obtain ⟨e, htree⟩ := hpattern.exists_parses
  obtain ⟨-, automaton, -, -, hassemble, -⟩ := exists_assemble e options
  refine ⟨e.postfixOf, automaton, compile_eq hcheck htree hassemble, ?_⟩
  have hform' : (String.ofList form).toList = form := String.toList_ofList
  have hconcat : writeConcat (String.ofList form) = writeConcat text := by
    rw [writeConcat, writeConcat, hform', hexplicit]
  rw [← hconcat]
  apply compile_eq
  · rw [hform', hcheck']
  · rw [hform']
    exact hderives.parses_of_explicitConcat_eq htree hexplicit
  · exact hassemble

/-- Points beside groups and repeats. -/
theorem points_interchangeable_of_groups :
    check "a*.(b.c|d)e".toList = [] ∧
      explicitConcat "a*.(b.c|d)e".toList = "a*.(b.c|d).e".toList ∧
      withoutPoints "a*.(b.c|d)e".toList = "a*(bc|d)e".toList ∧
      ∀ options, ∃ tokens automaton,
        compile "a*.(b.c|d)e" options =
          .ok ⟨"a*.(b.c|d)e", "a*.(b.c|d).e", tokens, automaton, options.closure⟩ ∧
        compile "a*(bc|d)e" options =
          .ok ⟨"a*(bc|d)e", "a*.(b.c|d).e", tokens, automaton, options.closure⟩ := by
  have hcheck : check "a*.(b.c|d)e".toList = [] := by decide
  have hform : withoutPoints "a*.(b.c|d)e".toList = "a*(bc|d)e".toList := by decide
  refine ⟨hcheck, by decide, hform, ?_⟩
  intro options
  have hforms := (points_interchangeable "a*.(b.c|d)e").2.2 hcheck
  exact (hforms "a*(bc|d)e".toList (by simp [← hform])).2.2 options

end PatternAutomata
