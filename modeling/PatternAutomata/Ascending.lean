/-!
# Ascending lists

A finite set of keyed values is kept as the list of its members with strictly ascending keys.  There
is one such list for each set, so equality of lists is equality of sets.
-/

namespace PatternAutomata

variable {α : Type} {key : α → Nat}

def Ascending (key : α → Nat) (xs : List α) : Prop :=
  xs.Pairwise (fun x y => key x < key y)

/-- Inserts a value at its place; a value whose key is there already changes nothing. -/
def insertAscending (key : α → Nat) (x : α) : List α → List α
  | [] => [x]
  | y :: ys =>
    if key x < key y then x :: y :: ys
    else if key x = key y then y :: ys
    else y :: insertAscending key x ys

def ascendingOf (key : α → Nat) (xs : List α) : List α :=
  xs.foldl (fun sorted x => insertAscending key x sorted) []

theorem Ascending.nil : Ascending key ([] : List α) := List.Pairwise.nil

theorem mem_of_mem_insertAscending {x z : α} {xs : List α}
    (h : z ∈ insertAscending key x xs) : z = x ∨ z ∈ xs := by
  induction xs with
  | nil => exact .inl (List.mem_singleton.mp h)
  | cons y ys ih =>
    simp only [insertAscending] at h
    split at h
    · exact List.mem_cons.mp h
    · split at h
      · exact .inr h
      · rcases List.mem_cons.mp h with rfl | h
        · exact .inr (List.mem_cons_self ..)
        · exact (ih h).imp_right (List.mem_cons_of_mem y)

theorem mem_insertAscending_of_mem {x z : α} {xs : List α} (h : z ∈ xs) :
    z ∈ insertAscending key x xs := by
  induction xs with
  | nil => cases h
  | cons y ys ih =>
    simp only [insertAscending]
    split
    · exact List.mem_cons_of_mem x h
    · split
      · exact h
      · rcases List.mem_cons.mp h with rfl | h
        · exact List.mem_cons_self ..
        · exact List.mem_cons_of_mem y (ih h)

theorem exists_mem_insertAscending (x : α) (xs : List α) :
    ∃ z ∈ insertAscending key x xs, key z = key x := by
  induction xs with
  | nil => exact ⟨x, List.mem_singleton.mpr rfl, rfl⟩
  | cons y ys ih =>
    simp only [insertAscending]
    split
    · exact ⟨x, List.mem_cons_self .., rfl⟩
    · split
      · next h => exact ⟨y, List.mem_cons_self .., h.symm⟩
      · obtain ⟨z, hz, hk⟩ := ih
        exact ⟨z, List.mem_cons_of_mem y hz, hk⟩

/-- Where a key has one value only, an insertion adds exactly the inserted value. -/
theorem mem_insertAscending (hkey : Function.Injective key) {x z : α} {xs : List α} :
    z ∈ insertAscending key x xs ↔ z = x ∨ z ∈ xs := by
  constructor
  · exact mem_of_mem_insertAscending
  · rintro (rfl | h)
    · obtain ⟨y, hy, hk⟩ := @exists_mem_insertAscending _ key z xs
      exact hkey hk ▸ hy
    · exact mem_insertAscending_of_mem h

theorem Ascending.nodup {xs : List α} (h : Ascending key xs) : xs.Nodup := by
  refine List.Pairwise.imp ?_ h
  rintro x y hlt rfl
  exact Nat.lt_irrefl _ hlt

/-- A value whose key is new joins the others and changes none of them. -/
theorem perm_insertAscending {x : α} {xs : List α} (h : ∀ y ∈ xs, key x ≠ key y) :
    (insertAscending key x xs).Perm (x :: xs) := by
  induction xs with
  | nil => exact .refl _
  | cons y ys ih =>
    have hxy : key x ≠ key y := h y (List.mem_cons_self ..)
    simp only [insertAscending, if_neg hxy]
    split
    · exact .refl _
    · have hrest := ih fun z hz => h z (List.mem_cons_of_mem y hz)
      exact (hrest.cons y).trans (.swap x y ys)

theorem Ascending.insert {x : α} {xs : List α} (h : Ascending key xs) :
    Ascending key (insertAscending key x xs) := by
  induction xs with
  | nil => exact List.pairwise_singleton ..
  | cons y ys ih =>
    have hy := List.pairwise_cons.mp h
    simp only [insertAscending]
    split
    · next hxy =>
      refine List.pairwise_cons.mpr ⟨fun z hz => ?_, h⟩
      rcases List.mem_cons.mp hz with rfl | hz
      · exact hxy
      · exact Nat.lt_trans hxy (hy.1 z hz)
    · split
      · exact h
      · next hxy hne =>
        refine List.pairwise_cons.mpr ⟨fun z hz => ?_, ih hy.2⟩
        rcases mem_of_mem_insertAscending hz with rfl | hz
        · omega
        · exact hy.1 z hz

private theorem Ascending.foldl_insert (xs : List α) {sorted : List α} (h : Ascending key sorted) :
    Ascending key (xs.foldl (fun sorted x => insertAscending key x sorted) sorted) := by
  induction xs generalizing sorted with
  | nil => exact h
  | cons x xs ih => exact ih h.insert

/-- The members of a list, inserted one after the other, ascend. -/
theorem ascending_ascendingOf (xs : List α) : Ascending key (ascendingOf key xs) :=
  Ascending.foldl_insert xs .nil

private theorem mem_foldl_insertAscending (hkey : Function.Injective key) {z : α}
    {xs sorted : List α} :
    z ∈ xs.foldl (fun sorted x => insertAscending key x sorted) sorted ↔ z ∈ sorted ∨ z ∈ xs := by
  induction xs generalizing sorted with
  | nil => simp
  | cons x xs ih =>
    rw [List.foldl_cons, ih, mem_insertAscending hkey, List.mem_cons, or_assoc, or_left_comm]

/-- Where a key has one value only, the ascending list has the members of the list. -/
theorem mem_ascendingOf (hkey : Function.Injective key) {z : α} {xs : List α} :
    z ∈ ascendingOf key xs ↔ z ∈ xs := by
  simp [ascendingOf, mem_foldl_insertAscending hkey]

theorem Ascending.eq_of_mem_iff {xs ys : List α} (hxs : Ascending key xs) (hys : Ascending key ys)
    (h : ∀ z, z ∈ xs ↔ z ∈ ys) : xs = ys := by
  induction xs generalizing ys with
  | nil => exact (List.eq_nil_iff_forall_not_mem.mpr fun z hz => nomatch (h z).mpr hz).symm
  | cons x xs ih =>
    cases ys with
    | nil => exact nomatch (h x).mp (List.mem_cons_self ..)
    | cons y ys =>
      obtain ⟨hx, hrest⟩ := List.pairwise_cons.mp hxs
      obtain ⟨hy, hrest'⟩ := List.pairwise_cons.mp hys
      have hxy : x = y := by
        rcases List.mem_cons.mp ((h x).mp (List.mem_cons_self ..)) with hxy | hxy
        · exact hxy
        · rcases List.mem_cons.mp ((h y).mpr (List.mem_cons_self ..)) with hyx | hyx
          · exact hyx.symm
          · exact absurd (hy x hxy) (Nat.lt_asymm (hx y hyx))
      subst hxy
      refine congrArg (x :: ·) (ih hrest hrest' fun z => ⟨fun hz => ?_, fun hz => ?_⟩)
      · rcases List.mem_cons.mp ((h z).mp (List.mem_cons_of_mem x hz)) with rfl | hz'
        · exact absurd (hx z hz) (Nat.lt_irrefl _)
        · exact hz'
      · rcases List.mem_cons.mp ((h z).mpr (List.mem_cons_of_mem x hz)) with rfl | hz'
        · exact absurd (hy z hz) (Nat.lt_irrefl _)
        · exact hz'

end PatternAutomata
