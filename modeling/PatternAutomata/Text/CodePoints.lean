/-!
# Sets of code points

A property of characters, such as "is white space", is a set of code points.  The sets that a
standard fixes consist of many short ranges, so a set is kept as the ascending list of the code
points at which membership changes: the first is the least member, the second the least
non-member above it, and so on.
-/

namespace PatternAutomata.Text

/-- A set of code points, given by the ascending code points at which membership changes. -/
structure CodePoints where
  changes : List Nat

namespace CodePoints

/-- Membership of `n` after the changes of the list, if membership was `inside` before them. -/
def memberAfter (n : Nat) (inside : Bool) : List Nat → Bool
  | [] => inside
  | change :: rest => if change ≤ n then memberAfter n (!inside) rest else inside

def contains (set : CodePoints) (c : Char) : Bool :=
  memberAfter c.toNat false set.changes

theorem memberAfter_of_lt {n first : Nat} {rest : List Nat} (inside : Bool) (h : n < first) :
    memberAfter n inside (first :: rest) = inside := by
  simp [memberAfter, Nat.not_le.mpr h]

end CodePoints

end PatternAutomata.Text
