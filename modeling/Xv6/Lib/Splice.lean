import Mathlib.Data.List.Basic
import Mathlib.Data.List.TakeDrop

/-!
# Overwriting a part of a list

`splice c off l` is `c` with the elements from `off` on replaced by those of `l`, which may reach past
the end.
-/

namespace Xv6

variable {α : Type} {c l l' : List α} {off : Nat}

def splice (c : List α) (off : Nat) (l : List α) : List α :=
  c.take off ++ l ++ c.drop (off + l.length)

theorem splice_nil (c : List α) (off : Nat) : splice c off [] = c := by
  rw [splice, List.append_nil, List.length_nil, Nat.add_zero, List.take_append_drop]

theorem length_splice (h : off ≤ c.length) : (splice c off l).length = max c.length (off + l.length) := by
  rw [splice, List.length_append, List.length_append, List.length_take, List.length_drop]
  omega

theorem splice_splice (h : off ≤ c.length) :
    splice (splice c off l) (off + l.length) l' = splice c off (l ++ l') := by
  have hleft : (c.take off ++ l).length = off + l.length := by
    rw [List.length_append, List.length_take, Nat.min_eq_left h]
  have htake : (splice c off l).take (off + l.length) = c.take off ++ l := List.take_left' hleft
  have hdrop : (splice c off l).drop (off + l.length + l'.length) =
      c.drop (off + (l.length + l'.length)) := by
    rw [splice, List.drop_append, hleft, List.drop_eq_nil_of_le (by omega), List.nil_append,
      List.drop_drop]
    congr 1
    omega
  rw [splice, htake, hdrop, splice, List.append_assoc (c.take off) l l', List.length_append]

end Xv6
