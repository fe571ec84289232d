import Mathlib.Algebra.BigOperators.Group.Finset.Piecewise
import Mathlib.Algebra.Order.BigOperators.Group.Finset

/-!
# Sums over a finite type under a point update

Ledgers kept as sums over a finite index: what one update of the summed table does to the sum.
-/

namespace Xv6

open Finset
open Function (update_of_ne update_self)

variable {ι α : Type*} [DecidableEq ι]
variable {f g : ι → Nat}

theorem sum_balance_on (s : Finset ι) {i : ι} (hi : i ∈ s)
    (h : ∀ j, j ≠ i → g j = f j) : (∑ j ∈ s, g j) + f i = (∑ j ∈ s, f j) + g i := by
  rw [← add_sum_erase s g hi, ← add_sum_erase s f hi]
  have hrest : ∑ j ∈ s.erase i, g j = ∑ j ∈ s.erase i, f j :=
    sum_congr rfl fun j hj => h j (ne_of_mem_erase hj)
  omega

theorem sum_balance [Fintype ι] (i : ι) (h : ∀ j, j ≠ i → g j = f j) :
    (∑ j, g j) + f i = (∑ j, f j) + g i :=
  sum_balance_on univ (mem_univ i) h

theorem sum_balance_two [Fintype ι] {i k : ι} (hik : i ≠ k) (h : ∀ j, j ≠ i → j ≠ k → g j = f j) :
    (∑ j, g j) + (f i + f k) = (∑ j, f j) + (g i + g k) := by
  have hi := sum_balance (f := f) (g := Function.update f i (g i)) i
    (fun j hj => update_of_ne hj ..)
  have hk := sum_balance (f := Function.update f i (g i)) (g := g) k fun j hj => by
    by_cases hji : j = i
    · rw [hji, update_self]
    · rw [update_of_ne hji, h j hji hj]
  rw [update_self] at hi
  rw [update_of_ne hik.symm] at hk
  omega

theorem sum_update_balance [Fintype ι] (f : ι → α → Nat) (g : ι → α) (i : ι) (v : α) :
    (∑ j, f j (Function.update g i v j)) + f i (g i) = (∑ j, f j (g j)) + f i v := by
  have hbal := sum_balance (f := fun j => f j (g j)) (g := fun j => f j (Function.update g i v j)) i
    (fun j hj => by simp only [update_of_ne hj])
  simpa only [update_self] using hbal

omit [DecidableEq ι] in
theorem le_sum_univ [Fintype ι] (f : ι → Nat) (i : ι) : f i ≤ ∑ j, f j :=
  single_le_sum (fun _ _ => Nat.zero_le _) (mem_univ i)

theorem add_le_sum_univ [Fintype ι] (f : ι → Nat) {i j : ι} (hij : i ≠ j) : f i + f j ≤ ∑ k, f k := by
  rw [← add_sum_erase univ f (mem_univ i)]
  have hj : j ∈ univ.erase i := by simp [hij.symm]
  have hle := single_le_sum (f := f) (fun _ _ => Nat.zero_le _) hj
  omega

theorem count_erase_add {m : Multiset ι} {a : ι} (ha : a ∈ m) (b : ι) :
    m.count b = (m.erase a).count b + if b = a then 1 else 0 := by
  conv_lhs => rw [← Multiset.cons_erase ha, Multiset.count_cons]

theorem countP_eq_sum {β : Type*} [DecidableEq β] (t : Finset β) (f : α → β) (q : α → Prop)
    (r : β → Prop) [DecidablePred q] [DecidablePred r] (l : List α) (h : ∀ x ∈ l, q x → f x ∈ t) :
    l.countP (fun x => q x ∧ r (f x)) =
      ∑ c ∈ t, if r c then l.countP (fun x => q x ∧ f x = c) else 0 := by
  induction l with
  | nil => simp
  | cons x l ih =>
    have hx : ∑ c ∈ t, (if r c then if q x ∧ f x = c then 1 else 0 else 0) =
        if q x ∧ r (f x) then 1 else 0 := by
      by_cases hq : q x
      · simp only [hq, true_and, ← ite_and, and_comm (a := r _)]
        simp only [ite_and]
        rw [sum_ite_eq t (f x) (fun c => if r c then 1 else 0), if_pos (h x (by simp) hq)]
      · simp [hq]
    rw [List.countP_cons, ih fun y hy => h y (List.mem_cons_of_mem x hy)]
    simp only [List.countP_cons, decide_eq_true_eq]
    rw [← hx, ← sum_add_distrib]
    refine sum_congr rfl fun c _ => ?_
    split <;> simp

end Xv6
