import Mathlib.Data.List.Cycle

/-!
# Rings linked in one direction

Every node has a pointer to the next one.  A list of nodes is closed if the pointers lead through it and
from its end back to its start; where the list starts does not matter.
-/

namespace Xv6

variable {α : Type}

/-- From each node of the list the pointer leads to the one after it, and from the last to the first. -/
def Closed (next : α → α) (l : List α) : Prop := Cycle.Chain (fun a b => next a = b) (l : Cycle α)

/-- `for(p = a; !stop(p); p = p->next) ;`, for `n` nodes at most -/
def search (next : α → α) (stop : α → Bool) : Nat → α → Option α
  | 0, _ => none
  | n + 1, a => if stop a then some a else search next stop n (next a)

variable {next next' : α → α} {a b c : α} {l l₁ l₂ : List α}

theorem closed_cons : Closed next (a :: l) ↔ (a :: (l ++ [a])).IsChain fun a b => next a = b :=
  Cycle.chain_coe_cons ..

theorem Closed.rotate (h : Closed next (l₁ ++ l₂)) : Closed next (l₂ ++ l₁) := by
  unfold Closed at h ⊢
  have hrotated : (l₂ ++ l₁).IsRotated (l₁ ++ l₂) := List.isRotated_append
  rwa [Cycle.coe_eq_coe.mpr hrotated]

theorem isChain_congr (h : (l ++ [c]).IsChain fun a b => next a = b) (heq : ∀ x ∈ l, next' x = next x) :
    (l ++ [c]).IsChain fun a b => next' a = b := by
  induction l with
  | nil => exact .singleton c
  | cons x l ih =>
    rw [List.cons_append, List.isChain_cons] at h ⊢
    refine ⟨?_, ih h.2 fun y hy => heq y (List.mem_cons_of_mem _ hy)⟩
    rw [heq x List.mem_cons_self]
    exact h.1

theorem Closed.head?_eq (h : Closed next (l₁ ++ a :: l₂)) : (l₂ ++ l₁ ++ [a]).head? = some (next a) := by
  have hrot := h.rotate
  rw [List.cons_append, closed_cons] at hrot
  cases hhead : (l₂ ++ l₁ ++ [a]).head? with
  | none => simp at hhead
  | some b => rw [hrot.rel_head? hhead]

theorem Closed.insert (h : Closed next (l₁ ++ a :: l₂)) (ha : next' a = b) (hb : next' b = next a)
    (heq : ∀ x ∈ l₁ ++ l₂, next' x = next x) : Closed next' (l₁ ++ a :: b :: l₂) := by
  apply Closed.rotate
  have hrot := h.rotate
  rw [List.cons_append, closed_cons, List.isChain_cons] at hrot
  rw [List.cons_append, closed_cons, List.cons_append, List.cons_append, List.isChain_cons_cons]
  refine ⟨ha, ?_⟩
  rw [List.isChain_cons, hb]
  refine ⟨hrot.1, isChain_congr hrot.2 ?_⟩
  intro x hx
  exact heq x (by simpa [or_comm] using hx)

theorem Closed.remove (h : Closed next (l₁ ++ a :: b :: l₂)) (ha : next' a = next b)
    (heq : ∀ x ∈ l₁ ++ l₂, next' x = next x) : Closed next' (l₁ ++ a :: l₂) := by
  apply Closed.rotate
  have hrot := h.rotate
  rw [List.cons_append, closed_cons, List.cons_append, List.cons_append, List.isChain_cons_cons] at hrot
  have htail := List.isChain_cons.mp hrot.2
  rw [List.cons_append, closed_cons, List.isChain_cons, ha]
  refine ⟨htail.1, isChain_congr htail.2 ?_⟩
  intro x hx
  exact heq x (by simpa [or_comm] using hx)

theorem Closed.congr (h : Closed next l) (heq : ∀ x ∈ l, next' x = next x) : Closed next' l := by
  cases l with
  | nil => exact h
  | cons a l =>
    rw [closed_cons, ← List.cons_append] at h ⊢
    exact isChain_congr h heq

theorem search_closed {stop : α → Bool} {n : Nat} (h : Closed next l) (ha : a ∈ l)
    (hstop : ∃ z ∈ l, stop z) (hn : l.length ≤ n) :
    ∃ y ∈ l, stop y ∧ search next stop n a = some y := by
  have along (m : List α) : ∀ (n : Nat) (a : α), (a :: m).IsChain (fun a b => next a = b) →
      (∃ z ∈ a :: m, stop z) → (a :: m).length ≤ n →
      ∃ y ∈ a :: m, stop y ∧ search next stop n a = some y := by
    induction m with
    | nil =>
      rintro n a - ⟨z, hz, hz'⟩ hn
      obtain rfl : z = a := by simpa using hz
      obtain ⟨n, rfl⟩ := Nat.exists_eq_succ_of_ne_zero (by simp at hn; omega : n ≠ 0)
      exact ⟨z, by simp, hz', by rw [search, if_pos hz']⟩
    | cons b m ih =>
      rintro n a hchain ⟨z, hz, hz'⟩ hn
      obtain ⟨n, rfl⟩ := Nat.exists_eq_succ_of_ne_zero (by simp at hn; omega : n ≠ 0)
      obtain ⟨hab, htail⟩ := List.isChain_cons_cons.mp hchain
      by_cases hstop : stop a
      · exact ⟨a, by simp, hstop, by rw [search, if_pos hstop]⟩
      · have hz'' : z ∈ b :: m := (List.mem_cons.mp hz).resolve_left (by rintro rfl; exact hstop hz')
        obtain ⟨y, hy, hy', hfound⟩ := ih n b htail ⟨z, hz'', hz'⟩ (by simpa using hn)
        exact ⟨y, List.mem_cons_of_mem _ hy, hy', by rw [search, if_neg hstop, hab, hfound]⟩
  obtain ⟨l₁, l₂, rfl⟩ := List.append_of_mem ha
  have hrot := h.rotate
  rw [List.cons_append, closed_cons, ← List.cons_append] at hrot
  have hmem : ∀ x, x ∈ a :: (l₂ ++ l₁) ↔ x ∈ l₁ ++ a :: l₂ := by
    intro x
    simp only [List.mem_cons, List.mem_append]
    tauto
  obtain ⟨z, hz, hz'⟩ := hstop
  obtain ⟨y, hy, hfound⟩ := along (l₂ ++ l₁) n a hrot.left_of_append ⟨z, (hmem z).mpr hz, hz'⟩
    (by simp only [List.length_append, List.length_cons] at hn ⊢; omega)
  exact ⟨y, (hmem y).mp hy, hfound⟩

end Xv6
