import Mathlib.Data.List.Nodup
import Mathlib.Logic.Function.Basic

/-!
# Circular doubly linked lists

Nodes are linked by `next` and `prev`.  A circle runs from its head through the nodes of a list and
back to the head, each link in one direction matched by one in the other.
-/

namespace Xv6

open Function (update_of_ne update_self)

variable {α : Type}

structure Links (α : Type) where
  next : α → α
  prev : α → α

namespace Links

/-- From `a` through the nodes of the list to `b` -/
def Path (k : Links α) : α → List α → α → Prop
  | a, [], b => k.next a = b ∧ k.prev b = a
  | a, x :: l, b => k.next a = x ∧ k.prev x = a ∧ Path k x l b

structure Circle (k : Links α) (head : α) (l : List α) : Prop where
  path : k.Path head l head
  nodup : (head :: l).Nodup

/-- The first node that meets `test`, going on with `step` until the head is reached.  The outer
`none` says that the steps allowed did not lead back to the head. -/
def walk [DecidableEq α] (step : α → α) (head : α) (test : α → Bool) : Nat → α → Option (Option α)
  | 0, _ => none
  | n + 1, a =>
    if a = head then some none
    else if test a then some (some a)
    else walk step head test n (step a)

/-- The links with the directions exchanged -/
def swap (k : Links α) : Links α := ⟨k.prev, k.next⟩

section

variable [DecidableEq α]

/-- `b->next->prev = b->prev; b->prev->next = b->next` -/
def unlink (k : Links α) (b : α) : Links α :=
  let k := { k with prev := Function.update k.prev (k.next b) (k.prev b) }
  { k with next := Function.update k.next (k.prev b) (k.next b) }

/-- `b->next = head->next; b->prev = head; head->next->prev = b; head->next = b` -/
def pushFront (k : Links α) (head b : α) : Links α :=
  let k := { k with next := Function.update k.next b (k.next head) }
  let k := { k with prev := Function.update k.prev b head }
  let k := { k with prev := Function.update k.prev (k.next head) b }
  { k with next := Function.update k.next head b }

end

variable {k k' : Links α} {a b c : α} {l : List α}

theorem path_append {l₁ l₂ : List α} :
    k.Path a (l₁ ++ b :: l₂) c ↔ k.Path a l₁ b ∧ k.Path b l₂ c := by
  induction l₁ generalizing a with
  | nil => simp only [List.nil_append, Path, and_assoc]
  | cons x l₁ ih => simp only [List.cons_append, Path, ih, and_assoc]

theorem Path.congr (h : k.Path a l b) (hnext : ∀ x ∈ a :: l, k'.next x = k.next x)
    (hprev : ∀ x ∈ l ++ [b], k'.prev x = k.prev x) : k'.Path a l b := by
  induction l generalizing a with
  | nil => exact ⟨(hnext a (by simp)).trans h.1, (hprev b (by simp)).trans h.2⟩
  | cons x l ih =>
    refine ⟨(hnext a (by simp)).trans h.1, (hprev x (by simp)).trans h.2.1, ih h.2.2 ?_ ?_⟩
    · exact fun y hy => hnext y (List.mem_cons_of_mem _ hy)
    · exact fun y hy => hprev y (by simpa using .inr (by simpa using hy))

theorem Path.prev_mem (h : k.Path a l b) : k.prev b ∈ a :: l := by
  induction l generalizing a with
  | nil => simp [h.2]
  | cons x l ih => exact List.mem_cons_of_mem _ (ih h.2.2)

theorem Path.redirect (h : k.Path a l b) (hnodup : (a :: l).Nodup) (hlast : k'.next (k.prev b) = c)
    (hback : k'.prev c = k.prev b) (hnext : ∀ x ∈ a :: l, x ≠ k.prev b → k'.next x = k.next x)
    (hprev : ∀ x ∈ l, k'.prev x = k.prev x) : k'.Path a l c := by
  induction l generalizing a with
  | nil =>
    rw [h.2] at hlast hback
    exact ⟨hlast, hback⟩
  | cons x l ih =>
    obtain ⟨hax, hxa, hrest⟩ := h
    have hne : a ≠ k.prev b := by
      intro heq
      exact (List.nodup_cons.mp hnodup).1 (heq ▸ hrest.prev_mem)
    refine ⟨(hnext a (by simp) hne).trans hax, (hprev x (by simp)).trans hxa, ih hrest ?_ ?_ ?_⟩
    · exact (List.nodup_cons.mp hnodup).2
    · exact fun y hy => hnext y (List.mem_cons_of_mem _ hy)
    · exact fun y hy => hprev y (List.mem_cons_of_mem _ hy)

theorem Path.swap (h : k.Path a l b) : k.swap.Path b l.reverse a := by
  induction l generalizing a with
  | nil => exact ⟨h.2, h.1⟩
  | cons x l ih =>
    rw [List.reverse_cons, path_append]
    exact ⟨ih h.2.2, h.2.1, h.1⟩

namespace Circle

variable {head : α}

theorem swap (h : k.Circle head l) : k.swap.Circle head l.reverse := by
  refine ⟨h.path.swap, ?_⟩
  have hnodup := List.nodup_cons.mp h.nodup
  exact List.nodup_cons.mpr ⟨by simpa using hnodup.1, List.nodup_reverse.mpr hnodup.2⟩

theorem prev_next (h : k.Circle head l) {x : α} (hx : x ∈ head :: l) : k.prev (k.next x) = x := by
  have hpath : ∀ {a l b}, k.Path a l b → x ∈ a :: l → k.prev (k.next x) = x := by
    intro a l b hpath hx
    induction l generalizing a with
    | nil =>
      obtain rfl : x = a := by simpa using hx
      rw [hpath.1, hpath.2]
    | cons y l ih =>
      rcases List.mem_cons.mp hx with rfl | hx
      · rw [hpath.1, hpath.2.1]
      · exact ih hpath.2.2 hx
  exact hpath h.path hx

theorem next_prev (h : k.Circle head l) {x : α} (hx : x ∈ head :: l) : k.next (k.prev x) = x :=
  h.swap.prev_next (by simpa using hx)

variable [DecidableEq α]

theorem walk_eq (h : k.Circle head l) {n : Nat} (hn : l.length < n) (test : α → Bool) :
    walk k.next head test n (k.next head) = some (l.find? test) := by
  have hpath : ∀ {a l n}, k.Path a l head → head ∉ l → l.length < n →
      walk k.next head test n (k.next a) = some (l.find? test) := by
    intro a l n hpath hhead hn
    induction l generalizing a n with
    | nil =>
      obtain ⟨n, rfl⟩ : ∃ m, n = m + 1 := ⟨n - 1, by simp at hn; omega⟩
      rw [hpath.1, walk, if_pos rfl]
      rfl
    | cons x l ih =>
      obtain ⟨n, rfl⟩ : ∃ m, n = m + 1 := ⟨n - 1, by simp at hn; omega⟩
      obtain ⟨hne, hrest⟩ := not_or.mp (List.mem_cons.not.mp hhead)
      rw [hpath.1, walk, if_neg (Ne.symm hne)]
      by_cases htest : test x = true
      · rw [if_pos htest, List.find?_cons_of_pos htest]
      · rw [if_neg htest, List.find?_cons_of_neg htest]
        exact ih hpath.2.2 hrest (by simpa using hn)
  exact hpath h.path (List.nodup_cons.mp h.nodup).1 hn

theorem walk_prev_eq (h : k.Circle head l) {n : Nat} (hn : l.length < n) (test : α → Bool) :
    walk k.prev head test n (k.prev head) = some (l.reverse.find? test) :=
  h.swap.walk_eq (by simpa using hn) test

theorem unlink {l₁ l₂ : List α} (h : k.Circle head (l₁ ++ b :: l₂)) :
    (k.unlink b).Circle head (l₁ ++ l₂) := by
  obtain ⟨hpath₁, hpath₂⟩ := path_append.mp h.path
  obtain ⟨hnodup₁, hnodup₂, hdisjoint⟩ := List.nodup_append.mp
    (show (head :: l₁ ++ b :: l₂).Nodup from h.nodup)
  obtain ⟨hb, hnodup₂⟩ := List.nodup_cons.mp hnodup₂
  have hmem := hpath₁.prev_mem
  -- `b->next` is the head or the first node behind `b`.
  have hc : k.next b ≠ b := by
    cases l₂ with
    | nil => exact fun heq => hdisjoint head (by simp) b (by simp) (hpath₂.1.symm.trans heq)
    | cons x l₂ => exact fun heq => hb (by simp [← hpath₂.1, heq])
  have hprev : (k.unlink b).prev = Function.update k.prev (k.next b) (k.prev b) := rfl
  have hnext : (k.unlink b).next = Function.update k.next (k.prev b) (k.next b) := by
    simp [Links.unlink, update_of_ne (Ne.symm hc)]
  have hkeep : ∀ x, x ≠ k.prev b → (k.unlink b).next x = k.next x := by
    intro x hx
    rw [hnext, update_of_ne hx]
  have hkeep' : ∀ x, x ≠ k.next b → (k.unlink b).prev x = k.prev x := by
    intro x hx
    rw [hprev, update_of_ne hx]
  have hleft : (∀ x ∈ l₁, x ≠ k.next b) → (k.unlink b).Path head l₁ (k.next b) := by
    intro hne
    refine hpath₁.redirect hnodup₁ ?_ ?_ (fun x _ hx => hkeep x hx) (fun x hx => hkeep' x (hne x hx))
    · rw [hnext, update_self]
    · rw [hprev, update_self]
  refine ⟨?_, ?_⟩
  · cases l₂ with
    | nil =>
      have hhead := hpath₂.1
      rw [List.append_nil]
      rw [hhead] at hleft
      exact hleft fun x hx heq => (List.nodup_cons.mp hnodup₁).1 (heq ▸ hx)
    | cons x l₂ =>
      obtain ⟨hx, -, hrest⟩ := hpath₂
      obtain ⟨hxl, -⟩ := List.nodup_cons.mp hnodup₂
      have hdis : ∀ y ∈ head :: l₁, y ∉ x :: l₂ :=
        fun y hy hy' => hdisjoint y hy y (List.mem_cons_of_mem _ hy') rfl
      rw [hx] at hleft hkeep'
      refine path_append.mpr ⟨hleft ?_, hrest.congr ?_ ?_⟩
      · rintro y hy rfl
        exact hdis y (List.mem_cons_of_mem _ hy) (by simp)
      · rintro y hy
        exact hkeep y fun heq => hdis _ hmem (heq ▸ hy)
      · intro y hy
        refine hkeep' y ?_
        rintro rfl
        rcases List.mem_append.mp hy with hy | hy
        · exact hxl hy
        · exact hdis y (by simpa using .inl (List.mem_singleton.mp hy)) (by simp)
  · refine h.nodup.sublist ?_
    exact ((List.sublist_cons_self b l₂).append_left l₁).cons_cons head

theorem pushFront (h : k.Circle head l) (hb : b ∉ head :: l) :
    (k.pushFront head b).Circle head (b :: l) := by
  obtain ⟨hbh, hbl⟩ := not_or.mp (List.mem_cons.not.mp hb)
  have hc : k.next head ∈ l ++ [head] := by
    cases l with
    | nil => simp [h.path.1]
    | cons x l => simp [h.path.1]
  have hcb : k.next head ≠ b := by
    rintro rfl
    rcases List.mem_append.mp hc with hc | hc
    · exact hbl hc
    · exact hbh (List.mem_singleton.mp hc)
  have hnext : (k.pushFront head b).next =
      Function.update (Function.update k.next b (k.next head)) head b := rfl
  have hprev : (k.pushFront head b).prev =
      Function.update (Function.update k.prev b head) (k.next head) b := by
    simp [Links.pushFront, update_of_ne (Ne.symm hbh)]
  refine ⟨⟨?_, ?_, ?_⟩, ?_⟩
  · rw [hnext, update_self]
  · rw [hprev, update_of_ne (Ne.symm hcb), update_self]
  · -- From `b` the path goes on as it did from the head.
    have hhead : head ∉ l := (List.nodup_cons.mp h.nodup).1
    have hbnext : (k.pushFront head b).next b = k.next head := by
      rw [hnext, update_of_ne hbh, update_self]
    have hcprev : (k.pushFront head b).prev (k.next head) = b := by
      rw [hprev, update_self]
    cases l with
    | nil =>
      rw [h.path.1] at hbnext hcprev
      exact ⟨hbnext, hcprev⟩
    | cons x l =>
      obtain ⟨hx, -, hrest⟩ := h.path
      rw [hx] at hbnext hcprev
      refine ⟨hbnext, hcprev, hrest.congr ?_ ?_⟩
      · intro y hy
        have hyh : y ≠ head := fun heq => hhead (heq ▸ hy)
        have hyb : y ≠ b := fun heq => hbl (heq ▸ hy)
        rw [hnext, update_of_ne hyh, update_of_ne hyb]
      · intro y hy
        have hyx : y ≠ k.next head := by
          rw [hx]
          rintro rfl
          rcases List.mem_append.mp hy with hy | hy
          · exact (List.nodup_cons.mp (List.nodup_cons.mp h.nodup).2).1 hy
          · exact hhead (by simp [← List.mem_singleton.mp hy])
        have hyb : y ≠ b := by
          rintro rfl
          rcases List.mem_append.mp hy with hy | hy
          · exact hbl (List.mem_cons_of_mem _ hy)
          · exact hbh (List.mem_singleton.mp hy)
        rw [hprev, update_of_ne hyx, update_of_ne hyb]
  · refine List.nodup_cons.mpr ⟨?_, List.nodup_cons.mpr ⟨hbl, (List.nodup_cons.mp h.nodup).2⟩⟩
    simp only [List.mem_cons, not_or]
    exact ⟨Ne.symm hbh, (List.nodup_cons.mp h.nodup).1⟩

end Circle

end Links

end Xv6
