import Mathlib.Data.List.Basic
import Mathlib.Logic.Function.Basic

/-!
# Queues linked in one direction

A queue has a pointer to its first node, and each node one to the next.  Nodes are added at the end,
which a loop looks for, and taken from the front.
-/

namespace Xv6

variable {α : Type}

structure Queue (α : Type) where
  head : Option α
  next : α → Option α

namespace Queue

/-- From the pointer through the nodes of the list to the end -/
def Seg (next : α → Option α) : Option α → List α → Prop
  | first, [] => first = none
  | first, a :: l => first = some a ∧ Seg next (next a) l

/-- The queue has the nodes of the list. -/
def Holds (q : Queue α) (l : List α) : Prop := Seg q.next q.head l

/-- The last node, if there are not more than `n` nodes from `a` on. -/
def last (next : α → Option α) : Nat → α → Option α
  | 0, _ => none
  | n + 1, a =>
    match next a with
    | none => some a
    | some b => last next n b

section

variable [DecidableEq α]

/-- `b->next = 0; for(pp = &head; *pp; pp = &(*pp)->next) ; *pp = b`, where the loop looks at `n` nodes
at most -/
def push (q : Queue α) (n : Nat) (b : α) : Option (Queue α) :=
  let next := Function.update q.next b none
  match q.head with
  | none => some ⟨some b, next⟩
  | some a => (last next n a).map fun z => ⟨some a, Function.update next z (some b)⟩

end

/-- `head = head->next` -/
def pop (q : Queue α) (b : α) : Queue α := { q with head := q.next b }

variable {next next' : α → Option α} {first : Option α} {a b : α} {l : List α}

theorem Seg.congr (h : Seg next first l) (heq : ∀ x ∈ l, next' x = next x) : Seg next' first l := by
  induction l generalizing first with
  | nil => exact h
  | cons x l ih =>
    refine ⟨h.1, ?_⟩
    rw [heq x (by simp)]
    exact ih h.2 fun y hy => heq y (List.mem_cons_of_mem _ hy)

theorem Holds.pop {q : Queue α} (h : q.Holds (b :: l)) : (q.pop b).Holds l := h.2

theorem last_eq {n : Nat} (h : Seg next (some a) l) (hn : l.length ≤ n) :
    last next n a = l.getLast? := by
  induction n generalizing a l with
  | zero =>
    obtain rfl : l = [] := List.length_eq_zero_iff.mp (Nat.le_zero.mp hn)
    cases h
  | succ n ih =>
    cases l with
    | nil => cases h
    | cons x l =>
      obtain ⟨hx, hrest⟩ := h
      obtain rfl := Option.some.inj hx
      rw [last]
      cases l with
      | nil =>
        rw [show next a = none from hrest]
        rfl
      | cons y l =>
        rw [hrest.1]
        simp only
        rw [hrest.1] at hrest
        rw [ih hrest (by simpa using hn), List.getLast?_cons_cons]

variable [DecidableEq α]

theorem Seg.append {z : α} (h : Seg next first (l ++ [z])) (hz : z ∉ l) (hb : b ∉ l ++ [z])
    (hnone : next b = none) : Seg (Function.update next z (some b)) first (l ++ [z, b]) := by
  induction l generalizing first with
  | nil =>
    have hne : b ≠ z := by simpa using hb
    refine ⟨h.1, ?_, ?_⟩
    · rw [Function.update_self]
    · rw [Function.update_of_ne hne]
      exact hnone
  | cons x l ih =>
    have hxz : x ≠ z := fun heq => hz (by simp [heq])
    refine ⟨h.1, ?_⟩
    rw [Function.update_of_ne hxz]
    exact ih h.2 (fun hmem => hz (List.mem_cons_of_mem _ hmem))
      fun hmem => hb (List.mem_cons_of_mem _ hmem)

theorem Holds.push {q : Queue α} {n : Nat} (h : q.Holds l) (hnodup : l.Nodup) (hb : b ∉ l)
    (hn : l.length ≤ n) : ∃ q', q.push n b = some q' ∧ q'.Holds (l ++ [b]) := by
  have hkeep : Seg (Function.update q.next b none) q.head l := by
    refine Seg.congr h fun x hx => Function.update_of_ne ?_ ..
    rintro rfl
    exact hb hx
  rcases List.eq_nil_or_concat l with rfl | ⟨l, z, rfl⟩
  · refine ⟨⟨some b, Function.update q.next b none⟩, ?_, rfl, ?_⟩
    · rw [Queue.push, show q.head = none from h]
    · exact Function.update_self ..
  · rw [List.concat_eq_append] at *
    cases hhead : q.head with
    | none =>
      rw [Holds, hhead] at h
      cases l <;> exact nomatch h.1
    | some a =>
      rw [hhead] at hkeep
      have hz : z ∉ l := by
        intro hz
        exact (List.nodup_append.mp hnodup).2.2 z hz z (by simp) rfl
      refine ⟨⟨some a, Function.update (Function.update q.next b none) z (some b)⟩, ?_, ?_⟩
      · rw [Queue.push, hhead]
        simp only
        rw [last_eq hkeep hn, List.getLast?_append]
        rfl
      · rw [Holds, List.append_assoc]
        exact hkeep.append hz hb (Function.update_self ..)

end Queue

end Xv6
