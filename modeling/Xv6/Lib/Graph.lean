import Mathlib.Data.Fintype.Pigeonhole
import Mathlib.Logic.Relation

/-!
# Acyclic relations

Adding edges that all lead to one node without outgoing edges closes no cycle, and a finite set of
threads that each wait for something held inside the set gives rise to a cycle.
-/

namespace Xv6

variable {V : Type}

def Acyclic (E : V → V → Prop) : Prop := ∀ v, ¬ Relation.TransGen E v v

variable {E E' : V → V → Prop}

theorem Acyclic.mono (h : Acyclic E) (hsub : ∀ a b, E' a b → E a b) :
    Acyclic E' :=
  fun v hv => h v (Relation.TransGen.mono hsub v v hv)

theorem Acyclic.swap {E : V → V → Prop} (h : Acyclic E) : Acyclic (Function.swap E) :=
  fun v hv => h v (Relation.transGen_swap.mp hv)

/-- Along a path of the larger relation, either no new edge is taken or the path ends in the
sink. -/
theorem transGen_sink {v : V} (hnew : ∀ a b, E' a b → E a b ∨ b = v) (hsink : ∀ b, ¬ E' v b)
    {a b : V} (h : Relation.TransGen E' a b) :
    Relation.TransGen E a b ∨ b = v := by
  induction h with
  | single hab =>
    rcases hnew _ _ hab with hE | rfl
    · exact .inl (.single hE)
    · exact .inr rfl
  | tail _ hbc ih =>
    rcases ih with hE | rfl
    · rcases hnew _ _ hbc with hE' | rfl
      · exact .inl (hE.tail hE')
      · exact .inr rfl
    · exact absurd hbc (hsink _)

theorem Acyclic.add_sink (h : Acyclic E) {v : V} (hnew : ∀ a b, E' a b → E a b ∨ b = v)
    (hsink : ∀ b, ¬ E' v b) : Acyclic E' := by
  intro x hx
  rcases transGen_sink hnew hsink hx with hE | rfl
  · exact h x hE
  · obtain ⟨b, hb, _⟩ := Relation.TransGen.head'_iff.mp hx
    exact hsink b hb

/-- No thread of a finite nonempty set closed under `next` can reach further and further along an
acyclic relation. -/
theorem Acyclic.no_closed_chain {P : Type} [Finite P] {E : V → V → Prop} (h : Acyclic E)
    (next : P → P) (place : P → V) (S : Set P) (hS : S.Nonempty) (hclosed : ∀ p ∈ S, next p ∈ S)
    (hstep : ∀ p ∈ S, E (place p) (place (next p))) : False := by
  obtain ⟨p, hp⟩ := hS
  have hmem (n : Nat) : next^[n] p ∈ S := by
    induction n with
    | zero => exact hp
    | succ n ih =>
      rw [Function.iterate_succ_apply']
      exact hclosed _ ih
  have hpath (m k : Nat) : Relation.TransGen E (place (next^[m] p)) (place (next^[m + k + 1] p)) := by
    induction k with
    | zero =>
      rw [Nat.add_zero, Function.iterate_succ_apply']
      exact .single (hstep _ (hmem m))
    | succ k ih =>
      refine ih.tail ?_
      rw [← Nat.add_assoc m k 1, Function.iterate_succ_apply' next (m + k + 1)]
      exact hstep _ (hmem _)
  obtain ⟨m, n, hne, heq⟩ := Finite.exists_ne_map_eq_of_infinite fun n : Nat => next^[n] p
  rcases Nat.lt_or_gt_of_ne hne with hlt | hlt
  · obtain ⟨k, rfl⟩ := Nat.exists_eq_add_of_lt hlt
    exact h _ (heq ▸ hpath m k)
  · obtain ⟨k, rfl⟩ := Nat.exists_eq_add_of_lt hlt
    exact h _ (heq ▸ hpath n k)

end Xv6
