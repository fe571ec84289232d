import Mathlib.Logic.Function.Basic
import Mathlib.Data.Nat.ModEq

/-!
# A ring buffer under counters that wrap

A sequence is pushed through a buffer of `size` cells.  Two counters that are kept modulo `m` say
how much of it has been pushed and popped; the cell of position `k` is `k % size`.  As long as `m`
is a multiple of `size` and larger than it, the wrapped counters decide emptiness and fullness and
name the right cells.
-/

namespace Xv6

variable {α : Type}

/-- The cells hold the entries of `log` from position `done` on. -/
structure Ring (size : Nat) (cells : Nat → α) (log : List α) (done : Nat) : Prop where
  done_le : done ≤ log.length
  room : log.length ≤ done + size
  cell : ∀ k, done ≤ k → ∀ hk : k < log.length, cells (k % size) = log[k]

namespace Ring

variable {size m : Nat} {cells : Nat → α} {log : List α} {done : Nat}

theorem mod_ne {i j : Nat} (size : Nat) (hij : i < j) (hji : j < i + size) : i % size ≠ j % size := by
  intro h
  have hdvd : size ∣ j - i := (Nat.modEq_iff_dvd' hij.le).mp h
  have hle := Nat.le_of_dvd (by omega) hdvd
  omega

theorem push (h : Ring size cells log done) (hroom : log.length < done + size) (x : α) :
    Ring size (Function.update cells (log.length % size) x) (log ++ [x]) done := by
  refine ⟨?_, ?_, ?_⟩
  · have hdone := h.done_le
    simp only [List.length_append, List.length_singleton]
    omega
  · simp only [List.length_append, List.length_singleton]
    omega
  · intro k hk hlt
    by_cases hold : k < log.length
    · have hne : k % size ≠ log.length % size := mod_ne size hold (by omega)
      rw [Function.update_of_ne hne, List.getElem_append_left hold]
      exact h.cell k hk hold
    · have hlast : k = log.length := by
        simp only [List.length_append, List.length_singleton] at hlt
        omega
      subst k
      simp

theorem pop (h : Ring size cells log done) (hdata : done < log.length) :
    cells (done % size) = log[done] ∧ Ring size cells log (done + 1) := by
  refine ⟨h.cell done (Nat.le_refl _) hdata, hdata, ?_, ?_⟩
  · have hroom := h.room
    omega
  · intro k hk hlt
    exact h.cell k (by omega) hlt

theorem later (h : Ring size cells log done) {next : Nat} (hle : done ≤ next)
    (hnext : next ≤ log.length) : Ring size cells log next := by
  have hroom := h.room
  exact ⟨hnext, by omega, fun k hk hlt => h.cell k (by omega) hlt⟩

theorem unpush {x : α} (h : Ring size cells (log ++ [x]) done) (hdone : done ≤ log.length) :
    Ring size cells log done := by
  refine ⟨hdone, ?_, ?_⟩
  · have hroom := h.room
    simp only [List.length_append, List.length_singleton] at hroom
    omega
  · intro k hk hlt
    have hcell := h.cell k hk (by simp only [List.length_append, List.length_singleton]; omega)
    rwa [List.getElem_append_left hlt] at hcell

section

variable (h : Ring size cells log done) (hm : size < m)
include h hm

theorem empty_iff : done % m = log.length % m ↔ done = log.length := by
  have hdone := h.done_le
  have hroom := h.room
  constructor
  · intro heq
    by_contra hne
    exact mod_ne m (by omega) (by omega) heq
  · intro heq
    rw [heq]

theorem full_iff : log.length % m = (done % m + size) % m ↔ log.length = done + size := by
  have hdone := h.done_le
  have hroom := h.room
  rw [Nat.mod_add_mod]
  constructor
  · intro heq
    by_contra hne
    exact mod_ne m (by omega) (by omega) heq
  · intro heq
    rw [heq]

theorem length_sub : (log.length % m + (m - done % m)) % m = log.length - done := by
  have hdone := h.done_le
  have hroom := h.room
  have hlt : done % m < m := Nat.mod_lt _ (by omega)
  have hsplit : log.length % m + (m - done % m) ≡ log.length - done [MOD m] := by
    have hsum : log.length % m + (m - done % m) + done ≡ log.length - done + done [MOD m] := by
      have hleft : m - done % m + done ≡ 0 [MOD m] := by
        have hdiv := Nat.div_add_mod done m
        have hmul : m - done % m + done = m * (done / m + 1) := by
          rw [Nat.mul_add, Nat.mul_one]
          omega
        rw [hmul]
        exact (Nat.modEq_zero_iff_dvd).mpr (Nat.dvd_mul_right _ _)
      calc log.length % m + (m - done % m) + done
          = log.length % m + (m - done % m + done) := by omega
        _ ≡ log.length + 0 [MOD m] := Nat.ModEq.add (Nat.mod_modEq _ _) hleft
        _ = log.length - done + done := by omega
    exact Nat.ModEq.add_right_cancel' done hsum
  rw [hsplit, Nat.mod_eq_of_lt (by omega)]

end

theorem cell_mod (hdvd : size ∣ m) (k : Nat) : k % m % size = k % size :=
  Nat.mod_mod_of_dvd k hdvd

end Ring

end Xv6
