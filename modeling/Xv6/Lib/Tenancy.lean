import Mathlib.Logic.Function.Basic

/-!
# Places that own cells

Each of a set of places names at most one cell.  The cells in use are exactly those that some place
names, and no cell has two places.
-/

namespace Xv6

variable {ι β : Type}

structure Tenancy (name : ι → Option β) (used : β → Prop) : Prop where
  used_of_name : ∀ {i b}, name i = some b → used b
  unique : ∀ {i j b}, name i = some b → name j = some b → i = j
  named : ∀ {b}, used b → ∃ i, name i = some b

namespace Tenancy

variable {name : ι → Option β} {used used' : β → Prop}

theorem congr {name' : ι → Option β} (h : Tenancy name used) (hname : ∀ i, name' i = name i)
    (hused : ∀ b, used' b ↔ used b) : Tenancy name' used' := by
  obtain rfl : name' = name := funext hname
  obtain rfl : used' = used := funext fun b => propext (hused b)
  exact h

variable [DecidableEq ι]

theorem take (h : Tenancy name used) {i : ι} {b : β} (hi : name i = none) (hb : ¬ used b)
    (hused : ∀ c, used' c ↔ used c ∨ c = b) : Tenancy (Function.update name i (some b)) used' where
  used_of_name {j c} hj := by
    rw [Function.update_apply] at hj
    split at hj
    · exact (hused c).mpr (.inr (Option.some.inj hj).symm)
    · exact (hused c).mpr (.inl (h.used_of_name hj))
  unique {j k c} hj hk := by
    rw [Function.update_apply] at hj hk
    split at hj <;> split at hk
    · exact ‹j = i›.trans ‹k = i›.symm
    · obtain rfl := Option.some.inj hj
      exact absurd (h.used_of_name hk) hb
    · obtain rfl := Option.some.inj hk
      exact absurd (h.used_of_name hj) hb
    · exact h.unique hj hk
  named {c} hc := by
    rcases (hused c).mp hc with hc | rfl
    · obtain ⟨j, hj⟩ := h.named hc
      have hne : j ≠ i := by
        rintro rfl
        simp [hi] at hj
      exact ⟨j, by rw [Function.update_of_ne hne, hj]⟩
    · exact ⟨i, by rw [Function.update_self]⟩

theorem drop (h : Tenancy name used) {i : ι} {b : β} (hi : name i = some b)
    (hused : ∀ c, used' c ↔ used c ∧ c ≠ b) : Tenancy (Function.update name i none) used' where
  used_of_name {j c} hj := by
    rw [Function.update_apply] at hj
    split at hj
    · cases hj
    · refine (hused c).mpr ⟨h.used_of_name hj, ?_⟩
      rintro rfl
      exact ‹j ≠ i› (h.unique hj hi)
  unique {j k c} hj hk := by
    rw [Function.update_apply] at hj hk
    split at hj <;> split at hk
    · cases hj
    · cases hj
    · cases hk
    · exact h.unique hj hk
  named {c} hc := by
    obtain ⟨hc, hne⟩ := (hused c).mp hc
    obtain ⟨j, hj⟩ := h.named hc
    have hji : j ≠ i := by
      rintro rfl
      exact hne (Option.some.inj (hj.symm.trans hi))
    exact ⟨j, by rw [Function.update_of_ne hji, hj]⟩

end Tenancy

end Xv6
