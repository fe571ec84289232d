import Mathlib.Logic.Function.Basic

/-!
# Two records of who has what

One table says who has a thing, the other what each one has.
-/

namespace Xv6

open Function (update_of_ne update_self)

variable {α β : Type}

/-- `f` and `g` say the same. -/
def Paired (f : α → Option β) (g : β → Option α) : Prop := ∀ a b, f a = some b ↔ g b = some a

namespace Paired

variable {f : α → Option β} {g : β → Option α} {a : α} {b : β}

theorem unique (h : Paired f g) {b' : β} (hb : g b = some a) (hb' : g b' = some a) : b = b' :=
  Option.some.inj (((h a b).mpr hb).symm.trans ((h a b').mpr hb'))

variable [DecidableEq α] [DecidableEq β]

theorem take (h : Paired f g) (ha : f a = none) (hb : g b = none) :
    Paired (Function.update f a (some b)) (Function.update g b (some a)) := by
  intro a' b'
  by_cases haa : a' = a
  · subst a'
    by_cases hbb : b' = b
    · subst b'
      simp
    · have hg : g b' ≠ some a := by
        intro hg
        simp [(h a b').mpr hg] at ha
      rw [update_self, update_of_ne hbb]
      simp [Ne.symm hbb, hg]
  · by_cases hbb : b' = b
    · subst b'
      have hf : f a' ≠ some b := by
        intro hf
        simp [(h a' b).mp hf] at hb
      rw [update_of_ne haa, update_self]
      simp [Ne.symm haa, hf]
    · rw [update_of_ne haa, update_of_ne hbb]
      exact h a' b'

theorem drop (h : Paired f g) (hb : g b = some a) :
    Paired (Function.update f a none) (Function.update g b none) := by
  have ha := (h a b).mpr hb
  intro a' b'
  by_cases haa : a' = a
  · subst a'
    by_cases hbb : b' = b
    · subst b'
      simp
    · have hg : g b' ≠ some a := fun hg => hbb (h.unique hg hb)
      rw [update_self, update_of_ne hbb]
      simp [hg]
  · by_cases hbb : b' = b
    · subst b'
      have hf : f a' ≠ some b := by
        intro hf
        have hg := (h a' b).mp hf
        exact haa (Option.some.inj (hg.symm.trans hb))
      rw [update_of_ne haa, update_self]
      simp [hf]
    · rw [update_of_ne haa, update_of_ne hbb]
      exact h a' b'

end Paired

end Xv6
