import Mathlib.Logic.Basic

/-!
# Programs with a state that may panic

Weakest preconditions for programs that change a state and may stop with a panic.  `E` are the
panics that the specification allows: `fun _ => False` asks for a program that always returns.
-/

namespace Xv6

abbrev Run (ε σ α : Type) := StateT σ (Except ε) α

namespace Run

variable {ε σ α β : Type} {E : ε → Prop}

/-- The program started in `s` returns with `Q`, or panics as `E` allows. -/
def wp (E : ε → Prop) (m : Run ε σ α) (Q : α → σ → Prop) (s : σ) : Prop :=
  match m s with
  | .ok (x, s') => Q x s'
  | .error e => E e

@[simp]
theorem wp_pure (x : α) (Q : α → σ → Prop) (s : σ) : wp E (pure x : Run ε σ α) Q s ↔ Q x s :=
  Iff.rfl

@[simp]
theorem wp_get (Q : σ → σ → Prop) (s : σ) : wp E (get : Run ε σ σ) Q s ↔ Q s s := Iff.rfl

@[simp]
theorem wp_set (t : σ) (Q : PUnit → σ → Prop) (s : σ) : wp E (set t : Run ε σ PUnit) Q s ↔ Q () t :=
  Iff.rfl

@[simp]
theorem wp_modify (f : σ → σ) (Q : PUnit → σ → Prop) (s : σ) :
    wp E (modify f : Run ε σ PUnit) Q s ↔ Q () (f s) := Iff.rfl

@[simp]
theorem wp_throw (e : ε) (Q : α → σ → Prop) (s : σ) : wp E (throw e : Run ε σ α) Q s ↔ E e :=
  Iff.rfl

@[simp]
theorem wp_bind (m : Run ε σ α) (f : α → Run ε σ β) (Q : β → σ → Prop) (s : σ) :
    wp E (m >>= f) Q s ↔ wp E m (fun x => wp E (f x) Q) s := by
  have hbind : (m >>= f) s = (m s >>= fun r => f r.1 r.2) := rfl
  rw [wp, wp, hbind]
  cases m s <;> rfl

variable {m : Run ε σ α}

theorem bind_eq_ok {f : α → Run ε σ β} {s s' : σ} {y : β} :
    (m >>= f) s = .ok (y, s') ↔ ∃ x t, m s = .ok (x, t) ∧ f x t = .ok (y, s') := by
  have hbind : (m >>= f) s = (m s >>= fun r => f r.1 r.2) := rfl
  rw [hbind]
  cases m s with
  | error e => exact ⟨nofun, nofun⟩
  | ok r =>
    constructor
    · exact fun h => ⟨r.1, r.2, rfl, h⟩
    · rintro ⟨x, t, hr, h⟩
      cases hr
      exact h

variable {s : σ}

theorem wp_mono {Q Q' : α → σ → Prop} (h : wp E m Q s)
    (hQ : ∀ x s', Q x s' → Q' x s') : wp E m Q' s := by
  rw [wp] at h ⊢
  split at h
  · exact hQ _ _ h
  · exact h

variable {Q : α → σ → Prop}

theorem wp_ok {s s' : σ} {x : α} (h : wp E m Q s) (hm : m s = .ok (x, s')) : Q x s' := by
  rw [wp, hm] at h
  exact h

/-- The program returns, with a result and a state that pass a test. -/
def returns (m : Run ε σ α) (p : α → σ → Bool) (s : σ) : Bool :=
  match m s with
  | .ok (x, s') => p x s'
  | .error _ => false

theorem exists_of_returns {p : α → σ → Bool} (h : returns m p s = true) :
    ∃ x s', m s = .ok (x, s') ∧ p x s' = true := by
  rw [returns] at h
  split at h
  · exact ⟨_, _, ‹_›, h⟩
  · cases h

theorem run_of_wp {R : Except ε (α × σ)}
    (h : wp (fun e => R = .error e) m (fun x s' => R = .ok (x, s')) s) : m s = R := by
  rw [wp] at h
  split at h
  · rw [h]
    assumption
  · rw [h]
    assumption

theorem wp_error {e : ε} (h : wp E m Q s) (hm : m s = .error e) : E e := by
  rw [wp, hm] at h
  exact h

theorem exists_of_wp (h : wp (fun _ => False) m Q s) :
    ∃ x s', m s = .ok (x, s') ∧ Q x s' := by
  rw [wp] at h
  split at h
  · exact ⟨_, _, ‹_›, h⟩
  · exact h.elim

-- From here on programs are taken apart by the rules above.
attribute [irreducible] wp

end Run

end Xv6
