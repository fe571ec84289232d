import Mathlib.Logic.Basic

/-!
# Runs of an event-driven machine

A machine takes one event at a time.  An event may be blocked in the current state, it may stop
the machine with a panic, or it may lead to the next state.  Properties of whole runs follow from
what one step preserves.
-/

namespace Xv6

/-- Result of offering one event to a machine. -/
inductive Outcome (ε σ : Type) where
  | blocked
  | panic (e : ε)
  | next (s : σ)

/-- The machine went on, to a state of `Q`. -/
def Outcome.holds {ε σ : Type} (Q : σ → Prop) : Outcome ε σ → Prop
  | .next s => Q s
  | _ => False

instance Outcome.decidableHolds {ε σ : Type} (Q : σ → Prop) [DecidablePred Q] :
    (r : Outcome ε σ) → Decidable (r.holds Q)
  | .next s => inferInstanceAs (Decidable (Q s))
  | .blocked | .panic _ => .isFalse id

theorem Outcome.exists_of_holds {ε σ : Type} {Q : σ → Prop} {r : Outcome ε σ} (h : r.holds Q) :
    ∃ s, r = .next s ∧ Q s := by
  cases r with
  | next s => exact ⟨s, rfl, h⟩
  | blocked => exact h.elim
  | panic e => exact h.elim

/-- The machine went on to a state of `Q`, or stopped with a panic of `ok`. -/
def Outcome.within {ε σ : Type} (ok : ε → Prop) (Q : σ → Prop) : Outcome ε σ → Prop
  | .next s => Q s
  | .panic e => ok e
  | .blocked => False

theorem Outcome.within.mono {ε σ : Type} {ok : ε → Prop} {Q Q' : σ → Prop} {r : Outcome ε σ}
    (h : r.within ok Q) (hQ : ∀ s, Q s → Q' s) : r.within ok Q' := by
  cases r with
  | next s => exact hQ s h
  | panic e => exact h
  | blocked => exact h

section

variable {ε σ α : Type} (step : σ → α → Outcome ε σ)

/-- Offer a list of events one after the other, until one is blocked or panics. -/
def runEvents (s : σ) : List α → Outcome ε σ
  | [] => .next s
  | a :: as =>
    match step s a with
    | .blocked => .blocked
    | .panic e => .panic e
    | .next s' => runEvents s' as

/-- Every event offered along the run from `s` meets `Q` in the state it is offered to. -/
def Along (Q : σ → α → Prop) (s : σ) : List α → Prop
  | [] => True
  | a :: as => Q s a ∧ ∀ s', step s a = .next s' → Along Q s' as

instance Along.decidable (Q : σ → α → Prop) [∀ s a, Decidable (Q s a)] (s : σ) :
    (as : List α) → Decidable (Along step Q s as)
  | [] => .isTrue trivial
  | a :: as =>
    have : Decidable (∀ s', step s a = .next s' → Along step Q s' as) :=
      match step s a with
      | .next s' => have := Along.decidable Q s' as
                    decidable_of_iff (Along step Q s' as) (by simp)
      | .blocked => .isTrue (by simp)
      | .panic e => .isTrue (by simp)
    inferInstanceAs (Decidable (_ ∧ _))

/-- States reached from `s₀` by events that each meet `ok` where they are taken. -/
inductive Reach (ok : σ → α → Prop) (s₀ : σ) : σ → Prop where
  | init : Reach ok s₀ s₀
  | step {s s' : σ} (a : α) : Reach ok s₀ s → ok s a → step s a = .next s' → Reach ok s₀ s'

variable {step}
variable {ok : σ → α → Prop}

/-- What holds initially and is preserved by every permitted step holds of every reached state. -/
theorem Reach.invariant {s₀ s : σ} {I : σ → Prop} (h : Reach step ok s₀ s) (hinit : I s₀)
    (hstep : ∀ s a s', I s → ok s a → step s a = .next s' → I s') : I s := by
  induction h with
  | init => exact hinit
  | step a _ hok hs ih => exact hstep _ a _ ih hok hs

theorem Reach.mono {ok ok' : σ → α → Prop} {s₀ s : σ} (h : Reach step ok s₀ s)
    (hok : ∀ s a, ok s a → ok' s a) : Reach step ok' s₀ s := by
  induction h with
  | init => exact .init
  | step a _ ha hs ih => exact .step a ih (hok _ _ ha) hs

theorem Along.of_forall {Q : σ → α → Prop} (h : ∀ s a, Q s a) (s : σ) (as : List α) :
    Along step Q s as := by
  induction as generalizing s with
  | nil => trivial
  | cons a as ih => exact ⟨h s a, fun s' _ => ih s'⟩

theorem Reach.of_runEvents {s₀ s t : σ} (h : Reach step ok s₀ s) (as : List α)
    (hok : Along step ok s as) (hrun : runEvents step s as = .next t) : Reach step ok s₀ t := by
  induction as generalizing s with
  | nil =>
    obtain rfl : s = t := by simpa [runEvents] using hrun
    exact h
  | cons a as ih =>
    cases hs : step s a with
    | blocked | panic e => simp [runEvents, hs] at hrun
    | next s' =>
      rw [runEvents, hs] at hrun
      exact ih (.step a h hok.1 hs) (hok.2 s' hs) hrun

/-- Along a run through states of `I`, the machine avoids the panic `e` exactly when every event
meets `Q`, provided this is so of each single event. -/
theorem runEvents_ne_panic_iff {I : σ → Prop} {ok Q : σ → α → Prop} {e : ε}
    (hkeep : ∀ s a s', I s → ok s a → step s a = .next s' → I s')
    (hone : ∀ s a, I s → ok s a → (step s a ≠ .panic e ↔ Q s a)) {s : σ} (hs : I s) {as : List α}
    (hok : Along step ok s as) :
    runEvents step s as ≠ .panic e ↔ Along step Q s as := by
  induction as generalizing s with
  | nil => simp [runEvents, Along]
  | cons a as ih =>
    rw [Along, ← hone s a hs hok.1]
    cases hstep : step s a with
    | blocked | panic e' => simp [runEvents, hstep]
    | next s' =>
      have hrest := ih (hkeep s a s' hs hok.1 hstep) (hok.2 s' hstep)
      simpa [runEvents, hstep] using hrest

/-- The machine takes the event, or stays where it is if there is none. -/
def Follows {τ β : Type} (step : τ → β → Outcome ε τ) (t : τ) : Option β → τ → Prop
  | some b, t' => step t b = .next t'
  | none, t' => t' = t

/-- A run is followed by another machine, as each step is. -/
theorem Reach.simulate {ε' τ β : Type} {stepA : τ → β → Outcome ε' τ} {R : σ → τ → Prop} {s₀ s : σ}
    {t₀ : τ} (h : Reach step ok s₀ s) (event : σ → α → Option β) (hinit : R s₀ t₀)
    (hstep : ∀ s a s' t, R s t → ok s a → step s a = .next s' →
      ∃ t', Follows stepA t (event s a) t' ∧ R s' t') :
    ∃ t, Reach stepA (fun _ _ => True) t₀ t ∧ R s t := by
  induction h with
  | init => exact ⟨t₀, .init, hinit⟩
  | @step s s' a _ hok hs ih =>
    obtain ⟨t, hreach, hR⟩ := ih
    obtain ⟨t', hfollows, hR'⟩ := hstep s a s' t hR hok hs
    refine ⟨t', ?_, hR'⟩
    cases hevent : event s a with
    | none =>
      rw [hevent] at hfollows
      rw [show t' = t from hfollows]
      exact hreach
    | some b =>
      rw [hevent] at hfollows
      exact .step b hreach trivial hfollows

end

end Xv6
