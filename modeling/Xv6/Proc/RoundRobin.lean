import Xv6.Proc.OneCpu

/-!
# No process is passed over

The scheduler of a CPU goes through the whole table between two moments at which it is outside of its
loop, however long the processes run that it chooses.  It chooses whoever is `RUNNABLE` then.
-/

namespace Xv6

namespace Machine

variable {C : Type} [DecidableEq C] {s s' : Machine C} {c d : C} {p : Slot} {r : List Slot}

theorem rest_update {x : Cpu} (hcpu : s'.cpu = Function.update s.cpu d x)
    (hx : c = d → x.pc.rest = (s.cpu d).pc.rest) : (s'.cpu c).pc.rest = (s.cpu c).pc.rest := by
  rw [hcpu]
  by_cases hc : c = d
  · subst hc
    rw [Function.update_self, hx rfl]
  · rw [Function.update_of_ne hc]

/-- Only `scheduler` itself gets on with its loop, one slot at a time. -/
theorem rest_step {e : Event C} (hs : s.step e = .next s') (hr : (s.cpu c).pc.rest = some r) :
    (s'.cpu c).pc.rest = some r ∨ r = [] ∨ ∃ i r', r = i :: r' ∧ (s'.cpu c).pc.rest = some r' ∧
      ((s.table.proc i).state ≠ .runnable ∨ (s'.table.proc i).state ≠ .runnable) := by
  have hkeep {d : C} {x : Cpu} (hcpu : s'.cpu = Function.update s.cpu d x)
      (hx : c = d → x.pc.rest = (s.cpu d).pc.rest) : (s'.cpu c).pc.rest = some r :=
    (rest_update hcpu hx).trans hr
  -- The loop of `c` itself, in the steps that get on with it
  have hself {d : C} {l : List Slot} (hpc : (s.cpu d).pc = .scan l) (hc : c = d) : r = l := by
    rw [hc, hpc] at hr
    exact (Option.some.inj hr).symm
  cases step_next hs with
  | acquire hpc =>
    refine .inl (hkeep rfl ?_)
    rintro rfl
    simp [hpc, CpuPc.rest] at hr
  | @done d hpc =>
    by_cases hc : c = d
    · exact .inr (.inl (hself hpc hc))
    · exact .inl (hkeep rfl fun h => absurd h hc)
  | @pass d i rest hpc hstate =>
    by_cases hc : c = d
    · exact .inr (.inr ⟨i, rest, hself hpc hc, by simp [setCpu, CpuPc.rest, hc], .inl hstate⟩)
    · exact .inl (hkeep rfl fun h => absurd h hc)
  | @choose d i rest hpc =>
    by_cases hc : c = d
    · exact .inr (.inr ⟨i, rest, hself hpc hc, by simp [setCpu, CpuPc.rest, hc], .inr (by simp)⟩)
    · exact .inl (hkeep rfl fun h => absurd h hc)
  | wait hcpu =>
    refine .inl (Eq.trans ?_ hr)
    rw [Machine.wait]
    split_ifs <;> exact rest_update rfl fun _ => by rw [hcpu]; rfl
  | resume hcpu | sched hcpu => exact .inl (hkeep rfl fun _ => by rw [hcpu]; rfl)
  | back hpc => exact .inl (hkeep rfl fun _ => by rw [hpc]; rfl)
  | act | wakeup => exact .inl hr

/-- At some moment of the run the process is not `RUNNABLE`. -/
def Served (s : Machine C) (as : List (Event C)) (p : Slot) : Prop :=
  ∃ n s', runEvents step s (as.take n) = .next s' ∧ (s'.table.proc p).state ≠ .runnable

theorem Served.cons {e : Event C} {as : List (Event C)} (hs : s.step e = .next s')
    (h : Served s' as p) : Served s (e :: as) p := by
  obtain ⟨n, t, ht, hp⟩ := h
  exact ⟨n + 1, t, by simpa [runEvents, hs] using ht, hp⟩

theorem served_of_rest {as : List (Event C)} (hrun : runEvents step s as = .next s')
    (hr : (s.cpu c).pc.rest = some r) (hout : (s'.cpu c).pc.rest = none) (hp : p ∈ r) :
    Served s as p := by
  induction as generalizing s r with
  | nil =>
    obtain rfl : s = s' := by simpa [runEvents] using hrun
    simp [hout] at hr
  | cons e as ih =>
    cases hs : s.step e with
    | blocked | panic x => simp [runEvents, hs] at hrun
    | next t =>
      rw [runEvents, hs] at hrun
      rcases rest_step hs hr with hr' | rfl | ⟨i, r', rfl, hr', hstate⟩
      · exact (ih hrun hr' hp).cons hs
      · cases hp
      · rcases List.mem_cons.mp hp with rfl | hp
        · rcases hstate with hstate | hstate
          · exact ⟨0, s, rfl, hstate⟩
          · exact .cons hs ⟨0, t, rfl, hstate⟩
        · exact (ih hrun hr' hp).cons hs

/-- No process stays `RUNNABLE` while a CPU goes through its scheduling loop once, whatever the other
CPUs do and whoever is chosen on the way: it has been given a CPU, or has not been ready all along. -/
theorem no_process_passed_over {as : List (Event C)}
    (hrun : runEvents step s (.acquire c :: as) = .next s') (hout : (s'.cpu c).pc.rest = none)
    (p : Slot) : Served s (.acquire c :: as) p := by
  cases hs : s.step (.acquire c) with
  | blocked | panic x => simp [runEvents, hs] at hrun
  | next t =>
    rw [runEvents, hs] at hrun
    have hr : (t.cpu c).pc.rest = some (List.finRange NPROC) := by
      cases step_next hs
      simp [setCpu, CpuPc.rest]
    exact (served_of_rest hrun hr hout (List.mem_finRange p)).cons hs

/-- Init runs until its time is up; then the scheduler looks at the rest of the table. -/
def onePass : List (Event Bool) :=
  [.scan false, .resume false, .act false .yield, .back false] ++ .replicate 64 (.scan false)

theorem no_process_passed_over_init : Served (init : Machine Bool) (.acquire false :: onePass) 0 := by
  obtain ⟨s, hrun, hout⟩ := Outcome.exists_of_holds
    (r := runEvents step (init : Machine Bool) (.acquire false :: onePass))
    (Q := fun s => (s.cpu false).pc.rest = none) (by decide +kernel)
  exact no_process_passed_over hrun hout 0

end Machine

end Xv6
