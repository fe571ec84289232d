import Xv6.Proc.Slots

/-!
# Who is killed

`kill` looks for a pid in every slot, also in free ones, and `allocproc` leaves the `killed` field
as it finds it.  Neither matters as long as no `killed` field of a free slot is set.
-/

namespace Xv6

/-- The step does not set `killed` in a free slot, nor free a slot where it is set: `kill` names no
pid that a free slot carries, `fork` does not fail once its new process has been killed.  The pid
counter does not wrap.  Traps that kill the process they interrupt are not considered. -/
def Ptable.aims (s : Ptable) : ProcEvent → Prop
  | .allocproc _ => s.nextpid < INT_MAX
  | .kill p => ∀ i, (s.proc i).state = .unused → s.pc p ≠ .killScan (s.proc i).pid
  | .kstack p false | .copyuvm p false =>
    ∀ np, (s.pc p).forking = some np → (s.proc np).killed = false
  | .fault _ => False
  | _ => True

instance (s : Ptable) : (e : ProcEvent) → Decidable (s.aims e)
  | .kill _ | .kstack _ false | .copyuvm _ false => inferInstanceAs (Decidable (∀ _, _))
  | .fault _ => .isFalse id
  | .allocproc _ => inferInstanceAs (Decidable (_ < _))
  | .kstack _ true | .copyuvm _ true | .call _ _ | .publish _ | .wait _ | .exit _ | .yield _
  | .sleep _ _ | .wakeup _ | .dispatch _ => .isTrue trivial

variable {s : Ptable}

theorem Ptable.aims.unwrapped {e : ProcEvent} (h : s.aims e) : s.unwrapped e := by
  cases e with
  | allocproc p => exact h
  | _ => trivial

/-- No free slot is marked killed, and whoever is marked has been named by a `kill`. -/
structure KillInv (s : Ptable) : Prop where
  life : LifeInv s
  free : ∀ i, (s.proc i).state = .unused → (s.proc i).killed = false
  named : ∀ i, (s.proc i).state ≠ .unused → (s.proc i).killed = true →
    .killed (s.proc i).pid ∈ s.trace

theorem KillInv.init : KillInv Ptable.init where
  life := LifeInv.start
  free i _ := by
    simp only [Ptable.init]
    split_ifs <;> rfl
  named i _ hk := by
    simp only [Ptable.init] at hk
    split_ifs at hk

variable {pid : Int} {i : Slot}

theorem findPid_some (hi : (s.proc i).pid = pid) :
    ∃ j, s.findPid pid = some j ∧ (s.proc j).pid = pid := by
  cases hfind : s.findPid pid with
  | none =>
    have hnone := List.find?_eq_none.mp hfind i (List.mem_finRange i)
    simp [hi] at hnone
  | some j => exact ⟨j, rfl, by simpa using List.find?_some hfind⟩

theorem kill_trace {p i : Slot} (hi : (s.proc i).pid = pid) :
    (s.kill p pid).trace = .killed pid :: s.trace := by
  obtain ⟨j, hj, _⟩ := findPid_some hi
  simp [Ptable.kill, hj]

theorem kill_proc {p i j : Slot} (hfind : s.findPid pid = some i) :
    (s.kill p pid).proc j = if j = i then
      { s.proc i with
        killed := true
        state := if (s.proc i).state = .sleeping then .runnable else (s.proc i).state }
      else s.proc j := by
  simp only [Ptable.kill, hfind, Ptable.proc_record, Ptable.proc_goto, Ptable.proc_modify]

theorem step_kill {s s' : Ptable} {p : Slot} (hpc : s.pc p = .killScan pid)
    (hs : s.step (.kill p) = .next s') : s' = s.kill p pid := by
  simp only [Ptable.step, hpc] at hs
  split at hs <;> cases hs
  rename_i hpid
  cases hpid
  rfl

namespace KillInv

variable {s s' : Ptable} {e : ProcEvent}

theorem fresh (h : KillInv s) (hs : s.step e = .next s') (hfree : (s.proc i).state = .unused)
    (hnew : (s'.proc i).state ≠ .unused) :
    (s'.proc i).killed = false := by
  have hphase : (s'.proc i).state.phase ≠ .free := fun hf => hnew (phase_eq_free.mp hf)
  cases Ptable.step_change hs i with
  | kept hkeep => rw [hkeep.killed, h.free i hfree]
  | killed p he hpc hpid hsame | faulted he hpid hsame =>
    exact absurd (hsame.trans (phase_eq_free.mpr hfree)) hphase
  | allocated p he hold hstate hpid hkilled | published p he hpc hstate hpid hkilled =>
    rw [hkilled, h.free i hfree]
  | failed p he hpc hstate hkilled => exact absurd hstate hnew
  | reaped p he hold hstate hkilled => exact hkilled

theorem marked (hok : s.aims e) (hs : s.step e = .next s') (hold : (s.proc i).killed = false)
    (hnew : (s'.proc i).killed = true) :
    ∃ p, e = .kill p ∧ s.pc p = .killScan (s.proc i).pid := by
  cases Ptable.step_change hs i with
  | killed p he hpc hpid hsame => exact ⟨p, he, hpc⟩
  | faulted he hpid hsame =>
    subst he
    exact hok.elim
  | kept hkeep => simp [hkeep.killed, hold] at hnew
  | allocated p he hfree hstate hpid hkilled | failed p he hpc hstate hkilled
  | published p he hpc hstate hpid hkilled => simp [hkilled, hold] at hnew
  | reaped p he hz hstate hkilled => simp [hkilled] at hnew

section

variable (h : KillInv s) (hok : s.aims e) (hs : s.step e = .next s')
include h hok hs

theorem freed (hfree : (s'.proc i).state = .unused) : (s'.proc i).killed = false := by
  have hphase := phase_eq_free.mpr hfree
  cases Ptable.step_change hs i with
  | kept hkeep =>
    rw [hkeep.killed]
    exact h.free i (phase_eq_free.mp (hkeep.phase.symm.trans hphase))
  | killed p he hpc hpid hsame =>
    subst he
    exact absurd hpc (hok i (phase_eq_free.mp (hsame.symm.trans hphase)))
  | faulted he hpid hsame =>
    subst he
    exact hok.elim
  | allocated p he hold hstate hpid hkilled | published p he hpc hstate hpid hkilled => simp [hstate] at hfree
  | failed p he hpc hstate hkilled =>
    rw [hkilled]
    rcases he with he | he <;> subst he <;> exact hok i hpc
  | reaped p he hold hstate hkilled => exact hkilled

theorem step : KillInv s' := by
  refine ⟨h.life.step hok.unwrapped hs, fun i => h.freed hok hs, ?_⟩
  intro i hlive hk
  have hmono : s.trace ⊆ s'.trace := by
    rcases h.life.step_trace hs with htrace | ⟨ev, htrace, _⟩ <;> simp [htrace]
  by_cases hfree : (s.proc i).state = .unused
  · simp [h.fresh hs hfree hlive] at hk
  by_cases hold : (s.proc i).killed = true
  · rw [Ptable.pid_kept hs hfree hlive]
    exact hmono (h.named i hfree hold)
  · rw [Bool.not_eq_true] at hold
    obtain ⟨p, rfl, hpc⟩ := marked hok hs hold hk
    rw [Ptable.pid_kept hs hfree hlive, step_kill hpc hs, kill_trace rfl]
    exact List.mem_cons_self

end

theorem kill_effect (h : KillInv s) {p : Slot} (hok : s.aims (.kill p))
    (hpc : s.pc p = .killScan pid) :
    ((s.kill p pid).trace = .killed pid :: s.trace ↔
        ∃ i, (s.proc i).state ≠ .unused ∧ (s.proc i).pid = pid) ∧
      ∀ j, (s.kill p pid).proc j ≠ s.proc j → (s.proc j).state ≠ .unused ∧ (s.proc j).pid = pid ∧
        ∀ i, (s.proc i).state ≠ .unused → (s.proc i).pid = pid → i = j := by
  have hlive (j : Slot) (hj : (s.proc j).pid = pid) : (s.proc j).state ≠ .unused := by
    intro hunused
    exact hok j hunused (by rw [hpc, hj])
  cases hfind : s.findPid pid with
  | none =>
    have hnone (i : Slot) : (s.proc i).pid ≠ pid := by
      intro hi
      obtain ⟨j, hj, _⟩ := findPid_some hi
      simp [hfind] at hj
    simp [Ptable.kill, hfind, hnone]
  | some i =>
    have hi : (s.proc i).pid = pid := by simpa using List.find?_some hfind
    refine ⟨iff_of_true (kill_trace hi) ⟨i, hlive i hi, hi⟩, ?_⟩
    intro j hj
    rw [kill_proc hfind] at hj
    by_cases hji : j = i
    · subst hji
      refine ⟨hlive j hi, hi, fun r hr hpid => ?_⟩
      exact h.life.distinct r j hr (hlive j hi) (hpid.trans hi.symm)
    · rw [if_neg hji] at hj
      exact absurd rfl hj

theorem reach (h : Reach Ptable.step Ptable.aims Ptable.init s) : KillInv s :=
  h.invariant KillInv.init fun _ _ _ hinv => hinv.step

end KillInv

/-- In every state of a run whose steps all aim well: `kill` succeeds exactly when a slot in use
carries the pid, and changes no other slot; a process starts unmarked, and only a `kill` of its
pid marks it. -/
theorem kill_hits_live {s : Ptable} (h : Reach Ptable.step Ptable.aims Ptable.init s) :
    (∀ p pid s', s.pc p = .killScan pid → s.aims (.kill p) → s.step (.kill p) = .next s' →
      (s'.trace = .killed pid :: s.trace ↔
        ∃ i, (s.proc i).state ≠ .unused ∧ (s.proc i).pid = pid) ∧
      ∀ j, s'.proc j ≠ s.proc j → (s.proc j).state ≠ .unused ∧ (s.proc j).pid = pid ∧
        ∀ i, (s.proc i).state ≠ .unused → (s.proc i).pid = pid → i = j) ∧
    (∀ e s' i, s.aims e → s.step e = .next s' →
      ((s.proc i).state = .unused → (s'.proc i).state ≠ .unused → (s'.proc i).killed = false) ∧
      ((s.proc i).killed = false → (s'.proc i).killed = true →
        ∃ p, e = .kill p ∧ s.pc p = .killScan (s.proc i).pid)) ∧
    ∀ i, (s.proc i).state ≠ .unused → (s.proc i).killed = true →
      .killed (s.proc i).pid ∈ s.trace := by
  have hinv := KillInv.reach h
  refine ⟨?_, ?_, hinv.named⟩
  · intro p pid s' hpc hok hs
    rw [step_kill hpc hs]
    exact hinv.kill_effect hok hpc
  · intro e s' i hok hs
    exact ⟨hinv.fresh hs, KillInv.marked hok hs⟩

/-- Init forks and kills its child. -/
def killChild : List ProcEvent :=
  [.dispatch 0, .call 0 .fork, .allocproc 0, .kstack 0 true, .copyuvm 0 true, .publish 0,
    .call 0 (.kill 2), .kill 0]

theorem kill_hits_live_child : ∃ s : Ptable, runEvents Ptable.step Ptable.init killChild = .next s ∧
      (s.proc 1).killed = true ∧ .killed (s.proc 1).pid ∈ s.trace := by
  have hrun : (runEvents Ptable.step Ptable.init killChild).holds fun s =>
      (s.proc 1).killed = true ∧ (s.proc 1).state = .runnable := ⟨rfl, rfl⟩
  obtain ⟨s, hs, hk, hstate⟩ := Outcome.exists_of_holds hrun
  have haims : Along Ptable.step Ptable.aims Ptable.init killChild := by decide +kernel
  have hreach := Reach.of_runEvents .init _ haims hs
  exact ⟨s, hs, hk, (kill_hits_live hreach).2.2 1 (by simp [hstate]) hk⟩

/-- `kill(0)` finds the free slot 1, and the next `fork` starts its child marked. -/
theorem kill_hits_unused : ∃ s : Ptable, runEvents Ptable.step Ptable.init
        [.dispatch 0, .call 0 (.kill 0), .kill 0, .call 0 .fork, .allocproc 0, .kstack 0 true,
          .copyuvm 0 true, .publish 0] = .next s ∧
      (s.proc 1).state = .runnable ∧ (s.proc 1).pid = 2 ∧ (s.proc 1).killed = true ∧
      s.trace = [.forked 0 2, .killed 0] := by
  exact ⟨_, rfl, rfl, rfl, rfl, rfl⟩

end Xv6
