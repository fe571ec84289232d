import Xv6.Proc.Lifecycle

/-!
# What a step does to a slot

A slot of the process table is free, being filled by `fork`, or occupied.  Every step either keeps
the occupant of a slot or moves the slot on in this cycle.
-/

namespace Xv6

/-- Where a slot stands between `allocproc` and the end of `wait`. -/
inductive Phase where
  | free
  | making
  | occupied
  deriving DecidableEq

def ProcState.phase : ProcState → Phase
  | .unused => .free
  | .embryo => .making
  | .sleeping | .runnable | .running | .zombie => .occupied

theorem phase_eq_free {c : ProcState} : c.phase = .free ↔ c = .unused := by
  cases c <;> simp [ProcState.phase]

theorem phase_eq_making {c : ProcState} : c.phase = .making ↔ c = .embryo := by
  cases c <;> simp [ProcState.phase]

/-- A slot keeps its occupant: only scheduling fields and the parent may differ. -/
structure Proc.Keeps (x y : Proc) : Prop where
  pid : y.pid = x.pid
  phase : y.state.phase = x.state.phase
  killed : y.killed = x.killed

theorem Proc.Keeps.refl (x : Proc) : x.Keeps x := ⟨rfl, rfl, rfl⟩

theorem Proc.Keeps.trans {x y z : Proc} (h : x.Keeps y) (h' : y.Keeps z) : x.Keeps z :=
  ⟨h'.pid.trans h.pid, h'.phase.trans h.phase, h'.killed.trans h.killed⟩

/-- What the step `e` does to slot `i`, which holds `y` afterwards. -/
inductive Ptable.Change (s : Ptable) (e : ProcEvent) (i : Slot) (y : Proc) : Prop where
  | kept (h : (s.proc i).Keeps y)
  | killed (p : Slot) (he : e = .kill p) (hpc : s.pc p = .killScan (s.proc i).pid)
      (hpid : y.pid = (s.proc i).pid) (hphase : y.state.phase = (s.proc i).state.phase)
  | faulted (he : e = .fault i) (hpid : y.pid = (s.proc i).pid)
      (hphase : y.state.phase = (s.proc i).state.phase)
  | allocated (p : Slot) (he : e = .allocproc p) (hold : (s.proc i).state = .unused)
      (hnew : y.state = .embryo) (hpid : y.pid = s.nextpid) (hkilled : y.killed = (s.proc i).killed)
  | failed (p : Slot) (he : e = .kstack p false ∨ e = .copyuvm p false)
      (hpc : (s.pc p).forking = some i) (hnew : y.state = .unused)
      (hkilled : y.killed = (s.proc i).killed)
  | published (p : Slot) (he : e = .publish p) (hpc : s.pc p = .forkPublish i)
      (hnew : y.state = .runnable) (hpid : y.pid = (s.proc i).pid)
      (hkilled : y.killed = (s.proc i).killed)
  | reaped (p : Slot) (he : e = .wait p ∨ e = .dispatch p) (hold : (s.proc i).state = .zombie)
      (hnew : y.state = .unused) (hkilled : y.killed = false)

namespace Ptable

variable {s s' t : Ptable} {e : ProcEvent} {p i : Slot}

theorem Change.same (h : t.proc i = s.proc i) : s.Change e i (t.proc i) :=
  .kept (h ▸ Proc.Keeps.refl _)

theorem keeps_modify {f : Proc → Proc} (h : (s.proc p).Keeps (f (s.proc p))) :
    (s.proc i).Keeps ((s.modify p f).proc i) := by
  rw [proc_modify]
  split_ifs with hi
  · subst hi
    exact h
  · exact .refl _

theorem phase_wake (c : Option Chan) (x : Proc) : (x.wake c).state.phase = x.state.phase := by
  rcases wake_state c x with hsame | ⟨hs, hr⟩
  · rw [hsame]
  · rw [hs, hr]
    rfl

theorem keeps_wake (c : Option Chan) (x : Proc) : x.Keeps (x.wake c) :=
  ⟨wake_pid c x, phase_wake c x, wake_killed c x⟩

theorem WaitStep.change (h : s.WaitStep p t) (hrun : (s.proc p).state.phase = .occupied) (i : Slot) :
    (s.proc i).state = .zombie ∧ (t.proc i).state = .unused ∧ (t.proc i).killed = false ∨
      (s.proc i).Keeps (t.proc i) := by
  cases h with
  | @reap q _ hzombie =>
    rw [proc_record, proc_goto, proc_modify]
    split_ifs with hi
    · subst hi
      exact .inl ⟨hzombie, rfl, rfl⟩
    · exact .inr (.refl _)
  | fail => exact .inr (.refl _)
  | sleep =>
    right
    rw [proc_goto]
    exact keeps_modify ⟨rfl, hrun.symm, rfl⟩

theorem keeps_exit (hpass : Passed p (List.finRange NPROC) (s.wakeup1 ((s.proc p).parent.map .proc)) t)
    (hrun : (s.proc p).state.phase = .occupied) (i : Slot) :
    (s.proc i).Keeps ((t.modify p fun x => { x with state := .zombie }).proc i) := by
  have hphase : (t.proc i).state.phase = (s.proc i).state.phase := by
    rw [← phase_wake ((s.proc p).parent.map .proc) (s.proc i)]
    rcases hpass.state i with hsame | ⟨hs, hr⟩
    · rw [hsame]
      rfl
    · rw [proc_wakeup1] at hs
      rw [hr, hs]
      rfl
  have hloop := Proc.Keeps.mk ((hpass.pid i).trans (wake_pid _ _)) hphase
    ((hpass.killed i).trans (wake_killed _ _))
  refine hloop.trans ?_
  rw [proc_modify]
  split_ifs with hi
  · subst hi
    exact ⟨rfl, hrun.symm.trans hphase.symm, rfl⟩
  · exact .refl _

end Ptable

variable {s s' : Ptable} {e : ProcEvent}

open Ptable in
theorem Ptable.step_change (hs : s.step e = .next s')
    (i : Slot) : s.Change e i (s'.proc i) := by
  cases Ptable.step_next hs with
  | wakeup addr => exact .kept (keeps_wake _ _)
  | yield hrun | sleep hrun =>
    exact .kept (keeps_modify ⟨rfl, by simp [hrun, ProcState.phase], rfl⟩)
  | call | exiting | noSlot | kstack | noPid => exact Change.same rfl
  | @fault p =>
    rw [proc_goto, proc_modify]
    split_ifs with hi
    · subst hi
      exact .faulted rfl rfl rfl
    · exact .kept (.refl _)
  | @allocproc p np _ _ hnp =>
    change s.Change _ i (((s.modify np fun x =>
      { x with state := .embryo, pid := s.nextpid }).goto p (.forkStack np)).proc i)
    rw [proc_goto, proc_modify]
    split_ifs with hi
    · subst hi
      exact .allocated p rfl hnp rfl rfl rfl
    · exact .kept (.refl _)
  | copyuvm =>
    rw [proc_goto]
    exact .kept (keeps_modify ⟨rfl, rfl, rfl⟩)
  | @kstackFail p np _ hpc | @copyuvmFail p np _ hpc =>
    rw [proc_goto, proc_modify]
    split_ifs with hi
    · subst hi
      exact .failed p (by simp) (by simp [hpc, ProcPc.forking]) rfl rfl
    · exact .kept (.refl _)
  | @publish p np _ hpc =>
    rw [proc_record, proc_goto, proc_goto, proc_modify]
    split_ifs with hi
    · subst hi
      exact .published p rfl hpc rfl rfl rfl
    · exact .kept (.refl _)
  | @wait p s' hrun _ hwait =>
    rcases hwait.change (by simp [hrun, ProcState.phase]) i with ⟨hold, hnew, hkilled⟩ | hkeep
    · exact .reaped p (.inl rfl) hold hnew hkilled
    · exact .kept hkeep
  | @kill p j _ hpc =>
    rw [proc_record, proc_goto, proc_modify]
    by_cases hi : i = j
    · subst hi
      rw [if_pos rfl]
      refine .killed p rfl hpc rfl ?_
      by_cases hs : (s.proc i).state = .sleeping
      · simp [hs, ProcState.phase]
      · simp [hs]
    · rw [if_neg hi]
      exact .kept (.refl _)
  | exit hrun _ hpass => exact .kept (keeps_exit hpass (by simp [hrun, ProcState.phase]) i)
  | dispatch hrun => exact .kept (keeps_modify ⟨rfl, by simp [hrun, ProcState.phase], rfl⟩)
  | @resume p s' hrun _ hwait =>
    -- The scan of `wait` runs on a table that differs only in how `p` is scheduled.
    rcases hwait.change (by simp [ProcState.phase]) i with ⟨hold, hnew, hkilled⟩ | hkeep
    · have hip : i ≠ p := by
        rintro rfl
        simp at hold
      rw [proc_modify, if_neg hip] at hold
      exact .reaped p (.inr rfl) hold hnew hkilled
    · exact .kept ((keeps_modify ⟨rfl, by simp [hrun, ProcState.phase], rfl⟩).trans hkeep)

theorem Ptable.pid_kept (hs : s.step e = .next s') {i : Slot}
    (hold : (s.proc i).state ≠ .unused) (hnew : (s'.proc i).state ≠ .unused) :
    (s'.proc i).pid = (s.proc i).pid := by
  cases Ptable.step_change hs i with
  | kept hkeep => exact hkeep.pid
  | killed p he hpc hpid hsame => exact hpid
  | faulted he hpid hsame => exact hpid
  | allocated p he hunused hstate hpid hkilled => exact absurd hunused hold
  | failed p he hpc hstate hkilled | reaped p he hz hstate hkilled => exact absurd hstate hnew
  | published p he hpc hstate hpid hkilled => exact hpid

theorem Ptable.WaitStep.frame {p : Slot} (h : s.WaitStep p s') :
    s'.nextpid = s.nextpid ∧ ∀ q, q ≠ p → s'.pc q = s.pc q := by
  cases h <;> exact ⟨rfl, fun q hq => by simp [hq]⟩

theorem LifeInv.publishing_kept (h : LifeInv s) (hs : s.step e = .next s') {p np : Slot}
    (hpc : s.pc p = .forkPublish np) (he : e ≠ .publish p) : s'.pc p = .forkPublish np := by
  rw [← hpc]
  -- The steps other than `publish` need their process elsewhere in its code.
  have hne {q : Slot} {c : ProcPc} (hq : s.pc q = c) (hc : c ≠ .forkPublish np) : p ≠ q := by
    rintro rfl
    exact hc (hq.symm.trans hpc)
  cases Ptable.step_next hs with
  | wakeup | yield | sleep | dispatch => rfl
  | @publish q nq _ hq =>
    have hpq : p ≠ q := by
      rintro rfl
      exact he rfl
    have hpn : p ≠ nq := by
      rintro rfl
      have halive := h.inCall p (by simp [hpc]) (by simp [hpc])
      have hembryo := h.forking q p (by simp [hq, ProcPc.forking])
      simp [hembryo, ProcState.alive] at halive
    simp [hpq, hpn]
  | wait _ hq hwait | resume _ hq hwait => exact hwait.frame.2 p (hne hq (by simp))
  | exit _ hq hpass =>
    simp only [Ptable.pc_record, Ptable.pc_goto, if_neg (hne hq (by simp)), Ptable.pc_modify, hpass.pc,
      Ptable.pc_wakeup1]
  | allocproc _ hq => exact (Ptable.pc_goto _ _ _ _).trans (if_neg (hne hq (by simp)))
  | call _ hq | exiting _ hq | fault _ hq | noSlot _ hq | kstack _ hq | copyuvm _ hq | kstackFail _ hq
  | copyuvmFail _ hq | noPid _ hq | kill _ hq => simp [hne hq (by simp)]

theorem publish_state {p np : Slot} (hs : s.step (.publish p) = .next s')
    (hpc : s.pc p = .forkPublish np) : (s'.proc np).state = .runnable := by
  cases Ptable.step_next hs with
  | publish _ hnp =>
    cases hpc.symm.trans hnp
    simp

theorem LifeInv.nextpid_le (h : LifeInv s) (hok : s.unwrapped e)
    (hs : s.step e = .next s') : s.nextpid ≤ s'.nextpid := by
  cases Ptable.step_next hs with
  | allocproc =>
    have hpos := h.nextpid_pos
    have hmax : s.nextpid < INT_MAX := hok
    exact (Int.le_add_one (le_refl _)).trans_eq (wrapInt_of_le (by omega) (by omega)).symm
  | wait _ _ hwait | resume _ _ hwait => exact hwait.frame.1.ge
  | exit _ _ hpass => exact hpass.nextpid.ge
  | _ => exact le_refl _

end Xv6
