import Xv6.Proc.Table

/-!
# Steps of the process table

What each event does to the table, with the guards under which it happens.
-/

namespace Xv6

namespace Ptable

variable (s : Ptable) (i j : Slot)

@[simp]
theorem proc_modify (f : Proc → Proc) :
    (s.modify i f).proc j = if j = i then f (s.proc i) else s.proc j := by
  simp [modify, Function.update_apply]

@[simp]
theorem pc_modify (f : Proc → Proc) : (s.modify i f).pc = s.pc := rfl

@[simp]
theorem nextpid_modify (f : Proc → Proc) : (s.modify i f).nextpid = s.nextpid := rfl

@[simp]
theorem trace_modify (f : Proc → Proc) : (s.modify i f).trace = s.trace := rfl

@[simp]
theorem proc_goto (c : ProcPc) : (s.goto i c).proc = s.proc := rfl

@[simp]
theorem pc_goto (c : ProcPc) : (s.goto i c).pc j = if j = i then c else s.pc j := by
  simp [goto, Function.update_apply]

@[simp]
theorem nextpid_goto (c : ProcPc) : (s.goto i c).nextpid = s.nextpid := rfl

@[simp]
theorem trace_goto (c : ProcPc) : (s.goto i c).trace = s.trace := rfl

@[simp]
theorem proc_record (e : LifeEvent) : (s.record e).proc = s.proc := rfl

@[simp]
theorem pc_record (e : LifeEvent) : (s.record e).pc = s.pc := rfl

@[simp]
theorem nextpid_record (e : LifeEvent) : (s.record e).nextpid = s.nextpid := rfl

@[simp]
theorem trace_record (e : LifeEvent) : (s.record e).trace = e :: s.trace := rfl

@[simp]
theorem proc_wakeup1 (c : Option Chan) : (s.wakeup1 c).proc i = (s.proc i).wake c := rfl

@[simp]
theorem pc_wakeup1 (c : Option Chan) : (s.wakeup1 c).pc = s.pc := rfl

@[simp]
theorem nextpid_wakeup1 (c : Option Chan) : (s.wakeup1 c).nextpid = s.nextpid := rfl

@[simp]
theorem trace_wakeup1 (c : Option Chan) : (s.wakeup1 c).trace = s.trace := rfl

end Ptable

section

variable (c : Option Chan) (x : Proc)
include c x

@[simp]
theorem wake_pid : (x.wake c).pid = x.pid := by
  unfold Proc.wake
  split_ifs <;> rfl

@[simp]
theorem wake_parent : (x.wake c).parent = x.parent := by
  unfold Proc.wake
  split_ifs <;> rfl

@[simp]
theorem wake_chan : (x.wake c).chan = x.chan := by
  unfold Proc.wake
  split_ifs <;> rfl

@[simp]
theorem wake_killed : (x.wake c).killed = x.killed := by
  unfold Proc.wake
  split_ifs <;> rfl

theorem wake_state :
    (x.wake c).state = x.state ∨ x.state = .sleeping ∧ (x.wake c).state = .runnable := by
  unfold Proc.wake
  split_ifs with h
  · exact .inr ⟨h.1, rfl⟩
  · exact .inl rfl

end

theorem wake_sleeping {c : Option Chan} {x : Proc} (h : (x.wake c).state = .sleeping) :
    x.state = .sleeping ∧ x.chan ≠ c := by
  unfold Proc.wake at h
  split_ifs at h with hc
  exact ⟨h, fun hchan => hc ⟨h, hchan⟩⟩

/-- What the loop of `exit` over the slots `l` does: children of `cur` go to init, and init does
not stay asleep over one that has exited. -/
structure Passed (cur : Slot) (l : List Slot) (s s' : Ptable) : Prop where
  parent : ∀ i, (s'.proc i).parent =
    if i ∈ l ∧ (s.proc i).parent = some cur then some initproc else (s.proc i).parent
  state : ∀ i, (s'.proc i).state = (s.proc i).state ∨
    (s.proc i).state = .sleeping ∧ (s'.proc i).state = .runnable
  woken : ∀ q ∈ l, (s.proc q).parent = some cur → (s.proc q).state = .zombie →
    (s'.proc initproc).state = .sleeping → (s'.proc initproc).chan ≠ some (.proc initproc)
  pid : ∀ i, (s'.proc i).pid = (s.proc i).pid
  chan : ∀ i, (s'.proc i).chan = (s.proc i).chan
  killed : ∀ i, (s'.proc i).killed = (s.proc i).killed
  pc : s'.pc = s.pc
  nextpid : s'.nextpid = s.nextpid
  trace : s'.trace = s.trace

theorem Passed.cons {cur q : Slot} {l : List Slot} {s t s' : Ptable} (hq : Passed cur [q] s t) (h : Passed cur l t s') :
    Passed cur (q :: l) s s' where
  parent i := by
    rw [h.parent, hq.parent]
    by_cases hi : i = q <;> by_cases hp : (s.proc i).parent = some cur <;> simp_all
  state i := by
    rcases h.state i with hs | ⟨hs, hr⟩ <;> rcases hq.state i with ht | ⟨ht, hr'⟩ <;> simp_all
  woken r hr hp hz hs := by
    have hs' : (t.proc initproc).state = .sleeping := by
      rcases h.state initproc with hsame | ⟨_, hrun⟩
      · rwa [hsame] at hs
      · simp [hrun] at hs
    by_cases hrq : r = q
    · rw [h.chan]
      exact hq.woken r (by simp [hrq]) hp hz hs'
    · refine h.woken r (by simpa [hrq] using hr) ?_ ?_ hs
      · simpa [hq.parent, hrq] using hp
      · rcases hq.state r with ht | ⟨ht, _⟩
        · rwa [ht]
        · simp [ht] at hz
  pid i := (h.pid i).trans (hq.pid i)
  chan i := (h.chan i).trans (hq.chan i)
  killed i := (h.killed i).trans (hq.killed i)
  pc := h.pc.trans hq.pc
  nextpid := h.nextpid.trans hq.nextpid
  trace := h.trace.trans hq.trace

theorem Passed.modify {cur q : Slot} {s : Ptable} (hp : (s.proc q).parent = some cur)
    (hz : (s.proc q).state ≠ .zombie) :
    Passed cur [q] s (s.modify q fun x => { x with parent := some initproc }) := by
  constructor
  case woken =>
    intro r hr _ hz'
    obtain rfl := List.mem_singleton.mp hr
    exact absurd hz' hz
  case pc | nextpid | trace => rfl
  all_goals
    intro i
    by_cases hi : i = q <;> simp [hi, hp]

theorem passed_passChildren (cur : Slot) (l : List Slot) (s : Ptable) :
    Passed cur l s (passChildren cur l s) := by
  induction l generalizing s with
  | nil => constructor <;> simp [passChildren]
  | cons q l ih =>
    simp only [passChildren]
    split_ifs with hp hz
    · refine Passed.cons ?_ (ih _)
      constructor
      case state =>
        intro i
        rcases wake_state (some (.proc initproc)) ((s.modify q fun x =>
          { x with parent := some initproc }).proc i) with hs | hs <;>
        by_cases hi : i = q <;> simp_all
      case woken =>
        intro _ _ _ _ hs
        exact (wake_sleeping hs).2 ∘ fun hc => by simpa using hc
      case pc | nextpid | trace => rfl
      all_goals
        intro i
        by_cases hi : i = q <;> simp [hi, hp]
    · exact Passed.cons (Passed.modify hp hz) (ih _)
    · refine Passed.cons ?_ (ih _)
      constructor <;> simp +contextual [hp]

theorem scanChildren_inl {s : Ptable} {p q : Slot} {l : List Slot} {havekids : Bool}
    (h : s.scanChildren p l havekids = .inl q) :
    (s.proc q).parent = some p ∧ (s.proc q).state = .zombie := by
  induction l generalizing havekids with
  | nil => simp [Ptable.scanChildren] at h
  | cons r l ih =>
    simp only [Ptable.scanChildren] at h
    split_ifs at h with hp hz
    · exact ih h
    · obtain rfl := Sum.inl.inj h
      exact ⟨not_ne_iff.mp hp, hz⟩
    · exact ih h

theorem scanChildren_inr {s : Ptable} {p : Slot} {l : List Slot} {havekids b : Bool}
    (h : s.scanChildren p l havekids = .inr b) :
    (∀ q ∈ l, (s.proc q).parent = some p → (s.proc q).state ≠ .zombie) ∧
    (b = false → ∀ q ∈ l, (s.proc q).parent ≠ some p) ∧ (havekids = true → b = true) := by
  induction l generalizing havekids with
  | nil =>
    obtain rfl := Sum.inr.inj h
    simp
  | cons r l ih =>
    simp only [Ptable.scanChildren] at h
    split_ifs at h with hp hz
    · obtain ⟨hzombie, hkids, hmono⟩ := ih h
      simp_all
    · obtain ⟨hzombie, hkids, hmono⟩ := ih h
      have hb : b = true := hmono rfl
      simp_all

/-- How one round of the loop of `wait` ends. -/
inductive Ptable.WaitStep (s : Ptable) (p : Slot) : Ptable → Prop where
  | reap {q : Slot} (hparent : (s.proc q).parent = some p) (hzombie : (s.proc q).state = .zombie) :
      WaitStep s p (((s.modify q fun x =>
        { x with pid := 0, parent := none, killed := false, state := .unused }).goto p .user).record
        (.waited p (s.proc q).pid))
  | fail (h : (∀ q, (s.proc q).parent ≠ some p) ∨ (s.proc p).killed = true) :
      WaitStep s p ((s.goto p .user).record (.waitFailed p))
  | sleep (h : ∀ q, (s.proc q).parent = some p → (s.proc q).state ≠ .zombie) :
      WaitStep s p
        ((s.modify p fun x => { x with chan := some (.proc p), state := .sleeping }).goto p .waiting)

theorem Ptable.wait_step (s : Ptable) (p : Slot) : s.WaitStep p (s.wait p) := by
  unfold Ptable.wait
  split
  · rename_i q hscan
    obtain ⟨hparent, hzombie⟩ := scanChildren_inl hscan
    exact .reap hparent hzombie
  · rename_i havekids hscan
    obtain ⟨hzombie, hkids, _⟩ := scanChildren_inr hscan
    split_ifs with hret
    · refine .fail ((Bool.or_eq_true_iff.mp hret).imp_left fun hnone q => ?_)
      exact hkids (by simpa using hnone) q (List.mem_finRange q)
    · exact .sleep fun q => hzombie q (List.mem_finRange q)

inductive Ptable.Next (s : Ptable) : ProcEvent → Ptable → Prop where
  | wakeup (addr : Nat) : Next s (.wakeup addr) (s.wakeup1 (some (.other addr)))
  | yield {p : Slot} (hrun : (s.proc p).state = .running) :
      Next s (.yield p) (s.modify p fun x => { x with state := .runnable })
  | sleep {p : Slot} {addr : Nat} (hrun : (s.proc p).state = .running)
      (hpc : s.pc p = .user ∨ s.pc p = .exiting) : Next s (.sleep p addr)
      (s.modify p fun x => { x with chan := some (.other addr), state := .sleeping })
  | call {p : Slot} {c : ProcCall} {pc : ProcPc} (hrun : (s.proc p).state = .running)
      (hpc : s.pc p = .user) (hlive : (s.proc p).killed = false)
      (hc : pc = .forkAlloc ∨ pc = .waitScan ∨ ∃ pid, pc = .killScan pid) :
      Next s (.call p c) (s.goto p pc)
  | exiting {p : Slot} {c : ProcCall} (hrun : (s.proc p).state = .running) (hpc : s.pc p = .user)
      (hp : p ≠ initproc) : Next s (.call p c) (s.goto p .exiting)
  | fault {p : Slot} (hrun : (s.proc p).state = .running) (hpc : s.pc p = .user)
      (hp : p ≠ initproc) :
      Next s (.fault p) ((s.modify p fun x => { x with killed := true }).goto p .exiting)
  | noSlot {p : Slot} (hrun : (s.proc p).state = .running) (hpc : s.pc p = .forkAlloc) :
      Next s (.allocproc p) (s.goto p .user)
  | allocproc {p np : Slot} (hrun : (s.proc p).state = .running) (hpc : s.pc p = .forkAlloc)
      (hnp : (s.proc np).state = .unused) : Next s (.allocproc p)
      { (s.modify np fun x => { x with state := .embryo, pid := s.nextpid }).goto p (.forkStack np)
        with nextpid := wrapInt (s.nextpid + 1) }
  | kstack {p np : Slot} (hrun : (s.proc p).state = .running) (hpc : s.pc p = .forkStack np) :
      Next s (.kstack p true) (s.goto p (.forkCopy np))
  | copyuvm {p np : Slot} (hrun : (s.proc p).state = .running) (hpc : s.pc p = .forkCopy np) :
      Next s (.copyuvm p true)
        ((s.modify np fun x => { x with parent := some p }).goto p (.forkPublish np))
  | kstackFail {p np : Slot} (hrun : (s.proc p).state = .running) (hpc : s.pc p = .forkStack np) :
      Next s (.kstack p false) ((s.modify np fun x => { x with state := .unused }).goto p .user)
  | copyuvmFail {p np : Slot} (hrun : (s.proc p).state = .running) (hpc : s.pc p = .forkCopy np) :
      Next s (.copyuvm p false) ((s.modify np fun x => { x with state := .unused }).goto p .user)
  | publish {p np : Slot} (hrun : (s.proc p).state = .running) (hpc : s.pc p = .forkPublish np) :
      Next s (.publish p) ((((s.modify np fun x => { x with state := .runnable }).goto np .user).goto p
        .user).record (.forked p (s.proc np).pid))
  | wait {p : Slot} {s' : Ptable} (hrun : (s.proc p).state = .running) (hpc : s.pc p = .waitScan)
      (hwait : s.WaitStep p s') : Next s (.wait p) s'
  | noPid {p : Slot} {pid : Int} (hrun : (s.proc p).state = .running) (hpc : s.pc p = .killScan pid) :
      Next s (.kill p) (s.goto p .user)
  | kill {p i : Slot} (hrun : (s.proc p).state = .running) (hpc : s.pc p = .killScan (s.proc i).pid) :
      Next s (.kill p) (((s.modify i fun x =>
        { x with killed := true, state := if x.state = .sleeping then .runnable else x.state }).goto
        p .user).record (.killed (s.proc i).pid))
  | exit {p : Slot} {t : Ptable} (hrun : (s.proc p).state = .running) (hpc : s.pc p = .exiting)
      (hpass : Passed p (List.finRange NPROC) (s.wakeup1 ((s.proc p).parent.map .proc)) t) :
      Next s (.exit p) (((t.modify p fun x => { x with state := .zombie }).goto p .exited).record
        (.exited (s.proc p).pid))
  | dispatch {p : Slot} (hrun : (s.proc p).state = .runnable) :
      Next s (.dispatch p) (s.modify p fun x => { x with state := .running, chan := none })
  | resume {p : Slot} {s' : Ptable} (hrun : (s.proc p).state = .runnable) (hpc : s.pc p = .waiting)
      (hwait : (s.modify p fun x => { x with state := .running, chan := none }).WaitStep p s') :
      Next s (.dispatch p) s'

theorem Ptable.enterExit_next {s s' : Ptable} {p : Slot} (h : s.enterExit p = .next s') :
    p ≠ initproc ∧ s' = s.goto p .exiting := by
  unfold Ptable.enterExit at h
  split_ifs at h with hp
  cases h
  exact ⟨hp, rfl⟩

theorem Ptable.step_next {s s' : Ptable} {e : ProcEvent} (h : s.step e = .next s') : s.Next e s' := by
  cases e with
  | wakeup addr =>
    cases h
    exact .wakeup addr
  | yield p =>
    simp only [Ptable.step] at h
    split_ifs at h with hrun
    cases h
    exact .yield hrun
  | call p c =>
    simp only [Ptable.step] at h
    split_ifs at h with hg
    unfold Ptable.call at h
    split_ifs at h with hlive
    · obtain ⟨hp, rfl⟩ := enterExit_next h
      exact .exiting hg.1 hg.2 hp
    · rw [Bool.not_eq_true] at hlive
      cases c with
      | exit =>
        obtain ⟨hp, rfl⟩ := enterExit_next h
        exact .exiting hg.1 hg.2 hp
      | _ =>
        cases h
        exact .call hg.1 hg.2 hlive (by simp)
  | fault p =>
    simp only [Ptable.step] at h
    split_ifs at h with hg
    obtain ⟨hp, rfl⟩ := enterExit_next h
    exact .fault hg.1 hg.2 hp
  | allocproc p =>
    simp only [Ptable.step] at h
    split_ifs at h with hg
    cases h
    unfold Ptable.allocproc
    split
    · exact .noSlot hg.1 hg.2
    · rename_i np hfind
      exact .allocproc hg.1 hg.2 (by simpa using List.find?_some hfind)
  | kstack p ok =>
    simp only [Ptable.step] at h
    split at h
    · rename_i np hrun hpc
      cases ok <;> cases h
      · exact .kstackFail hrun hpc
      · exact .kstack hrun hpc
    · cases h
  | copyuvm p ok =>
    simp only [Ptable.step] at h
    split at h
    · rename_i np hrun hpc
      cases ok <;> cases h
      · exact .copyuvmFail hrun hpc
      · exact .copyuvm hrun hpc
    · cases h
  | publish p =>
    simp only [Ptable.step] at h
    split at h <;> cases h
    exact .publish ‹_› ‹_›
  | kill p =>
    simp only [Ptable.step] at h
    split at h <;> cases h
    rename_i pid hrun hpc
    unfold Ptable.kill
    split
    · exact .noPid hrun hpc
    · rename_i i hfind
      obtain rfl : (s.proc i).pid = pid := by simpa using List.find?_some hfind
      exact .kill hrun hpc
  | dispatch p =>
    simp only [Ptable.step] at h
    split_ifs at h with hrun
    unfold Ptable.dispatch at h
    split at h <;> cases h
    · exact .resume hrun ‹_› (wait_step _ p)
    · exact .dispatch hrun
  | sleep p addr =>
    simp only [Ptable.step] at h
    split_ifs at h with hg
    cases h
    exact .sleep hg.1 hg.2
  | wait p =>
    simp only [Ptable.step] at h
    split_ifs at h with hg
    cases h
    exact .wait hg.1 hg.2 (wait_step s p)
  | exit p =>
    simp only [Ptable.step] at h
    split_ifs at h with hg
    cases h
    exact .exit hg.1 hg.2 (passed_passChildren p _ _)

end Xv6
