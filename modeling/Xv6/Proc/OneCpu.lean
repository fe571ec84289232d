import Xv6.Proc.Cpu

/-!
# One process, one CPU

A CPU that has entered a process and not yet gone back to its scheduler is the only one with that
process, and the process is `RUNNING`; every `RUNNING` process has such a CPU.
-/

namespace Xv6

open Function (update_of_ne update_self)

namespace Ptable

variable {t t' : Ptable} {p q i : Slot}

/-- The slots that `fork` fills are `EMBRYO`, and each has one parent. -/
structure Forks (t : Ptable) : Prop where
  embryo : ∀ p q, (t.pc p).forking = some q → (t.proc q).state = .embryo
  forker : ∀ p p' q, (t.pc p).forking = some q → (t.pc p').forking = some q → p = p'

/-- The table as far as CPUs go -/
def isRunning (t : Ptable) (i : Slot) : Prop := (t.proc i).state = .running

/-- The same processes are running, and `fork` goes on undisturbed. -/
structure Calm (t t' : Ptable) : Prop where
  running : ∀ i, t'.isRunning i ↔ t.isRunning i
  forks : t'.Forks

theorem Forks.keep (h : t.Forks)
    (hpc : ∀ p q, (t'.pc p).forking = some q → (t.pc p).forking = some q ∧
      ((t.proc q).state = .embryo → (t'.proc q).state = .embryo)) : t'.Forks where
  embryo p q hq := (hpc p q hq).2 (h.embryo p q (hpc p q hq).1)
  forker p p' q hq hq' := h.forker p p' q (hpc p q hq).1 (hpc p' q hq').1

theorem Forks.same (h : t.Forks) (hpc : ∀ p, (t'.pc p).forking = (t.pc p).forking ∨
    (t'.pc p).forking = none)
    (hstate : ∀ q, (t.proc q).state = .embryo → (t'.proc q).state = .embryo) : t'.Forks := by
  refine h.keep fun p q hq => ⟨?_, hstate q⟩
  rcases hpc p with heq | heq
  · exact heq ▸ hq
  · exact nomatch heq.symm.trans hq

theorem forking_goto {c : ProcPc} (hc : c.forking = none) (i : Slot) :
    ((t.goto p c).pc i).forking = (t.pc i).forking ∨ ((t.goto p c).pc i).forking = none := by
  rw [pc_goto]
  split_ifs
  · exact .inr hc
  · exact .inl rfl

/-- Sleeping processes are woken, and nothing else happens to the states. -/
structure Woken (t t' : Ptable) : Prop where
  state : ∀ i, (t'.proc i).state = (t.proc i).state ∨
    (t.proc i).state = .sleeping ∧ (t'.proc i).state = .runnable
  pc : t'.pc = t.pc

theorem Woken.state_iff (h : Woken t t') {c : ProcState} (hs : c ≠ .sleeping) (hr : c ≠ .runnable)
    (i : Slot) : (t'.proc i).state = c ↔ (t.proc i).state = c := by
  rcases h.state i with heq | ⟨hold, hnew⟩
  · rw [heq]
  · rw [hold, hnew]
    exact iff_of_false (Ne.symm hr) (Ne.symm hs)

theorem Woken.trans {t'' : Ptable} (h : Woken t t') (h' : Woken t' t'') : Woken t t'' := by
  refine ⟨fun i => ?_, h'.pc.trans h.pc⟩
  rcases h.state i with heq | ⟨hold, hnew⟩
  · rw [← heq]
    exact h'.state i
  · rcases h'.state i with heq' | ⟨hold', -⟩
    · exact .inr ⟨hold, heq'.trans hnew⟩
    · exact nomatch hnew.symm.trans hold'

theorem Woken.wakeup1 (t : Ptable) (c : Option Chan) : Woken t (t.wakeup1 c) :=
  ⟨fun i => wake_state c (t.proc i), rfl⟩

theorem Woken.passed {p : Slot} {l : List Slot} (h : Passed p l t t') : Woken t t' := ⟨h.state, h.pc⟩

theorem Woken.calm (h : Woken t t') (hf : t.Forks) : Calm t t' where
  running i := h.state_iff (c := .running) (by decide) (by decide) i
  forks := hf.same (fun p => .inl (by rw [h.pc])) fun q hq =>
    (h.state_iff (c := .embryo) (by decide) (by decide) q).mpr hq

theorem isRunning_update {x : Proc} (hproc : t'.proc = Function.update t.proc i x)
    (h : x.state = .running ↔ t.isRunning i) (j : Slot) : t'.isRunning j ↔ t.isRunning j := by
  rw [isRunning, hproc]
  by_cases hj : j = i
  · subst j
    rw [update_self]
    exact h
  · rw [update_of_ne hj]
    rfl

theorem embryo_update {x : Proc} (hproc : t'.proc = Function.update t.proc i x)
    (h : (t.proc i).state = .embryo → x.state = .embryo) (j : Slot)
    (hj : (t.proc j).state = .embryo) : (t'.proc j).state = .embryo := by
  rw [hproc]
  by_cases hji : j = i
  · subst j
    rw [update_self]
    exact h hj
  · rw [update_of_ne hji]
    exact hj

theorem Calm.modify {f : Proc → Proc} (hf : t.Forks) (h : (f (t.proc i)).state = (t.proc i).state) :
    Calm t (t.modify i f) where
  running := isRunning_update rfl (by rw [isRunning, h])
  forks := hf.same (fun p => .inl rfl) (embryo_update rfl fun hi => h.trans hi)

theorem Calm.goto {c : ProcPc} (hf : t.Forks) (hc : c.forking = none) : Calm t (t.goto p c) where
  running _ := Iff.rfl
  forks := hf.same (forking_goto hc) fun _ hq => hq

theorem Calm.advance {c : ProcPc} (hf : t.Forks) (hc : c.forking = (t.pc p).forking) :
    Calm t (t.goto p c) where
  running _ := Iff.rfl
  forks := by
    refine hf.same (fun q => .inl ?_) fun _ hq => hq
    rw [pc_goto]
    split_ifs with hq
    · rw [hq, hc]
    · rfl

theorem Calm.trans {t'' : Ptable} (h : Calm t t') (h' : Calm t' t'') : Calm t t'' :=
  ⟨fun i => (h'.running i).trans (h.running i), h'.forks⟩

theorem Calm.record (h : Calm t t') (e : LifeEvent) : Calm t (t'.record e) :=
  ⟨h.running, h.forks.embryo, h.forks.forker⟩

section

variable (hf : t.Forks)
include hf

theorem Forks.take {np : Slot} {x : Proc} {c : ProcPc} (hpc : t'.pc = Function.update t.pc p c)
    (hc : c.forking = some np) (hproc : t'.proc = Function.update t.proc np x)
    (hunused : (t.proc np).state = .unused) (hx : x.state = .embryo) : t'.Forks := by
  have hnew : ∀ q, (t.pc q).forking ≠ some np := fun q hq =>
    nomatch hunused.symm.trans (hf.embryo q np hq)
  have hcases : ∀ {q r}, (t'.pc q).forking = some r →
      q = p ∧ r = np ∨ r ≠ np ∧ (t.pc q).forking = some r := by
    intro q r hq
    rw [hpc] at hq
    by_cases hqp : q = p
    · subst q
      rw [update_self, hc] at hq
      exact .inl ⟨rfl, (Option.some.inj hq).symm⟩
    · rw [update_of_ne hqp] at hq
      exact .inr ⟨fun heq => hnew q (heq ▸ hq), hq⟩
  constructor
  · intro q r hq
    rw [hproc]
    rcases hcases hq with ⟨-, rfl⟩ | ⟨hne, hq⟩
    · rw [update_self]
      exact hx
    · rw [update_of_ne hne]
      exact hf.embryo q r hq
  · intro q q' r hq hq'
    rcases hcases hq with ⟨rfl, rfl⟩ | ⟨hne, hq⟩
    · rcases hcases hq' with ⟨rfl, -⟩ | ⟨hne, -⟩
      · rfl
      · exact absurd rfl hne
    · rcases hcases hq' with ⟨-, rfl⟩ | ⟨-, hq'⟩
      · exact absurd rfl hne
      · exact hf.forker q q' r hq hq'

theorem calm_allocproc {np : Slot} (hunused : (t.proc np).state = .unused) :
    Calm t { (t.modify np fun x => { x with state := .embryo, pid := t.nextpid }).goto p (.forkStack np)
      with nextpid := wrapInt (t.nextpid + 1) } := by
  refine ⟨isRunning_update (i := np) rfl ?_, hf.take (p := p) rfl rfl rfl hunused rfl⟩
  rw [isRunning, hunused]
  exact iff_of_false nofun nofun

theorem calm_forkFail {np : Slot} (hnp : (t.pc p).forking = some np) :
    Calm t ((t.modify np fun x => { x with state := .unused }).goto p .user) where
  running := by
    refine isRunning_update rfl ?_
    rw [isRunning, hf.embryo p np hnp]
    exact iff_of_false nofun nofun
  forks := by
    refine hf.keep fun q r hq => ?_
    simp only [pc_goto, pc_modify] at hq
    split_ifs at hq with hqp
    · cases hq
    · refine ⟨hq, fun hr => ?_⟩
      simp only [proc_goto, proc_modify]
      rw [if_neg, hr]
      rintro rfl
      exact hqp (hf.forker q p r hq hnp)

theorem calm_publish {np : Slot} (hnp : t.pc p = .forkPublish np) (e : LifeEvent) :
    Calm t ((((t.modify np fun x => { x with state := .runnable }).goto np .user).goto p
      .user).record e) where
  running := by
    refine isRunning_update rfl ?_
    rw [isRunning, hf.embryo p np (by rw [hnp]; rfl)]
    exact iff_of_false nofun nofun
  forks := by
    refine hf.keep fun q r hq => ?_
    simp only [pc_record, pc_goto, pc_modify] at hq
    split_ifs at hq with hqp hqnp
    · cases hq
    · cases hq
    · refine ⟨hq, fun hr => ?_⟩
      simp only [proc_record, proc_goto, proc_modify]
      rw [if_neg, hr]
      rintro rfl
      exact hqp (hf.forker q p r hq (by rw [hnp]; rfl))

theorem calm_kill : Calm t (t.modify i fun x =>
    { x with killed := true, state := if x.state = .sleeping then .runnable else x.state }) := by
  refine Woken.calm ⟨fun j => ?_, rfl⟩ hf
  rw [proc_modify]
  by_cases hj : j = i
  · subst j
    rw [if_pos rfl]
    by_cases hs : (t.proc i).state = .sleeping
    · exact .inr ⟨hs, if_pos hs⟩
    · exact .inl (if_neg hs)
  · rw [if_neg hj]
    exact .inl rfl

end

/-- The process gives up the CPU, and nothing else starts or stops. -/
structure Leaves (t : Ptable) (p : Slot) (t' : Ptable) : Prop where
  running : ∀ i, t'.isRunning i ↔ t.isRunning i ∧ i ≠ p
  forks : t'.Forks

theorem Leaves.modify {f : Proc → Proc} (hf : t.Forks) (hrun : t.isRunning p)
    (h : (f (t.proc p)).state ≠ .running) : Leaves t p (t.modify p f) where
  running i := by
    rw [isRunning, proc_modify]
    split_ifs with hi
    · subst hi
      exact iff_of_false h fun hne => hne.2 rfl
    · exact (and_iff_left hi).symm
  forks := by
    refine hf.same (fun p => .inl rfl) (embryo_update rfl fun hp => ?_)
    exact nomatch hrun.symm.trans hp

theorem leaves_exit (hf : t.Forks) (hrun : t.isRunning p) (h : Woken t t') (e : LifeEvent) :
    Leaves t p (((t'.modify p fun x => { x with state := .zombie }).goto p .exited).record e) := by
  have hcalm := h.calm hf
  have hleaves := Leaves.modify (f := fun x => { x with state := .zombie }) hcalm.forks
    ((hcalm.running p).mpr hrun) nofun
  refine ⟨fun i => ?_, hleaves.forks.same (forking_goto rfl) fun _ hq => hq⟩
  rw [← hcalm.running i]
  exact hleaves.running i

theorem WaitStep.cases (h : t.WaitStep p t') (hf : t.Forks) (hrun : t.isRunning p) :
    t'.pc p = .waiting ∧ Leaves t p t' ∨ t'.pc p ≠ .waiting ∧ Calm t t' := by
  cases h with
  | @reap q _ hzombie =>
    refine .inr ⟨by simp, ?_, ?_⟩
    · refine isRunning_update rfl ?_
      rw [isRunning, hzombie]
      exact iff_of_false nofun nofun
    · refine hf.same (forking_goto (t := t.modify q _) rfl) (embryo_update rfl fun hq => ?_)
      exact nomatch hzombie.symm.trans hq
  | fail => exact .inr ⟨by simp, (Calm.goto (c := .user) hf rfl).record _⟩
  | sleep =>
    have hleaves := Leaves.modify
      (f := fun x => { x with chan := some (.proc p), state := .sleeping }) hf hrun nofun
    refine .inl ⟨by simp, fun i => hleaves.running i, ?_⟩
    exact hleaves.forks.same (forking_goto rfl) fun _ hq => hq

section

variable {a : ProcAct} (hf : t.Forks) (hrun : t.isRunning p) (hs : t.step (a.event p) = .next t')
include hf hrun hs

theorem leaves_act (hl : a.leaves t' p = true) : Leaves t p t' := by
  cases a with
  | exit =>
    cases step_next hs with
    | exit _ _ hpass => exact leaves_exit hf hrun ((Woken.wakeup1 t _).trans (.passed hpass)) _
  | yield | sleep =>
    cases step_next hs
    exact .modify hf hrun nofun
  | wait =>
    cases step_next hs with
    | wait _ _ hwait =>
      rcases hwait.cases hf hrun with ⟨-, hleaves⟩ | ⟨hpc, -⟩
      · exact hleaves
      · exact absurd (of_decide_eq_true hl) hpc
  | call | fault | allocproc | kstack | copyuvm | publish | kill => cases hl

theorem calm_act (hl : ¬a.leaves t' p = true) : Calm t t' := by
  have hmodify {i : Slot} {f : Proc → Proc} {c : ProcPc} (h : Calm t (t.modify i f))
      (hc : c.forking = none) : Calm t ((t.modify i f).goto p c) := h.trans (.goto h.forks hc)
  cases a with
  | call c =>
    cases step_next hs with
    | call _ _ _ hc => exact .goto hf (by rcases hc with rfl | rfl | ⟨_, rfl⟩ <;> rfl)
    | exiting => exact .goto hf rfl
  | fault =>
    cases step_next hs
    exact hmodify (.modify hf rfl) rfl
  | allocproc =>
    cases step_next hs with
    | noSlot => exact .goto hf rfl
    | allocproc _ _ hnp => exact calm_allocproc hf hnp
  | kstack ok =>
    cases step_next hs with
    | kstack _ hpc => exact .advance hf (by rw [hpc]; rfl)
    | kstackFail _ hpc => exact calm_forkFail hf (by rw [hpc]; rfl)
  | copyuvm ok =>
    cases step_next hs with
    | @copyuvm _ np _ hpc =>
      have hcalm : Calm t (t.modify np fun x => { x with parent := some p }) := .modify hf rfl
      exact hcalm.trans (.advance hcalm.forks (by rw [pc_modify, hpc]; rfl))
    | copyuvmFail _ hpc => exact calm_forkFail hf (by rw [hpc]; rfl)
  | publish =>
    cases step_next hs with
    | publish _ hpc => exact calm_publish hf hpc _
  | wait =>
    cases step_next hs with
    | wait _ _ hwait =>
      rcases hwait.cases hf hrun with ⟨hpc, -⟩ | ⟨-, hcalm⟩
      · exact absurd (decide_eq_true hpc) hl
      · exact hcalm
  | kill =>
    cases step_next hs with
    | noPid => exact .goto hf rfl
    | kill => exact (hmodify (calm_kill hf) rfl).record _
  | exit | yield | sleep => exact absurd rfl hl

end

end Ptable

theorem ProcAct.locked_of_leaves {a : ProcAct} {t : Ptable} {p : Slot}
    (h : a.leaves t p = true) : a.locked = true := by
  cases a with
  | allocproc | publish | wait | kill | exit | yield | sleep => rfl
  | call | fault | kstack | copyuvm => cases h

/-- The CPU holds `ptable.lock`. -/
def CpuPc.locked : CpuPc → Bool
  | .idle | .run _ => false
  | .scan _ | .enter _ | .back _ => true

/-- The slots that the loop of `scheduler` has yet to look at; none outside of the loop -/
def CpuPc.rest : CpuPc → Option (List Slot)
  | .idle => none
  | .scan rest | .enter rest | .run rest | .back rest => some rest

/-- The process that the CPU is in -/
def Cpu.current (x : Cpu) : Option Slot :=
  match x.pc with
  | .enter _ | .run _ => x.proc
  | .idle | .scan _ | .back _ => none

namespace Machine

open Ptable

variable {C : Type} [DecidableEq C] {s s' : Machine C} {c : C} {p : Slot} {rest : List Slot}

/-- The steps of the CPUs, with what each has found. -/
inductive Next (s : Machine C) : Event C → Machine C → Prop
  | acquire {c : C} (hpc : (s.cpu c).pc = .idle) (hlock : s.lock = none) :
    s.Next (.acquire c)
      { s.setCpu c ⟨(s.cpu c).proc, .scan (List.finRange NPROC)⟩ with lock := some c }
  | done {c : C} (hpc : (s.cpu c).pc = .scan []) :
    s.Next (.scan c) { s.setCpu c ⟨(s.cpu c).proc, .idle⟩ with lock := none }
  | pass {c : C} {i : Slot} {rest : List Slot} (hpc : (s.cpu c).pc = .scan (i :: rest))
      (hstate : (s.table.proc i).state ≠ .runnable) :
    s.Next (.scan c) (s.setCpu c ⟨(s.cpu c).proc, .scan rest⟩)
  | choose {c : C} {i : Slot} {rest : List Slot} (hpc : (s.cpu c).pc = .scan (i :: rest))
      (hstate : (s.table.proc i).state = .runnable) :
    s.Next (.scan c) { s.setCpu c ⟨some i, .enter rest⟩ with
      table := s.table.modify i fun x => { x with state := .running } }
  | wait {c : C} {p : Slot} {rest : List Slot} (hcpu : s.cpu c = ⟨some p, .enter rest⟩) :
    s.Next (.resume c) (s.wait c p rest (s.table.modify p fun x => { x with chan := none }))
  | resume {c : C} {p : Slot} {rest : List Slot} (hcpu : s.cpu c = ⟨some p, .enter rest⟩) :
    s.Next (.resume c) (s.release c p rest (s.table.modify p fun x => { x with chan := none }))
  | back {c : C} {rest : List Slot} (hpc : (s.cpu c).pc = .back rest) :
    s.Next (.back c) (s.setCpu c ⟨none, .scan rest⟩)
  | sched {c : C} {a : ProcAct} {p : Slot} {rest : List Slot} {t : Ptable}
      (hcpu : s.cpu c = ⟨some p, .run rest⟩) (ht : s.table.step (a.event p) = .next t)
      (hl : a.leaves t p = true) (hlock : s.lock = none) :
    s.Next (.act c a) (s.sched c p rest t)
  | act {c : C} {a : ProcAct} {p : Slot} {rest : List Slot} {t : Ptable}
      (hcpu : s.cpu c = ⟨some p, .run rest⟩) (ht : s.table.step (a.event p) = .next t)
      (hl : ¬a.leaves t p = true) :
    s.Next (.act c a) { s with table := t }
  | wakeup {addr : Nat} :
    s.Next (.wakeup addr) { s with table := s.table.wakeup1 (some (.other addr)) }

theorem resume_next (hcpu : s.cpu c = ⟨some p, .enter rest⟩) (hs : s.resume c p rest = .next s') :
    s.Next (.resume c) s' := by
  rw [Machine.resume] at hs
  split at hs <;> cases hs
  · exact .wait hcpu
  · exact .resume hcpu

theorem ofAct_next {a : ProcAct} (hcpu : s.cpu c = ⟨some p, .run rest⟩)
    (hs : s.ofAct c p rest a = .next s') : s.Next (.act c a) s' := by
  rw [Machine.ofAct] at hs
  split_ifs at hs with hlock
  split at hs <;> cases hs
  rename_i t ht
  split_ifs with hl
  · refine .sched hcpu ht hl (not_not.mp fun hne => ?_)
    exact hlock ⟨ProcAct.locked_of_leaves hl, hne⟩
  · exact .act hcpu ht hl

theorem step_next {e : Event C} (hs : s.step e = .next s') : s.Next e s' := by
  cases e <;> rw [step] at hs
  case acquire c =>
    split at hs <;> [split_ifs at hs with hlock; skip] <;> cases hs
    exact .acquire ‹_› hlock
  case scan c =>
    split at hs <;> [skip; split_ifs at hs with hstate; skip] <;> cases hs
    · exact .done ‹_›
    · exact .pass ‹_› hstate
    · exact .choose ‹_› (not_not.mp hstate)
  case resume c =>
    split at hs <;> [exact resume_next ‹_› hs; cases hs]
  case back c =>
    split at hs <;> cases hs
    exact .back ‹_›
  case act c a =>
    split at hs <;> [exact ofAct_next ‹_› hs; cases hs]
  case wakeup addr =>
    split_ifs at hs
    cases hs
    exact .wakeup

structure Inv (s : Machine C) : Prop where
  lock : ∀ c, s.lock = some c ↔ (s.cpu c).pc.locked = true
  one : Tenancy (fun c => (s.cpu c).current) s.table.isRunning
  scheduler : ∀ c, (s.cpu c).pc = .idle ∨ (∃ rest, (s.cpu c).pc = .scan rest) → (s.cpu c).proc = none
  forks : s.table.Forks

variable {t : Ptable}

section

variable (h : s.Inv)
include h

omit [DecidableEq C] in
theorem Inv.table (ht : Calm s.table t) : Inv { s with table := t } :=
  ⟨h.lock, h.one.congr (fun _ => rfl) ht.running, h.scheduler, ht.forks⟩

omit [DecidableEq C] in
theorem Inv.lock_of_pc {x : CpuPc} (hx : (s.cpu c).pc = x) (hlocked : x.locked = true) :
    s.lock = some c := by
  rw [h.lock, hx]
  exact hlocked

theorem Inv.onCpu {x : Cpu} (hcpu : s'.cpu = Function.update s.cpu c x)
    (hold : s.lock = none ∨ s.lock = some c) (hnew : s'.lock = if x.pc.locked then some c else none)
    (hone : Tenancy (Function.update (fun c => (s.cpu c).current) c x.current) s'.table.isRunning)
    (hscheduler : x.pc = .idle ∨ (∃ rest, x.pc = .scan rest) → x.proc = none)
    (hforks : s'.table.Forks) : s'.Inv := by
  have hself : s'.cpu c = x := by rw [hcpu, update_self]
  have hother : ∀ c', c' ≠ c → s'.cpu c' = s.cpu c' := by
    intro c' hc
    rw [hcpu, update_of_ne hc]
  refine ⟨?_, ?_, ?_, hforks⟩
  · intro c'
    by_cases hc : c' = c
    · subst c'
      rw [hself, hnew]
      cases x.pc.locked <;> simp
    · have hnot : s.lock ≠ some c' := by
        rintro heq
        rcases hold with hold | hold
        · exact nomatch hold.symm.trans heq
        · exact hc (Option.some.inj (heq.symm.trans hold))
      have hnot' : s'.lock ≠ some c' := by
        rw [hnew]
        split_ifs
        · exact fun heq => hc (Option.some.inj heq).symm
        · nofun
      rw [hother c' hc, ← h.lock]
      exact iff_of_false hnot' hnot
  · refine hone.congr (fun c' => ?_) fun _ => Iff.rfl
    by_cases hc : c' = c
    · subst c'
      rw [update_self, hself]
    · rw [update_of_ne hc, hother c' hc]
  · intro c' hpc
    by_cases hc : c' = c
    · subst c'
      rw [hself] at hpc ⊢
      exact hscheduler hpc
    · rw [hother c' hc] at hpc ⊢
      exact h.scheduler c' hpc

theorem Inv.stay {x : Cpu} (hcpu : s'.cpu = Function.update s.cpu c x)
    (hold : s.lock = none ∨ s.lock = some c) (hnew : s'.lock = if x.pc.locked then some c else none)
    (hcurrent : x.current = (s.cpu c).current) (ht : Calm s.table s'.table)
    (hscheduler : x.pc = .idle ∨ (∃ rest, x.pc = .scan rest) → x.proc = none) : s'.Inv := by
  refine h.onCpu hcpu hold hnew ?_ hscheduler ht.forks
  refine h.one.congr (fun c' => ?_) ht.running
  rw [hcurrent]
  exact congrFun (Function.update_eq_self ..) c'

omit [DecidableEq C] in
theorem Calm.refl_of : Calm s.table s.table := ⟨fun _ => Iff.rfl, h.forks⟩

section

variable (hold : s.lock = none ∨ s.lock = some c) (hcurrent : (s.cpu c).current = some p)
include hold hcurrent

theorem Inv.sched (ht : Leaves s.table p t) :
    (s.sched c p rest t).Inv := by
  refine h.onCpu (x := ⟨some p, .back rest⟩) rfl hold rfl ?_ nofun ht.forks
  exact h.one.drop hcurrent ht.running

theorem Inv.release (ht : Calm s.table t) :
    (s.release c p rest t).Inv :=
  h.stay (x := ⟨some p, .run rest⟩) rfl hold rfl hcurrent.symm ht nofun

theorem Inv.wait (ht : Calm s.table t) :
    (s.wait c p rest t).Inv := by
  have hrun : t.isRunning p := (ht.running p).mpr (h.one.used_of_name hcurrent)
  rw [Machine.wait]
  rcases (t.wait_step p).cases ht.forks hrun with ⟨hpc, hleaves⟩ | ⟨hpc, hcalm⟩
  · simp only [if_pos hpc]
    refine h.sched hold hcurrent ⟨fun i => ?_, hleaves.forks⟩
    rw [hleaves.running, ht.running]
  · simp only [if_neg hpc]
    exact h.release hold hcurrent (ht.trans hcalm)

end

theorem Inv.choose {i : Slot} (hpc : (s.cpu c).pc = .scan (i :: rest))
    (hstate : (s.table.proc i).state = .runnable) :
    Inv { s.setCpu c ⟨some i, .enter rest⟩ with
      table := s.table.modify i fun x => { x with state := .running } } := by
  have hold : s.lock = some c := h.lock_of_pc hpc rfl
  have hnone : (s.cpu c).current = none := by rw [Cpu.current, hpc]
  have hnot : ¬s.table.isRunning i := fun hrun => nomatch hstate.symm.trans hrun
  refine h.onCpu (x := ⟨some i, .enter rest⟩) rfl (.inr hold) hold ?_ nofun ?_
  · refine h.one.take hnone hnot fun j => ?_
    change ((s.table.modify i fun x => { x with state := .running }).proc j).state = _ ↔ _
    rw [proc_modify]
    split_ifs with hj
    · simp [hj]
    · simp [hj, isRunning]
  · refine h.forks.same (fun q => .inl rfl) (embryo_update rfl fun hi => ?_)
    exact nomatch hstate.symm.trans hi

theorem Inv.step {e : Event C} (hs : s.step e = .next s') : s'.Inv := by
  cases step_next hs with
  | acquire hpc hlock =>
    have hproc := h.scheduler _ (.inl hpc)
    refine h.stay (x := ⟨_, .scan (List.finRange NPROC)⟩) rfl (.inl hlock) rfl ?_ (Calm.refl_of h)
      fun _ => hproc
    rw [Cpu.current, Cpu.current, hpc]
  | done hpc =>
    have hproc := h.scheduler _ (.inr ⟨_, hpc⟩)
    refine h.stay (x := ⟨_, .idle⟩) rfl (.inr (h.lock_of_pc hpc rfl)) rfl ?_ (Calm.refl_of h)
      fun _ => hproc
    rw [Cpu.current, Cpu.current, hpc]
  | pass hpc =>
    have hold := h.lock_of_pc hpc rfl
    have hproc := h.scheduler _ (.inr ⟨_, hpc⟩)
    refine h.stay (x := ⟨_, .scan _⟩) rfl (.inr hold) hold ?_ (Calm.refl_of h) fun _ => hproc
    rw [Cpu.current, Cpu.current, hpc]
  | choose hpc hstate => exact h.choose hpc hstate
  | wait hcpu =>
    exact h.wait (.inr (h.lock_of_pc (congrArg Cpu.pc hcpu) rfl)) (by rw [hcpu]; rfl)
      (.modify h.forks rfl)
  | resume hcpu =>
    exact h.release (.inr (h.lock_of_pc (congrArg Cpu.pc hcpu) rfl)) (by rw [hcpu]; rfl)
      (.modify h.forks rfl)
  | back hpc =>
    have hold := h.lock_of_pc hpc rfl
    refine h.stay (x := ⟨none, .scan _⟩) rfl (.inr hold) hold ?_ (Calm.refl_of h) fun _ => rfl
    rw [Cpu.current, Cpu.current, hpc]
  | @sched c a p rest t hcpu ht hl hlock =>
    have hcurrent : (s.cpu c).current = some p := by rw [hcpu]; rfl
    exact h.sched (.inl hlock) hcurrent (leaves_act h.forks (h.one.used_of_name hcurrent) ht hl)
  | @act c a p rest t hcpu ht hl =>
    have hcurrent : (s.cpu c).current = some p := by rw [hcpu]; rfl
    exact h.table (calm_act h.forks (h.one.used_of_name hcurrent) ht hl)
  | wakeup => exact h.table ((Woken.wakeup1 s.table _).calm h.forks)

end

omit [DecidableEq C] in
theorem Inv.init : (init : Machine C).Inv where
  lock _ := iff_of_false nofun nofun
  one :=
    { used_of_name := nofun
      unique := nofun
      named := by
        intro p hp
        simp only [isRunning, Machine.init, Ptable.init] at hp
        split_ifs at hp }
  scheduler _ _ := rfl
  forks := ⟨nofun, nofun⟩

theorem proc_of_update {x : Cpu} {c' : C} (hcpu : s'.cpu = Function.update s.cpu c x)
    (hx : x.proc = (s.cpu c).proc ∨ x.proc = none) (hp : (s'.cpu c').proc = some p) :
    (s.cpu c').proc = some p := by
  rw [hcpu] at hp
  by_cases hc : c' = c
  · subst c'
    rw [update_self] at hp
    rcases hx with hx | hx
    · rw [← hx, hp]
    · exact nomatch hx.symm.trans hp
  · rwa [update_of_ne hc] at hp

theorem chosen_runnable {e : Event C} (hinv : s.Inv) (hs : s.step e = .next s') {c' : C}
    (hp : (s'.cpu c').proc = some p) (hold : (s.cpu c').proc ≠ some p) :
    (s.table.proc p).state = .runnable ∧ s.lock = some c' := by
  cases step_next hs with
  | @acquire c | @done c | @pass c =>
    refine absurd (proc_of_update (c := c) rfl ?_ hp) hold
    exact .inl rfl
  | @choose c i rest hpc hstate =>
    change (Function.update s.cpu c _ c').proc = _ at hp
    by_cases hc : c' = c
    · subst c'
      rw [update_self] at hp
      obtain rfl := Option.some.inj hp
      exact ⟨hstate, hinv.lock_of_pc hpc rfl⟩
    · rw [update_of_ne hc] at hp
      exact absurd hp hold
  | @wait c _ _ hcpu =>
    rw [Machine.wait] at hp
    split_ifs at hp
    all_goals exact absurd (proc_of_update (c := c) rfl (.inl (by rw [hcpu])) hp) hold
  | resume hcpu | sched hcpu => exact absurd (proc_of_update rfl (.inl (by rw [hcpu])) hp) hold
  | back => exact absurd (proc_of_update rfl (.inr rfl) hp) hold
  | act | wakeup => exact absurd hp hold

/-- In every run, whenever `ptable.lock` is free the CPUs that have a process and the `RUNNING`
processes are in bijection; a process is chosen only if it is `RUNNABLE`; and what a CPU has as its
process is `RUNNING`, or the CPU is on its way to or from its scheduler with the lock. -/
theorem one_process_one_cpu (h : Reach step (fun _ _ => True) init s) :
    (s.lock = none →
        (∀ c p, (s.cpu c).proc = some p → (s.table.proc p).state = .running) ∧
          (∀ c c' p, (s.cpu c).proc = some p → (s.cpu c').proc = some p → c = c') ∧
          ∀ p, (s.table.proc p).state = .running → ∃ c, (s.cpu c).proc = some p) ∧
      (∀ e s' c p, s.step e = .next s' → (s'.cpu c).proc = some p → (s.cpu c).proc ≠ some p →
        (s.table.proc p).state = .runnable ∧ s.lock = some c) ∧
      ∀ c p, (s.cpu c).proc = some p → (s.table.proc p).state = .running ∨ s.lock = some c := by
  have hinv : s.Inv := h.invariant .init fun _ _ _ hi _ hs => hi.step hs
  -- Where a CPU does not hold the lock, its process is the one that it is in.
  have hcurrent : ∀ c, s.lock ≠ some c → (s.cpu c).current = (s.cpu c).proc := by
    intro c hne
    have hlocked : ¬(s.cpu c).pc.locked = true := fun hl => hne ((hinv.lock c).mpr hl)
    rw [Cpu.current]
    cases hpc : (s.cpu c).pc with
    | idle => exact (hinv.scheduler c (.inl hpc)).symm
    | run rest => rfl
    | scan rest | enter rest | back rest => exact absurd (by rw [hpc]; rfl) hlocked
  refine ⟨fun hfree => ?_, fun e s' c p hs => chosen_runnable hinv hs, ?_⟩
  · have hone : Tenancy (fun c => (s.cpu c).proc) s.table.isRunning :=
      hinv.one.congr (fun c => (hcurrent c (by rw [hfree]; nofun)).symm) fun _ => Iff.rfl
    exact ⟨fun _ _ hp => hone.used_of_name hp, fun _ _ _ hp hp' => hone.unique hp hp',
      fun _ hp => hone.named hp⟩
  · intro c p hp
    by_cases hlock : s.lock = some c
    · exact .inr hlock
    · exact .inl (hinv.one.used_of_name ((hcurrent c hlock).trans hp))

/-- Init forks a child on one CPU, and the other CPU chooses the child. -/
def twoCpus : List (Event Bool) :=
  [.acquire false, .scan false, .resume false, .act false (.call .fork), .act false .allocproc,
    .act false (.kstack true), .act false (.copyuvm true), .act false .publish, .acquire true,
    .scan true, .scan true, .resume true]

theorem one_process_one_cpu_child :
    ∃ s : Machine Bool, Reach step (fun _ _ => True) init s ∧ s.lock = none ∧
      (s.cpu true).proc = some 1 ∧ (s.table.proc 1).state = .running ∧
      ∀ c, (s.cpu c).proc = some 0 → c = false := by
  obtain ⟨s, hrun, hlock, hfalse, htrue⟩ := Outcome.exists_of_holds
    (r := runEvents step (init : Machine Bool) twoCpus)
    (Q := fun s => s.lock = none ∧ (s.cpu false).proc = some 0 ∧ (s.cpu true).proc = some 1)
    (by decide +kernel)
  have hreach : Reach step (fun _ _ => True) init s :=
    .of_runEvents .init _ (Along.of_forall (fun _ _ => trivial) _ _) hrun
  obtain ⟨hrunning, hunique, -⟩ := (one_process_one_cpu hreach).1 hlock
  exact ⟨s, hreach, hlock, htrue, hrunning true 1 htrue, fun c hc => hunique c false 0 hc hfalse⟩

end Machine

end Xv6
