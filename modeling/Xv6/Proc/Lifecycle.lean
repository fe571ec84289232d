import Xv6.Proc.Steps

/-!
# Life of a process

Parents are alive, a pid is waited for once, and no process sleeps in `wait` over an exited child,
in every state that the steps of the process table reach.
-/

namespace Xv6

/-- States between publication by `fork` and the end of `exit`. -/
def ProcState.alive : ProcState → Bool
  | .sleeping | .runnable | .running => true
  | _ => false

/-- The slot that a process in `fork` is filling. -/
def ProcPc.forking : ProcPc → Option Slot
  | .forkStack np | .forkCopy np | .forkPublish np => some np
  | _ => none

/-- Pids returned by `wait`, latest first. -/
def waitedPids : List LifeEvent → List Int
  | [] => []
  | .waited _ pid :: t => pid :: waitedPids t
  | _ :: t => waitedPids t

/-- Occupied slots have distinct pids, none of which `wait` has returned. -/
structure PidInv (s : Ptable) : Prop where
  positive : ∀ i, (s.proc i).state ≠ .unused → 0 < (s.proc i).pid
  below : ∀ i, (s.proc i).state ≠ .unused → (s.proc i).pid < s.nextpid
  distinct : ∀ i j, (s.proc i).state ≠ .unused → (s.proc j).state ≠ .unused →
    (s.proc i).pid = (s.proc j).pid → i = j
  reaped : ∀ pid ∈ waitedPids s.trace, pid < s.nextpid ∧
    ∀ i, (s.proc i).state ≠ .unused → (s.proc i).pid ≠ pid
  once : (waitedPids s.trace).Nodup

theorem PidInv.keep {s s' : Ptable} (h : PidInv s) (hpid : ∀ i, (s'.proc i).pid = (s.proc i).pid)
    (hused : ∀ i, (s'.proc i).state ≠ .unused → (s.proc i).state ≠ .unused)
    (hnext : s'.nextpid = s.nextpid) (hwaited : waitedPids s'.trace = waitedPids s.trace) :
    PidInv s' := by
  constructor
  case once => exact hwaited ▸ h.once
  all_goals simp only [hpid, hnext, hwaited]
  case positive => exact fun i hi => h.positive i (hused i hi)
  case below => exact fun i hi => h.below i (hused i hi)
  case distinct => exact fun i j hi hj => h.distinct i j (hused i hi) (hused j hj)
  case reaped =>
    intro pid hmem
    obtain ⟨hlt, hfree⟩ := h.reaped pid hmem
    exact ⟨hlt, fun i hi => hfree i (hused i hi)⟩

/-- What holds of the table between any two steps. -/
structure LifeInv (s : Ptable) : Prop extends PidInv s where
  unused : ∀ i, (s.proc i).state = .unused → (s.proc i).parent = none
  init : (s.proc initproc).state.alive
  root : (s.proc initproc).parent = none
  self : ∀ i, (s.proc i).parent ≠ some i
  inCall : ∀ p, s.pc p ≠ .user → s.pc p ≠ .exited → (s.proc p).state.alive
  exited : ∀ p, s.pc p = .exited → ¬ (s.proc p).state.alive
  exiting : ∀ p, s.pc p = .exiting → p ≠ initproc
  forking : ∀ p q, (s.pc p).forking = some q → (s.proc q).state = .embryo
  forker : ∀ p p' q, (s.pc p).forking = some q → (s.pc p').forking = some q → p = p'
  embryo : ∀ q r, (s.proc q).state = .embryo → (s.proc q).parent = some r → s.pc r = .forkPublish q
  publishing : ∀ p q, s.pc p = .forkPublish q → (s.proc q).parent = some p
  published : ∀ q, q ≠ initproc → (s.proc q).state.alive ∨ (s.proc q).state = .zombie →
    (∃ r, (s.proc q).parent = some r ∧ (s.proc r).state.alive) ∧
      ∃ p, .forked p (s.proc q).pid ∈ s.trace
  zombie : ∀ q, (s.proc q).state = .zombie → .exited (s.proc q).pid ∈ s.trace
  killed : ∀ p, s.pc p = .waitScan ∨ s.pc p = .waiting → (s.proc p).killed = true →
    .killed (s.proc p).pid ∈ s.trace
  sleeping : ∀ p, (s.proc p).state = .sleeping → (s.proc p).chan = some (.proc p) →
    ∀ q, (s.proc q).parent = some p → (s.proc q).state ≠ .zombie

theorem LifeInv.start : LifeInv Ptable.init := by
  constructor
  case toPidInv =>
    constructor
    case reaped | once => simp [Ptable.init, waitedPids]
    case distinct =>
      intro i j
      simp only [Ptable.init]
      split_ifs <;> simp_all
    all_goals
      intro i
      simp only [Ptable.init]
      split_ifs <;> simp
  case unused | self | embryo | zombie | sleeping =>
    intro i
    simp only [Ptable.init]
    split_ifs <;> simp
  all_goals simp +contextual [Ptable.init, ProcState.alive, ProcPc.forking]

/-- Between two states a process stays alive, or the slot stays as it is. -/
def ProcState.Stays (c c' : ProcState) : Prop := c' = c ∨ c.alive ∧ c'.alive

theorem ProcState.Stays.alive_eq {c c' : ProcState} (h : c.Stays c') : c'.alive = c.alive := by
  rcases h with he | ⟨ha, ha'⟩
  · rw [he]
  · rw [ha, ha']

theorem ProcState.Stays.eq_iff {c c' d : ProcState} (h : c.Stays c') (hd : d.alive = false) :
    c' = d ↔ c = d := by
  rcases h with he | ⟨ha, ha'⟩
  · rw [he]
  · constructor <;> rintro rfl
    · simp [hd] at ha'
    · simp [hd] at ha

/-- Slots keep their pid, parent and phase of life; only `p` moves on. -/
structure LocalStep (s s' : Ptable) (p : Slot) : Prop where
  state : ∀ i, (s.proc i).state.Stays (s'.proc i).state
  pid : ∀ i, (s'.proc i).pid = (s.proc i).pid
  parent : ∀ i, (s'.proc i).parent = (s.proc i).parent
  nextpid : s'.nextpid = s.nextpid
  pc : ∀ i, i ≠ p → s'.pc i = s.pc i
  moved : s'.pc p = s.pc p ∨ (s.proc p).state.alive ∧ s'.pc p ≠ .exited
  exiting : s'.pc p = .exiting → p ≠ initproc
  forking : (s'.pc p).forking = (s.pc p).forking
  publish : ∀ q, s'.pc p = .forkPublish q ↔ s.pc p = .forkPublish q
  trace : ∀ e ∈ s.trace, e ∈ s'.trace
  waited : waitedPids s'.trace = waitedPids s.trace
  killed : ∀ i, s'.pc i = .waitScan ∨ s'.pc i = .waiting → (s'.proc i).killed = true →
    (s.pc i = .waitScan ∨ s.pc i = .waiting) ∧ (s.proc i).killed = true ∨
      .killed (s.proc i).pid ∈ s'.trace
  sleeping : ∀ i, (s'.proc i).state = .sleeping → (s'.proc i).chan = some (.proc i) →
    (s.proc i).state = .sleeping ∧ (s.proc i).chan = some (.proc i) ∨
      ∀ q, (s.proc q).parent = some i → (s.proc q).state ≠ .zombie

namespace LocalStep

variable {s s' : Ptable} {p : Slot}

theorem forking_eq (h : LocalStep s s' p) (i : Slot) : (s'.pc i).forking = (s.pc i).forking := by
  by_cases hi : i = p
  · subst i
    exact h.forking
  · rw [h.pc i hi]

theorem publish_iff (h : LocalStep s s' p) (i q : Slot) :
    s'.pc i = .forkPublish q ↔ s.pc i = .forkPublish q := by
  by_cases hi : i = p
  · subst i
    exact h.publish q
  · rw [h.pc i hi]

end LocalStep

theorem LifeInv.local {s s' : Ptable} {p : Slot} (h : LifeInv s) (hl : LocalStep s s' p) :
    LifeInv s' where
  toPidInv := h.toPidInv.keep hl.pid (fun i hi hu => hi (((hl.state i).eq_iff rfl).mpr hu)) hl.nextpid hl.waited
  unused i hi := by
    rw [(hl.state i).eq_iff rfl] at hi
    rw [hl.parent, h.unused i hi]
  init := by
    rw [(hl.state _).alive_eq]
    exact h.init
  root := (hl.parent initproc).trans h.root
  self i := by
    rw [hl.parent]
    exact h.self i
  inCall i hu he := by
    rw [(hl.state i).alive_eq]
    by_cases hi : i = p
    · subst i
      rcases hl.moved with hpc | ⟨ha, _⟩
      · rw [hpc] at hu he
        exact h.inCall p hu he
      · exact ha
    · rw [hl.pc i hi] at hu he
      exact h.inCall i hu he
  exited i he := by
    rw [(hl.state i).alive_eq]
    by_cases hi : i = p
    · subst i
      rcases hl.moved with hpc | ⟨_, hne⟩
      · rw [hpc] at he
        exact h.exited p he
      · exact absurd he hne
    · rw [hl.pc i hi] at he
      exact h.exited i he
  exiting i he := by
    by_cases hi : i = p
    · subst i
      exact hl.exiting he
    · rw [hl.pc i hi] at he
      exact h.exiting i he
  forking i q hf := by
    rw [hl.forking_eq] at hf
    exact ((hl.state q).eq_iff rfl).mpr (h.forking i q hf)
  forker i j q hi hj := by
    rw [hl.forking_eq] at hi hj
    exact h.forker i j q hi hj
  embryo q r hq hr := by
    rw [(hl.state q).eq_iff rfl] at hq
    rw [hl.parent] at hr
    exact (hl.publish_iff r q).mpr (h.embryo q r hq hr)
  publishing i q hi := by
    rw [hl.parent]
    exact h.publishing i q ((hl.publish_iff i q).mp hi)
  published q hq hlive := by
    rw [(hl.state q).alive_eq, (hl.state q).eq_iff rfl] at hlive
    obtain ⟨⟨r, hr, ha⟩, i, hi⟩ := h.published q hq hlive
    refine ⟨⟨r, ?_, ?_⟩, i, ?_⟩
    · rw [hl.parent, hr]
    · rw [(hl.state r).alive_eq, ha]
    · rw [hl.pid]
      exact hl.trace _ hi
  zombie q hq := by
    rw [(hl.state q).eq_iff rfl] at hq
    rw [hl.pid]
    exact hl.trace _ (h.zombie q hq)
  killed i hpc hk := by
    rw [hl.pid]
    rcases hl.killed i hpc hk with ⟨hpc', hk'⟩ | hmem
    · exact hl.trace _ (h.killed i hpc' hk')
    · exact hmem
  sleeping i hi hchan q hq := by
    rw [hl.parent] at hq
    rw [Ne, (hl.state q).eq_iff rfl]
    rcases hl.sleeping i hi hchan with ⟨hs, hc⟩ | hnone
    · exact h.sleeping i hs hc q hq
    · exact hnone q hq

namespace LifeInv

variable {s : Ptable} {p i : Slot}

theorem goto (h : LifeInv s) {c : ProcPc} (halive : (s.proc p).state.alive) (hc : c ≠ .exited)
    (hexit : c = .exiting → p ≠ initproc) (hfork : c.forking = (s.pc p).forking)
    (hpub : ∀ q, c = .forkPublish q ↔ s.pc p = .forkPublish q)
    (hkilled : c = .waitScan ∨ c = .waiting → (s.proc p).killed = true →
      .killed (s.proc p).pid ∈ s.trace) : LifeInv (s.goto p c) := by
  apply h.local (p := p)
  refine ⟨fun _ => .inl rfl, by simp, by simp, rfl, ?_, by simp [halive, hc], by simpa using hexit,
    by simpa using hfork, by simpa using hpub, by simp, rfl, ?_, ?_⟩
  · intro j hj
    simp [hj]
  · intro j hpc hk
    by_cases hj : j = p
    · subst j
      exact .inr (hkilled (by simpa using hpc) hk)
    · exact .inl ⟨by simpa [hj] using hpc, hk⟩
  · intro j hj hchan
    exact .inl ⟨hj, hchan⟩

theorem modify (h : LifeInv s) {f : Proc → Proc}
    (hstate : (s.proc i).state.Stays (f (s.proc i)).state)
    (hpid : (f (s.proc i)).pid = (s.proc i).pid)
    (hparent : (f (s.proc i)).parent = (s.proc i).parent)
    (hkilled : s.pc i = .waitScan ∨ s.pc i = .waiting → (f (s.proc i)).killed = true →
      (s.proc i).killed = true ∨ .killed (s.proc i).pid ∈ s.trace)
    (hsleep : (f (s.proc i)).state = .sleeping → (f (s.proc i)).chan = some (.proc i) →
      (s.proc i).state = .sleeping ∧ (s.proc i).chan = some (.proc i) ∨
        ∀ q, (s.proc q).parent = some i → (s.proc q).state ≠ .zombie) :
    LifeInv (s.modify i f) := by
  apply h.local (p := i)
  refine ⟨?_, ?_, ?_, rfl, fun _ _ => rfl, .inl rfl, h.exiting i, rfl, fun _ => Iff.rfl,
    by simp, rfl, ?_, ?_⟩
  all_goals
    intro j
    by_cases hj : j = i
  · subst j
    simpa using hstate
  · exact .inl (by simp [hj])
  · subst j
    simpa using hpid
  · simp [hj]
  · subst j
    simpa using hparent
  · simp [hj]
  · subst j
    intro hpc hk
    rcases hkilled (by simpa using hpc) (by simpa using hk) with hk' | hmem
    · exact .inl ⟨by simpa using hpc, hk'⟩
    · exact .inr hmem
  · intro hpc hk
    exact .inl ⟨by simpa using hpc, by simpa [hj] using hk⟩
  · subst j
    simpa using hsleep
  · intro hs hc
    exact .inl ⟨by simpa [hj] using hs, by simpa [hj] using hc⟩

theorem record (h : LifeInv s) {e : LifeEvent} (he : ∀ r pid, e ≠ .waited r pid) :
    LifeInv (s.record e) := by
  apply h.local (p := initproc)
  have hw : waitedPids (e :: s.trace) = waitedPids s.trace := by
    cases e with
    | waited r pid => exact absurd rfl (he r pid)
    | _ => rfl
  refine ⟨fun _ => .inl rfl, by simp, by simp, rfl, by simp, .inl rfl, h.exiting _, rfl,
    fun _ => Iff.rfl, fun _ hm => List.mem_cons_of_mem _ hm, hw, ?_, ?_⟩
  · intro j hpc hk
    exact .inl ⟨hpc, hk⟩
  · intro j hs hc
    exact .inl ⟨hs, hc⟩

theorem wakeup1 (h : LifeInv s) (c : Option Chan) : LifeInv (s.wakeup1 c) := by
  apply h.local (p := initproc)
  refine ⟨?_, by simp, by simp, rfl, by simp, .inl rfl, h.exiting _, rfl, fun _ => Iff.rfl,
    fun _ hm => hm, rfl, ?_, ?_⟩
  · intro j
    rcases wake_state c (s.proc j) with hs | ⟨hs, hr⟩
    · exact .inl hs
    · exact .inr ⟨by simp [hs, ProcState.alive], by simp [hr, ProcState.alive]⟩
  · intro j hpc hk
    exact .inl ⟨hpc, by simpa using hk⟩
  · intro j hs hc
    exact .inl ⟨(wake_sleeping hs).1, by simpa using hc⟩

end LifeInv

/-- Process `p` changes a slot `q` that is not alive: `fork` fills it, `wait` empties it. -/
structure SlotStep (s s' : Ptable) (p q : Slot) : Prop where
  caller : (s.proc p).state.alive
  target : ¬ (s.proc q).state.alive
  proc : ∀ i, i ≠ q → s'.proc i = s.proc i
  pc : ∀ i, i ≠ p → i ≠ q → s'.pc i = s.pc i
  pcTarget : s'.pc q = .user ∨ s'.pc q = s.pc q ∧ ¬ (s'.proc q).state.alive
  pcCaller : s'.pc p = .user ∨ (s'.pc p).forking = some q
  forker : ∀ i, (s.pc i).forking = some q → i = p
  publisher : ∀ i, s.pc p = .forkPublish i → i = q
  filling : (s'.pc p).forking = some q → (s'.proc q).state = .embryo
  embryo : ∀ r, (s'.proc q).state = .embryo → (s'.proc q).parent = some r →
    s'.pc r = .forkPublish q
  publishing : s'.pc p = .forkPublish q → (s'.proc q).parent = some p
  state : (s'.proc q).state = .embryo ∨
    (s'.proc q).state = .unused ∧ (s'.proc q).parent = none ∨
    (s'.proc q).state = .runnable ∧ (s'.proc q).parent = some p ∧
      .forked p (s'.proc q).pid ∈ s'.trace
  trace : ∀ e ∈ s.trace, e ∈ s'.trace
  nextpid : s.nextpid ≤ s'.nextpid
  positive : (s'.proc q).state ≠ .unused → 0 < (s'.proc q).pid
  pid : (s'.proc q).state ≠ .unused → (s'.proc q).pid < s'.nextpid ∧
    (s'.proc q).pid ∉ waitedPids s'.trace ∧
    ∀ i, i ≠ q → (s.proc i).state ≠ .unused → (s.proc i).pid ≠ (s'.proc q).pid
  waited : ∀ pid ∈ waitedPids s'.trace, pid ∈ waitedPids s.trace ∨
    pid < s'.nextpid ∧ ∀ i, i ≠ q → (s.proc i).state ≠ .unused → (s.proc i).pid ≠ pid
  once : (waitedPids s'.trace).Nodup

namespace SlotStep

variable {s s' : Ptable} {p q : Slot}

section

variable (h : SlotStep s s' p q)
include h

theorem caller_ne : p ≠ q := by
  rintro rfl
  exact h.target h.caller

theorem alive_of_alive {i : Slot} (hi : (s.proc i).state.alive) :
    (s'.proc i).state.alive := by
  have hne : i ≠ q := by
    rintro rfl
    exact h.target hi
  rwa [h.proc i hne]

theorem pc_target (hinv : LifeInv s) :
    s'.pc q = .user ∨ s'.pc q = .exited ∧ ¬ (s'.proc q).state.alive := by
  rcases h.pcTarget with hu | ⟨hsame, ha⟩
  · exact .inl hu
  · rw [hsame]
    by_cases hu : s.pc q = .user
    · exact .inl hu
    · by_cases he : s.pc q = .exited
      · exact .inr ⟨he, ha⟩
      · exact absurd (hinv.inCall q hu he) h.target

theorem forking_target (hinv : LifeInv s) : (s'.pc q).forking = none := by
  rcases h.pc_target hinv with hu | ⟨he, _⟩ <;> simp [*, ProcPc.forking]

theorem forking_cases (hinv : LifeInv s) {i r : Slot} (hi : (s'.pc i).forking = some r) :
    i = p ∧ r = q ∨ i ≠ p ∧ r ≠ q ∧ s'.pc i = s.pc i := by
  by_cases hip : i = p
  · subst i
    rcases h.pcCaller with hu | hq
    · simp [hu, ProcPc.forking] at hi
    · exact .inl ⟨rfl, by simpa [hq] using hi.symm⟩
  · by_cases hiq : i = q
    · subst i
      simp [h.forking_target hinv] at hi
    · have hpc := h.pc i hip hiq
      refine .inr ⟨hip, ?_, hpc⟩
      rintro rfl
      rw [hpc] at hi
      exact hip (h.forker i hi)

end

end SlotStep

theorem LifeInv.slot {s s' : Ptable} {p q : Slot} (h : LifeInv s) (hs : SlotStep s s' p q) :
    LifeInv s' where
  unused i hi := by
    by_cases hiq : i = q
    · subst i
      rcases hs.state with he | ⟨_, hp⟩ | ⟨hr, _⟩ <;> simp_all
    · rw [hs.proc i hiq] at hi ⊢
      exact h.unused i hi
  init := hs.alive_of_alive h.init
  root := by
    have hne : initproc ≠ q := by
      rintro rfl
      exact hs.target h.init
    rw [hs.proc initproc hne, h.root]
  self i hi := by
    by_cases hiq : i = q
    · subst i
      rcases hs.state with he | ⟨_, hp⟩ | ⟨_, hp, _⟩
      · have hpub := hs.embryo q he hi
        simpa [hpub, ProcPc.forking] using hs.forking_target h
      · simp [hp] at hi
      · rw [hp] at hi
        exact hs.caller_ne (Option.some.inj hi)
    · rw [hs.proc i hiq] at hi
      exact h.self i hi
  inCall i hu he := by
    by_cases hip : i = p
    · subst i
      exact hs.alive_of_alive hs.caller
    · by_cases hiq : i = q
      · subst i
        rcases hs.pc_target h with hu' | ⟨he', _⟩ <;> contradiction
      · rw [hs.pc i hip hiq] at hu he
        exact hs.alive_of_alive (h.inCall i hu he)
  exited i he := by
    by_cases hip : i = p
    · subst i
      rcases hs.pcCaller with hu | hf <;> simp [he, ProcPc.forking] at *
    · by_cases hiq : i = q
      · subst i
        rcases hs.pc_target h with hu' | ⟨_, ha⟩
        · simp [hu'] at he
        · exact ha
      · rw [hs.pc i hip hiq] at he
        rw [hs.proc i hiq]
        exact h.exited i he
  exiting i he := by
    by_cases hip : i = p
    · subst i
      rcases hs.pcCaller with hu | hf <;> simp [he, ProcPc.forking] at *
    · by_cases hiq : i = q
      · subst i
        rcases hs.pc_target h with hu' | ⟨he', _⟩ <;> simp [he] at *
      · rw [hs.pc i hip hiq] at he
        exact h.exiting i he
  forking i r hi := by
    rcases hs.forking_cases h hi with ⟨rfl, rfl⟩ | ⟨_, hrq, hpc⟩
    · exact hs.filling hi
    · rw [hpc] at hi
      rw [hs.proc r hrq]
      exact h.forking i r hi
  forker i j r hi hj := by
    rcases hs.forking_cases h hi with ⟨rfl, rfl⟩ | ⟨_, hrq, hpc⟩
    · rcases hs.forking_cases h hj with ⟨rfl, _⟩ | ⟨_, hrq, _⟩
      · rfl
      · exact absurd rfl hrq
    · rcases hs.forking_cases h hj with ⟨_, rfl⟩ | ⟨_, _, hpc'⟩
      · exact absurd rfl hrq
      · rw [hpc] at hi
        rw [hpc'] at hj
        exact h.forker i j r hi hj
  embryo i r hi hr := by
    by_cases hiq : i = q
    · subst i
      exact hs.embryo r hi hr
    · rw [hs.proc i hiq] at hi hr
      have hpub := h.embryo i r hi hr
      have hrp : r ≠ p := by
        rintro rfl
        exact hiq (hs.publisher i hpub)
      have hrq : r ≠ q := by
        rintro rfl
        exact hs.target (h.inCall r (by simp [hpub]) (by simp [hpub]))
      rw [hs.pc r hrp hrq, hpub]
  publishing i r hi := by
    rcases hs.forking_cases h (by simp [hi, ProcPc.forking] : (s'.pc i).forking = some r) with
      ⟨rfl, rfl⟩ | ⟨_, hrq, hpc⟩
    · exact hs.publishing hi
    · rw [hpc] at hi
      rw [hs.proc r hrq]
      exact h.publishing i r hi
  published i hi hlive := by
    by_cases hiq : i = q
    · subst i
      rcases hs.state with he | ⟨hu, _⟩ | ⟨_, hp, hf⟩
      · simp [he, ProcState.alive] at hlive
      · simp [hu, ProcState.alive] at hlive
      · exact ⟨⟨p, hp, hs.alive_of_alive hs.caller⟩, p, hf⟩
    · rw [hs.proc i hiq] at hlive ⊢
      obtain ⟨⟨r, hr, ha⟩, k, hk⟩ := h.published i hi hlive
      exact ⟨⟨r, hr, hs.alive_of_alive ha⟩, k, hs.trace _ hk⟩
  positive i hi := by
    by_cases hiq : i = q
    · subst i
      exact hs.positive hi
    · rw [hs.proc i hiq] at hi ⊢
      exact h.positive i hi
  below i hi := by
    by_cases hiq : i = q
    · subst i
      exact (hs.pid hi).1
    · rw [hs.proc i hiq] at hi ⊢
      exact lt_of_lt_of_le (h.below i hi) hs.nextpid
  distinct i j hi hj hij := by
    by_cases hiq : i = q
    · by_cases hjq : j = q
      · rw [hiq, hjq]
      · subst i
        rw [hs.proc j hjq] at hj hij
        exact absurd hij.symm ((hs.pid hi).2.2 j hjq hj)
    · rw [hs.proc i hiq] at hi hij
      by_cases hjq : j = q
      · subst j
        exact absurd hij ((hs.pid hj).2.2 i hiq hi)
      · rw [hs.proc j hjq] at hj hij
        exact h.distinct i j hi hj hij
  zombie i hi := by
    by_cases hiq : i = q
    · subst i
      rcases hs.state with he | ⟨hu, _⟩ | ⟨hr, _⟩ <;> simp_all
    · rw [hs.proc i hiq] at hi ⊢
      exact hs.trace _ (h.zombie i hi)
  reaped pid hpid := by
    have hold : pid < s'.nextpid ∧
        ∀ i, i ≠ q → (s.proc i).state ≠ .unused → (s.proc i).pid ≠ pid := by
      rcases hs.waited pid hpid with hmem | hnew
      · obtain ⟨hlt, hfree⟩ := h.reaped pid hmem
        exact ⟨lt_of_lt_of_le hlt hs.nextpid, fun i _ => hfree i⟩
      · exact hnew
    refine ⟨hold.1, fun i hi => ?_⟩
    by_cases hiq : i = q
    · subst i
      rintro rfl
      exact (hs.pid hi).2.1 hpid
    · rw [hs.proc i hiq] at hi ⊢
      exact hold.2 i hiq hi
  once := hs.once
  killed i hpc hk := by
    by_cases hip : i = p
    · subst i
      rcases hs.pcCaller with hu | hf
      · simp [hu] at hpc
      · rcases hpc with hpc | hpc <;> simp [hpc, ProcPc.forking] at hf
    · by_cases hiq : i = q
      · subst i
        rcases hs.pc_target h with hu' | ⟨he', _⟩ <;> simp_all
      · rw [hs.pc i hip hiq] at hpc
        rw [hs.proc i hiq] at hk ⊢
        exact hs.trace _ (h.killed i hpc hk)
  sleeping i hi hc j hj := by
    have hiq : i ≠ q := by
      rintro rfl
      rcases hs.state with he | ⟨hu, _⟩ | ⟨hr, _⟩ <;> simp_all
    rw [hs.proc i hiq] at hi hc
    by_cases hjq : j = q
    · subst j
      rcases hs.state with he | ⟨hu, _⟩ | ⟨hr, _⟩ <;> simp_all
    · rw [hs.proc j hjq] at hj ⊢
      exact h.sleeping i hi hc j hj

namespace LifeInv

variable {s : Ptable} {p q np : Slot}

section

variable (h : LifeInv s)
include h

theorem alive_of_forking (hf : (s.pc p).forking = some np) :
    (s.proc p).state.alive := by
  apply h.inCall p <;> intro hpc <;> simp [hpc, ProcPc.forking] at hf

theorem nextpid_pos : 0 < s.nextpid := by
  have hused : (s.proc initproc).state ≠ .unused := by
    intro hu
    have halive := h.init
    simp [hu, ProcState.alive] at halive
  exact (h.positive _ hused).trans (h.below _ hused)

theorem allocproc (hpc : s.pc p = .forkAlloc) (hnp : (s.proc np).state = .unused)
    (hmax : s.nextpid < INT_MAX) :
    LifeInv { (s.modify np fun x => { x with state := .embryo, pid := s.nextpid }).goto p
      (.forkStack np) with nextpid := wrapInt (s.nextpid + 1) } := by
  have hpos := h.nextpid_pos
  rw [wrapInt_of_le (by omega) (by omega)]
  have hcaller := h.inCall p (by simp [hpc]) (by simp [hpc])
  have hfresh (pid : Int) (hpid : pid ∈ waitedPids s.trace) : pid ≠ s.nextpid :=
    (h.reaped pid hpid).1.ne
  have hne : np ≠ p := by
    rintro rfl
    simp [hnp, ProcState.alive] at hcaller
  apply h.slot (p := p) (q := np)
  constructor
  case caller => exact hcaller
  case forker =>
    intro i hi
    simp [h.forking i np hi] at hnp
  case nextpid => exact Int.le_add_one (Int.le_refl _)
  case pid =>
    intro _
    refine ⟨?_, fun hmem => hfresh _ hmem (by simp), fun i hi hu => ?_⟩
    · simp only [Ptable.proc_goto, Ptable.proc_modify]
      exact Int.lt_add_one_of_le (Int.le_refl _)
    · simpa using (h.below i hu).ne
  all_goals simp +contextual [hnp, hne, hpc, hpos, h.unused np hnp, h.once, ProcState.alive,
    ProcPc.forking]

theorem forking_slot (hf : (s.pc p).forking = some np) :
    ¬ (s.proc np).state.alive ∧ (∀ i, (s.pc i).forking = some np → i = p) ∧
    0 < (s.proc np).pid ∧ (s.proc np).pid < s.nextpid ∧ (s.proc np).pid ∉ waitedPids s.trace ∧
    ∀ i, i ≠ np → (s.proc i).state ≠ .unused → (s.proc i).pid ≠ (s.proc np).pid := by
  have he := h.forking p np hf
  have hu : (s.proc np).state ≠ .unused := by simp [he]
  refine ⟨by simp [he, ProcState.alive], fun i hi => h.forker i p np hi hf, h.positive np hu,
    h.below np hu, ?_, ?_⟩
  · intro hmem
    exact (h.reaped _ hmem).2 np hu rfl
  · intro i hi hui hpid
    exact hi (h.distinct i np hui hu hpid)

theorem forkFail (hpc : s.pc p = .forkStack np ∨ s.pc p = .forkCopy np) :
    LifeInv ((s.modify np fun x => { x with state := .unused }).goto p .user) := by
  have hf : (s.pc p).forking = some np := by rcases hpc with hpc | hpc <;> simp [hpc, ProcPc.forking]
  obtain ⟨htarget, hforker, hpos, hbelow, hfresh, hdistinct⟩ := h.forking_slot hf
  -- A slot whose parent is set is being published, by that parent.
  have hparent : (s.proc np).parent = none := by
    by_contra hne
    obtain ⟨r, hr⟩ := Option.ne_none_iff_exists'.mp hne
    have hpub := h.embryo np r (h.forking p np hf) hr
    obtain rfl := hforker r (by simp [hpub, ProcPc.forking])
    rcases hpc with hpc | hpc <;> simp [hpc] at hpub
  have hne : np ≠ p := by
    rintro rfl
    exact htarget (h.alive_of_forking hf)
  apply h.slot (p := p) (q := np)
  constructor
  case caller => exact h.alive_of_forking hf
  case target => exact htarget
  case forker => exact hforker
  case publisher =>
    intro i hi
    simpa [hi, ProcPc.forking] using hf
  all_goals simp +contextual [hne, hparent, h.once, ProcState.alive, ProcPc.forking]

theorem setParent (hpc : s.pc p = .forkCopy np) :
    LifeInv ((s.modify np fun x => { x with parent := some p }).goto p (.forkPublish np)) := by
  have hf : (s.pc p).forking = some np := by simp [hpc, ProcPc.forking]
  obtain ⟨htarget, hforker, hpos, hbelow, hfresh, hdistinct⟩ := h.forking_slot hf
  have he := h.forking p np hf
  have hne : np ≠ p := by
    rintro rfl
    exact htarget (h.alive_of_forking hf)
  apply h.slot (p := p) (q := np)
  constructor
  case caller => exact h.alive_of_forking hf
  case forker => exact hforker
  case pid => simpa using fun _ => ⟨hbelow, hfresh, hdistinct⟩
  all_goals simp +contextual [hne, he, hpos, hpc, h.once, ProcState.alive, ProcPc.forking]

theorem publish (hpc : s.pc p = .forkPublish np) :
    LifeInv ((((s.modify np fun x => { x with state := .runnable }).goto np .user).goto p
      .user).record (.forked p (s.proc np).pid)) := by
  have hf : (s.pc p).forking = some np := by simp [hpc, ProcPc.forking]
  obtain ⟨htarget, hforker, hpos, hbelow, hfresh, hdistinct⟩ := h.forking_slot hf
  have hparent := h.publishing p np hpc
  apply h.slot (p := p) (q := np)
  constructor
  case forker => exact hforker
  case pid => simpa [waitedPids] using ⟨hbelow, hfresh, hdistinct⟩
  all_goals simp +contextual [h.alive_of_forking hf, htarget, hparent, hpos, hpc, h.once, waitedPids,
    ProcPc.forking]

theorem reap (hpc : s.pc p = .waitScan ∨ s.pc p = .waiting) (hq : (s.proc q).state = .zombie) :
    LifeInv (((s.modify q fun x =>
      { x with pid := 0, parent := none, killed := false, state := .unused }).goto p .user).record
      (.waited p (s.proc q).pid)) := by
  have hcaller : (s.proc p).state.alive := by
    rcases hpc with hpc | hpc <;> exact h.inCall p (by simp [hpc]) (by simp [hpc])
  have hu : (s.proc q).state ≠ .unused := by simp [hq]
  have hne : q ≠ p := by
    rintro rfl
    simp [hq, ProcState.alive] at hcaller
  apply h.slot (p := p) (q := q)
  constructor
  case caller => exact hcaller
  case forker =>
    intro i hi
    simp [h.forking i q hi] at hq
  case publisher =>
    intro i hi
    simp [hi] at hpc
  case waited =>
    intro pid hpid
    rcases List.mem_cons.mp hpid with rfl | hmem
    · exact .inr ⟨h.below q hu, fun i hi hui hpid => hi (h.distinct i q hui hu hpid)⟩
    · exact .inl hmem
  case once => exact List.nodup_cons.mpr ⟨fun hmem => (h.reaped _ hmem).2 q hu rfl, h.once⟩
  all_goals simp +contextual [hq, hne, ProcState.alive, ProcPc.forking]

end

end LifeInv

namespace Passed

variable {p i q : Slot} {s s' : Ptable}

theorem stays (h : Passed p (List.finRange NPROC) s s') (i : Slot) :
    (s.proc i).state.Stays (s'.proc i).state :=
  (h.state i).imp_right fun ⟨hs, hr⟩ => ⟨hs ▸ rfl, hr ▸ rfl⟩

theorem parent_eq (h : Passed p (List.finRange NPROC) s s') (i : Slot) :
    (s'.proc i).parent =
      if (s.proc i).parent = some p then some initproc else (s.proc i).parent := by
  simpa using h.parent i

end Passed

/-- The section of `exit` from where the parent of `p` has been woken. -/
theorem LifeInv.zombie_of_passed {s s' : Ptable} {p : Slot} (h : LifeInv s)
    (hpc : s.pc p = .exiting)
    (hwoken : ∀ r, (s.proc p).parent = some r → (s.proc r).state = .sleeping →
      (s.proc r).chan ≠ some (.proc r))
    (hp : Passed p (List.finRange NPROC) s s') :
    LifeInv (((s'.modify p fun x => { x with state := .zombie }).goto p .exited).record
      (.exited (s.proc p).pid)) := by
  have hinit := h.exiting p hpc
  have halive := h.inCall p (by simp [hpc]) (by simp [hpc])
  set t := ((s'.modify p fun x => { x with state := .zombie }).goto p .exited).record
    (.exited (s.proc p).pid) with ht
  have hpid (i : Slot) : (t.proc i).pid = (s.proc i).pid := by
    by_cases hip : i = p <;> simp [ht, hip, hp.pid]
  have hparent (i : Slot) : (t.proc i).parent =
      if (s.proc i).parent = some p then some initproc else (s.proc i).parent := by
    rw [← hp.parent_eq i]
    by_cases hip : i = p <;> simp [ht, hip]
  have hself : (t.proc p).state = .zombie := by simp [ht]
  have hother (i : Slot) (hip : i ≠ p) : (t.proc i).state = (s'.proc i).state := by simp [ht, hip]
  have hpcs (i : Slot) : t.pc i = if i = p then .exited else s.pc i := by simp [ht, hp.pc]
  have htrace : t.trace = .exited (s.proc p).pid :: s.trace := by simp [ht, hp.trace]
  have hnext : t.nextpid = s.nextpid := hp.nextpid
  have hlive (i : Slot) (hi : (s.proc i).state.alive) (hip : i ≠ p) : (t.proc i).state.alive := by
    rwa [hother i hip, (hp.stays i).alive_eq]
  have hused (i : Slot) (hi : (t.proc i).state ≠ .unused) : (s.proc i).state ≠ .unused := by
    intro hu
    by_cases hip : i = p
    · subst i
      simp [hu, ProcState.alive] at halive
    · rw [hother i hip] at hi
      exact hi (((hp.stays i).eq_iff rfl).mpr hu)
  constructor
  case unused =>
    intro i hi
    have hu : (s.proc i).state = .unused := by
      by_contra hne
      have hip : i ≠ p := by
        rintro rfl
        simp [hself] at hi
      rw [hother i hip, (hp.stays i).eq_iff rfl] at hi
      exact hne hi
    simp [hparent, h.unused i hu]
  case init => exact hlive initproc h.init hinit.symm
  case root => simp [hparent, h.root]
  case self =>
    intro i hi
    rw [hparent] at hi
    split_ifs at hi with hchild
    · obtain rfl := Option.some.inj hi
      simp [h.root] at hchild
    · exact h.self i hi
  case inCall =>
    intro i hu he
    have hip : i ≠ p := by
      rintro rfl
      simp [hpcs] at he
    simp only [hpcs, hip, if_false] at hu he
    exact hlive i (h.inCall i hu he) hip
  case exited =>
    intro i he
    by_cases hip : i = p
    · simp [hip, hself, ProcState.alive]
    · rw [hother i hip, (hp.stays i).alive_eq]
      exact h.exited i (by simpa [hpcs, hip] using he)
  case exiting =>
    intro i he
    by_cases hip : i = p
    · simp [hpcs, hip] at he
    · exact h.exiting i (by simpa [hpcs, hip] using he)
  case forking =>
    intro i q hi
    by_cases hip : i = p
    · simp [hpcs, hip, ProcPc.forking] at hi
    · have he := h.forking i q (by simpa [hpcs, hip] using hi)
      have hqp : q ≠ p := by
        rintro rfl
        simp [he, ProcState.alive] at halive
      rw [hother q hqp]
      exact ((hp.stays q).eq_iff rfl).mpr he
  case forker =>
    intro i j q hi hj
    by_cases hip : i = p
    · simp [hpcs, hip, ProcPc.forking] at hi
    · by_cases hjp : j = p
      · simp [hpcs, hjp, ProcPc.forking] at hj
      · exact h.forker i j q (by simpa [hpcs, hip] using hi) (by simpa [hpcs, hjp] using hj)
  case embryo =>
    intro q r hq hr
    have hqp : q ≠ p := by
      rintro rfl
      simp [hself] at hq
    rw [hother q hqp, (hp.stays q).eq_iff rfl] at hq
    -- A slot that is being filled has no exiting parent, so `exit` does not touch it.
    have hchild : (s.proc q).parent ≠ some p := by
      intro hpar
      simp [h.embryo q p hq hpar] at hpc
    have hpub := h.embryo q r hq (by simpa [hparent, hchild] using hr)
    have hrp : r ≠ p := by
      rintro rfl
      simp [hpub] at hpc
    simpa [hpcs, hrp] using hpub
  case publishing =>
    intro i q hi
    have hip : i ≠ p := by
      rintro rfl
      simp [hpcs] at hi
    have hpar := h.publishing i q (by simpa [hpcs, hip] using hi)
    simp [hparent, hpar, hip]
  case published =>
    intro q hq hq'
    have hlive' : (s.proc q).state.alive ∨ (s.proc q).state = .zombie := by
      by_cases hqp : q = p
      · exact .inl (hqp ▸ halive)
      · rwa [hother q hqp, (hp.stays q).alive_eq, (hp.stays q).eq_iff rfl] at hq'
    obtain ⟨⟨r, hr, ha⟩, k, hk⟩ := h.published q hq hlive'
    refine ⟨?_, k, by simp [hpid, htrace, hk]⟩
    by_cases hrp : r = p
    · subst r
      exact ⟨initproc, by simp [hparent, hr], hlive initproc h.init hinit.symm⟩
    · exact ⟨r, by simp [hparent, hr, hrp], hlive r ha hrp⟩
  case toPidInv => exact h.toPidInv.keep hpid hused hnext (by rw [htrace]; rfl)
  case zombie =>
    intro q hq
    rw [hpid, htrace]
    by_cases hqp : q = p
    · simp [hqp]
    · rw [hother q hqp, (hp.stays q).eq_iff rfl] at hq
      exact List.mem_cons_of_mem _ (h.zombie q hq)
  case killed =>
    intro i hi hk
    have hip : i ≠ p := by
      rintro rfl
      simp [hpcs] at hi
    rw [hpid, htrace]
    refine List.mem_cons_of_mem _ (h.killed i (by simpa [hpcs, hip] using hi) ?_)
    simpa [ht, hip, hp.killed] using hk
  case sleeping =>
    intro i hi hchan q hq hz
    have hip : i ≠ p := by
      rintro rfl
      simp [hself] at hi
    have hchan' : (s'.proc i).chan = some (.proc i) := by simpa [ht, hip] using hchan
    rw [hother i hip] at hi
    have hsl : (s.proc i).state = .sleeping := by
      rcases hp.state i with he | ⟨_, hr⟩
      · rwa [he] at hi
      · simp [hr] at hi
    by_cases hqp : q = p
    · subst q
      exact hwoken i (by simpa [hparent, h.self p] using hq) hsl (by rwa [← hp.chan])
    · rw [hother q hqp, (hp.stays q).eq_iff rfl] at hz
      by_cases hchild : (s.proc q).parent = some p
      · obtain rfl : initproc = i := by simpa [hparent, hchild] using hq
        exact hp.woken q (List.mem_finRange q) hchild hz hi hchan'
      · exact h.sleeping i hsl (by rwa [← hp.chan]) q (by simpa [hparent, hchild] using hq) hz

namespace LifeInv

variable {s s' : Ptable} {p : Slot}

section

variable (h : LifeInv s)
include h

theorem wait (hrun : (s.proc p).state = .running) (hpc : s.pc p = .waitScan ∨ s.pc p = .waiting)
    (hs : s.WaitStep p s') : LifeInv s' := by
  have halive : (s.proc p).state.alive := by simp [hrun, ProcState.alive]
  have hfork : (s.pc p).forking = none := by rcases hpc with hpc | hpc <;> simp [hpc, ProcPc.forking]
  have hpub (q : Slot) : s.pc p ≠ .forkPublish q := by rcases hpc with hpc | hpc <;> simp [hpc]
  cases hs with
  | reap hparent hzombie => exact h.reap hpc hzombie
  | fail =>
    refine LifeInv.record ?_ (by simp)
    apply h.goto halive
    case hfork => exact hfork.symm
    all_goals simp [hpub]
  | sleep hzombie =>
    have hm := h.modify (i := p)
      (f := fun x => { x with chan := some (.proc p), state := .sleeping })
      (.inr ⟨halive, rfl⟩) rfl rfl (by simp +contextual) (fun _ _ => .inr hzombie)
    apply hm.goto
    · simp [ProcState.alive]
    · simp
    · simp
    · exact hfork.symm
    · simp [hpub]
    · intro _ hk
      simpa using h.killed p hpc (by simpa using hk)

theorem kill {i : Slot} (hrun : (s.proc p).state = .running)
    (hpc : s.pc p = .killScan (s.proc i).pid) :
    LifeInv (((s.modify i fun x =>
      { x with killed := true, state := if x.state = .sleeping then .runnable else x.state }).goto
      p .user).record (.killed (s.proc i).pid)) := by
  have hr := h.record (e := .killed (s.proc i).pid) (by simp)
  have hm := hr.modify (i := i)
    (f := fun x =>
      { x with killed := true, state := if x.state = .sleeping then .runnable else x.state })
    ?_ rfl rfl (by simp) ?_
  · refine hm.goto (p := p) (c := .user) ?_ ?_ ?_ ?_ ?_ ?_
    · by_cases hip : p = i
      · subst i
        simp [hrun, ProcState.alive]
      · simp [hip, hrun, ProcState.alive]
    all_goals simp [hpc, ProcPc.forking]
  · by_cases hs : (s.proc i).state = .sleeping <;> simp [hs, ProcState.Stays, ProcState.alive]
  · by_cases hs : (s.proc i).state = .sleeping <;> simp [hs]

theorem step {e : ProcEvent} (hok : s.unwrapped e) (hs : s.step e = .next s') :
    LifeInv s' := by
  have hdispatch {p : Slot} (hrun : (s.proc p).state = .runnable) :
      LifeInv (s.modify p fun x => { x with state := .running, chan := none }) :=
    h.modify (.inr ⟨by simp [hrun, ProcState.alive], rfl⟩) rfl rfl (by simp +contextual) (by simp)
  cases Ptable.step_next hs with
  | wakeup addr => exact h.wakeup1 _
  | yield hrun | sleep hrun =>
    exact h.modify (.inr ⟨by simp [hrun, ProcState.alive], rfl⟩) rfl rfl (by simp +contextual)
      (by simp)
  | call hrun hpc hlive hc =>
    rcases hc with rfl | rfl | ⟨pid, rfl⟩ <;>
      apply h.goto <;> simp [hrun, hpc, hlive, ProcState.alive, ProcPc.forking]
  | exiting hrun hpc hp => apply h.goto <;> simp [hrun, hpc, hp, ProcState.alive, ProcPc.forking]
  | @fault p hrun hpc hp =>
    have hm := h.modify (i := p) (f := fun x => { x with killed := true }) (.inl rfl) rfl rfl
      (by simp [hpc]) (fun hs hc => .inl ⟨hs, hc⟩)
    apply hm.goto <;> simp [hrun, hpc, hp, ProcState.alive, ProcPc.forking]
  | noSlot hrun hpc | kstack hrun hpc | noPid hrun hpc =>
    apply h.goto <;> simp [hrun, hpc, ProcState.alive, ProcPc.forking]
  | allocproc hrun hpc hnp => exact h.allocproc hpc hnp hok
  | copyuvm hrun hpc => exact h.setParent hpc
  | kstackFail _ hpc | copyuvmFail _ hpc => exact h.forkFail (by simp [hpc])
  | publish hrun hpc => exact h.publish hpc
  | wait hrun hpc hwait => exact h.wait hrun (.inl hpc) hwait
  | kill hrun hpc => exact h.kill hrun hpc
  | @exit p t hrun hpc hpass =>
    have hz := (h.wakeup1 ((s.proc p).parent.map .proc)).zombie_of_passed hpc ?_ hpass
    · rwa [Ptable.proc_wakeup1, wake_pid] at hz
    · intro r hr hs hc
      have hr' : (s.proc p).parent = some r := by simpa using hr
      exact (wake_sleeping hs).2 (by simpa [hr'] using hc)
  | dispatch hrun => exact hdispatch hrun
  | resume hrun hpc hwait => exact (hdispatch hrun).wait (by simp) (.inr hpc) hwait

end

end LifeInv

/-- What the table shows when a call makes the entry `e` in the history. -/
def Ptable.Shows (s : Ptable) : LifeEvent → Prop
  | .waited p pid => ∃ q, (s.proc q).parent = some p ∧ (s.proc q).pid = pid ∧
      (s.proc q).state = .zombie
  | .waitFailed p => (∀ q, (s.proc q).parent ≠ some p) ∨
      (s.pc p = .waitScan ∨ s.pc p = .waiting) ∧ (s.proc p).killed = true
  | .forked _ pid => ∃ q, (s.proc q).pid = pid ∧ (s.proc q).state = .embryo
  | _ => True

theorem Ptable.WaitStep.trace {s s' : Ptable} {p : Slot} (h : s.WaitStep p s')
    (hpc : s.pc p = .waitScan ∨ s.pc p = .waiting) :
    s'.trace = s.trace ∨ ∃ e, s'.trace = e :: s.trace ∧ s.Shows e := by
  cases h with
  | @reap q hparent hzombie => exact .inr ⟨_, rfl, q, hparent, rfl, hzombie⟩
  | fail hret => exact .inr ⟨_, rfl, hret.imp_right fun hk => ⟨hpc, hk⟩⟩
  | sleep => exact .inl rfl

theorem shows_of_dispatched {s : Ptable} {p : Slot} {e : LifeEvent}
    (h : (s.modify p fun x => { x with state := .running, chan := none }).Shows e) : s.Shows e := by
  cases e with
  | waited r pid =>
    obtain ⟨q, hq, hpid, hz⟩ := h
    have hqp : q ≠ p := by
      rintro rfl
      simp at hz
    exact ⟨q, by simpa [hqp] using hq, by simpa [hqp] using hpid, by simpa [hqp] using hz⟩
  | waitFailed r =>
    rcases h with hnone | ⟨hpc, hk⟩
    · left
      intro q hq
      by_cases hqp : q = p
      · exact hnone q (by simpa [hqp] using hq)
      · exact hnone q (by simpa [hqp] using hq)
    · right
      refine ⟨hpc, ?_⟩
      by_cases hrp : r = p
      · simpa [hrp] using hk
      · simpa [hrp] using hk
  | forked r pid =>
    obtain ⟨q, hpid, he⟩ := h
    by_cases hqp : q = p
    · simp [hqp] at he
    · exact ⟨q, by simpa [hqp] using hpid, by simpa [hqp] using he⟩
  | _ => trivial

theorem LifeInv.step_trace {s s' : Ptable} {e : ProcEvent} (hinv : LifeInv s)
    (h : s.step e = .next s') :
    s'.trace = s.trace ∨ ∃ ev, s'.trace = ev :: s.trace ∧ s.Shows ev := by
  cases Ptable.step_next h with
  | @publish p np _ hpc =>
    exact .inr ⟨_, rfl, np, rfl, hinv.forking p np (by simp [hpc, ProcPc.forking])⟩
  | wait _ hpc hwait => exact hwait.trace (.inl hpc)
  | kill => exact .inr ⟨_, rfl, trivial⟩
  | exit _ _ hpass => exact .inr ⟨_, congrArg (_ :: ·) hpass.trace, trivial⟩
  | resume _ hpc hwait =>
    -- The scan runs in the same section, on a table that differs only in how `p` is scheduled.
    exact (hwait.trace (.inr hpc)).imp_right fun ⟨ev, hev, hshows⟩ =>
      ⟨ev, hev, shows_of_dispatched hshows⟩
  | _ => exact .inl rfl

theorem LifeInv.reach {s : Ptable} (h : Reach Ptable.step Ptable.unwrapped Ptable.init s) :
    LifeInv s :=
  h.invariant LifeInv.start fun _ _ _ hs hok => hs.step hok

/-- The life of processes in every state that the table reaches before `nextpid` wraps.  History entries are made by the
section in which a call decides what to return, so the table before that step is the one the call
saw. -/
theorem process_lifecycle (s : Ptable) (h : Reach Ptable.step Ptable.unwrapped Ptable.init s) :
    (∀ i, (s.proc i).state = .unused → (s.proc i).parent = none) ∧
    (∀ q, q ≠ initproc → (s.proc q).state.alive ∨ (s.proc q).state = .zombie →
      ∃ r, (s.proc q).parent = some r ∧ (s.proc r).state ≠ .unused ∧
        (s.proc r).state ≠ .zombie) ∧
    (∀ p pid, .forked p pid ∈ s.trace → (waitedPids s.trace).count pid ≤ 1) ∧
    (∀ e s' p pid, s.step e = .next s' → s'.trace = .waited p pid :: s.trace →
      ∃ q, (s.proc q).pid = pid ∧ (s.proc q).parent = some p ∧ .exited pid ∈ s.trace ∧
        ∃ r, .forked r pid ∈ s.trace) ∧
    (∀ e s' p, s.step e = .next s' → s'.trace = .waitFailed p :: s.trace →
      (∀ q, (s.proc q).parent ≠ some p) ∨
        (s.proc p).killed = true ∧ .killed (s.proc p).pid ∈ s.trace) ∧
    (∀ p, (s.proc p).state = .sleeping → (s.proc p).chan = some (.proc p) →
      ∀ q, (s.proc q).parent = some p → (s.proc q).state ≠ .zombie) := by
  have hinv := LifeInv.reach h
  have hshows {e : ProcEvent} {s' : Ptable} {ev : LifeEvent} (hs : s.step e = .next s')
      (htrace : s'.trace = ev :: s.trace) : s.Shows ev := by
    rcases hinv.step_trace hs with hsame | ⟨ev', hev, hshow⟩
    · simp [hsame] at htrace
    · rw [hev, List.cons.injEq] at htrace
      exact htrace.1 ▸ hshow
  refine ⟨hinv.unused, ?_, ?_, ?_, ?_, hinv.sleeping⟩
  · intro q hq hlive
    obtain ⟨⟨r, hr, ha⟩, _⟩ := hinv.published q hq hlive
    refine ⟨r, hr, ?_, ?_⟩ <;> intro hs <;> simp [hs, ProcState.alive] at ha
  · intro p pid _
    exact List.nodup_iff_count_le_one.mp hinv.once pid
  · intro e s' p pid hs htrace
    obtain ⟨q, hp, hpid, hz⟩ := hshows hs htrace
    have hq : q ≠ initproc := by
      rintro rfl
      simp [hinv.root] at hp
    obtain ⟨_, r, hr⟩ := hinv.published q hq (.inr hz)
    subst hpid
    exact ⟨q, rfl, hp, hinv.zombie q hz, r, hr⟩
  · intro e s' p hs htrace
    rcases hshows hs htrace with hnone | ⟨hpc, hk⟩
    · exact .inl hnone
    · exact .inr ⟨hk, hinv.killed p hpc hk⟩

/-- Init forks, sleeps in `wait`, is woken by its child's `exit` and reaps it. -/
theorem process_lifecycle_forkWait : ∃ s : Ptable, runEvents Ptable.step Ptable.init
        [.dispatch 0, .call 0 .fork, .allocproc 0, .kstack 0 true, .copyuvm 0 true, .publish 0,
          .call 0 .wait, .wait 0, .dispatch 1, .call 1 .exit, .exit 1, .dispatch 0] = .next s ∧
      .waited 0 2 ∈ s.trace ∧ (waitedPids s.trace).count 2 ≤ 1 := by
  have hrun : (runEvents Ptable.step Ptable.init
      [.dispatch 0, .call 0 .fork, .allocproc 0, .kstack 0 true, .copyuvm 0 true, .publish 0,
        .call 0 .wait, .wait 0, .dispatch 1, .call 1 .exit, .exit 1, .dispatch 0]).holds
      fun s => s.trace = [.waited 0 2, .exited 2, .forked 0 2] := by decide +kernel
  obtain ⟨s, hs, htrace⟩ := Outcome.exists_of_holds hrun
  have hok : Along Ptable.step Ptable.unwrapped Ptable.init
      [.dispatch 0, .call 0 .fork, .allocproc 0, .kstack 0 true, .copyuvm 0 true, .publish 0,
        .call 0 .wait, .wait 0, .dispatch 1, .call 1 .exit, .exit 1, .dispatch 0] := by
    decide +kernel
  have hreach := Reach.of_runEvents .init _ hok hs
  refine ⟨s, hs, by simp [htrace], ?_⟩
  exact (process_lifecycle s hreach).2.2.1 0 2 (by simp [htrace])

end Xv6
