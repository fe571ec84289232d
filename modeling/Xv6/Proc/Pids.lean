import Xv6.Proc.Lifecycle

/-!
# Pids

Pids come from an `int` counter that every `allocproc` increments, also on behalf of a `fork` that
fails later.  Until the counter wraps, a pid names one process.  No bound on the number of live
processes keeps it from wrapping.
-/

namespace Xv6

theorem forked_pos {s : Ptable} (h : Reach Ptable.step Ptable.unwrapped Ptable.init s) {p : Slot}
    {pid : Int} (hmem : .forked p pid ∈ s.trace) : 0 < pid := by
  induction h with
  | init => simp [Ptable.init] at hmem
  | @step s s' e hreach _ hs ih =>
    have hinv := LifeInv.reach hreach
    rcases hinv.step_trace hs with htrace | ⟨ev, htrace, hshows⟩
    · exact ih (htrace ▸ hmem)
    · rw [htrace] at hmem
      rcases List.mem_cons.mp hmem with rfl | hold
      · obtain ⟨q, rfl, hembryo⟩ := hshows
        exact hinv.positive q (by simp [hembryo])
      · exact ih hold

/-- Pids in every state reached before `nextpid` wraps. -/
theorem pids_identify {s : Ptable} (h : Reach Ptable.step Ptable.unwrapped Ptable.init s) :
    (∀ i j, (s.proc i).state ≠ .unused → (s.proc j).state ≠ .unused → i ≠ j →
      (s.proc i).pid ≠ (s.proc j).pid) ∧
    (∀ i, (s.proc i).state ≠ .unused → 0 < (s.proc i).pid) ∧
    ∀ p pid, .forked p pid ∈ s.trace → 0 < pid := by
  have hinv := LifeInv.reach h
  refine ⟨?_, hinv.positive, fun p pid => forked_pos h⟩
  intro i j hi hj hij hpid
  exact hij (hinv.distinct i j hi hj hpid)

/-- Init forks a child with pid 2. -/
theorem pids_identify_child : ∃ s : Ptable, runEvents Ptable.step Ptable.init
        [.dispatch 0, .call 0 .fork, .allocproc 0, .kstack 0 true, .copyuvm 0 true, .publish 0] =
        .next s ∧
      s.trace = [.forked 0 2] ∧ (s.proc 0).pid ≠ (s.proc 1).pid := by
  have hok : Along Ptable.step Ptable.unwrapped Ptable.init
      [.dispatch 0, .call 0 .fork, .allocproc 0, .kstack 0 true, .copyuvm 0 true, .publish 0] := by
    decide +kernel
  refine ⟨_, rfl, rfl, ?_⟩
  exact (pids_identify (Reach.of_runEvents .init _ hok rfl)).1 0 1 (by decide) (by decide)
    (by decide)

/-- Init runs alone in user space. -/
structure Ptable.Alone (s : Ptable) (nextpid : Int) : Prop where
  init : s.proc initproc =
    { state := .running, pid := 1, parent := none, chan := none, killed := false }
  free : ∀ i, i ≠ initproc → (s.proc i).state = .unused
  user : s.pc initproc = .user
  next : s.nextpid = nextpid

namespace Ptable.Alone

variable {s : Ptable} {n : Int}

theorem findUnused (h : s.Alone n) : s.findUnused = some 1 := by
  have hinit : (s.proc 0).state = .running := congrArg Proc.state h.init
  have hfree : (s.proc 1).state = .unused := h.free 1 (by decide)
  change (0 :: 1 :: (List.finRange NPROC).drop 2).find? _ = _
  simp [List.find?, hinit, hfree]

theorem allocates (h : s.Alone n) {s₀ : Ptable} (hs : Reach Ptable.step (fun _ _ => True) s₀ s) :
    ∃ s', Reach Ptable.step (fun _ _ => True) s₀ s' ∧
      s'.proc = Function.update s.proc 1 { s.proc 1 with state := .embryo, pid := n } ∧
      s'.pc initproc = .forkStack 1 ∧ s'.nextpid = wrapInt (n + 1) ∧ s'.trace = s.trace := by
  have hcall : s.step (.call initproc .fork) = .next (s.goto initproc .forkAlloc) := by
    simp [Ptable.step, Ptable.call, h.init, h.user]
  have hfind : (s.goto initproc .forkAlloc).findUnused = some 1 := h.findUnused
  have halloc : (s.goto initproc .forkAlloc).step (.allocproc initproc) =
      .next ((s.goto initproc .forkAlloc).allocproc initproc) := by
    simp [Ptable.step, h.init]
  refine ⟨_, .step _ (.step _ hs trivial hcall) trivial halloc, ?_⟩
  rw [Ptable.allocproc, hfind]
  simp [h.next, Ptable.modify, Ptable.goto]

/-- A `fork` that finds no memory for the kernel stack only increments the counter. -/
theorem failedFork (h : s.Alone n) {s₀ : Ptable} (hs : Reach Ptable.step (fun _ _ => True) s₀ s) :
    ∃ s', Reach Ptable.step (fun _ _ => True) s₀ s' ∧ s'.Alone (wrapInt (n + 1)) := by
  obtain ⟨s₁, hs₁, hproc, hpc, hnext, -⟩ := h.allocates hs
  have hne : initproc ≠ (1 : Slot) := by decide
  have hinit : s₁.proc initproc = s.proc initproc := by rw [hproc, Function.update_of_ne hne]
  have hkstack : s₁.step (.kstack initproc false) =
      .next ((s₁.modify 1 fun x => { x with state := .unused }).goto initproc .user) := by
    simp [Ptable.step, hinit, h.init, hpc]
  refine ⟨_, .step _ hs₁ trivial hkstack, ?_, ?_, ?_, ?_⟩
  · simp [hne, hinit, h.init]
  · intro i hi
    by_cases h1 : i = 1
    · simp [h1]
    · simp [h1, hproc, h.free i hi]
  · simp
  · simpa using hnext

theorem forked (h : s.Alone n) {s₀ : Ptable} (hs : Reach Ptable.step (fun _ _ => True) s₀ s) :
    ∃ s', Reach Ptable.step (fun _ _ => True) s₀ s' ∧ .forked initproc n ∈ s'.trace ∧
      (s'.proc initproc).state = .running ∧ (s'.proc initproc).pid = 1 ∧
      (s'.proc 1).state = .runnable ∧ (s'.proc 1).pid = n := by
  obtain ⟨s₁, hs₁, hproc, hpc, -, -⟩ := h.allocates hs
  have hne : initproc ≠ (1 : Slot) := by decide
  have hinit : s₁.proc initproc = s.proc initproc := by rw [hproc, Function.update_of_ne hne]
  have hkstack : s₁.step (.kstack initproc true) = .next (s₁.goto initproc (.forkCopy 1)) := by
    simp [Ptable.step, hinit, h.init, hpc]
  set s₂ := s₁.goto initproc (.forkCopy 1)
  have hcopy : s₂.step (.copyuvm initproc true) =
      .next ((s₂.modify 1 fun x => { x with parent := some initproc }).goto initproc
        (.forkPublish 1)) := by
    simp [s₂, Ptable.step, hinit, h.init]
  set s₃ := (s₂.modify 1 fun x => { x with parent := some initproc }).goto initproc
    (.forkPublish 1)
  have hpid : (s₃.proc 1).pid = n := by simp [s₃, s₂, hproc]
  have hpublish : s₃.step (.publish initproc) =
      .next ((((s₃.modify 1 fun x => { x with state := .runnable }).goto 1 .user).goto initproc
        .user).record (.forked initproc (s₃.proc 1).pid)) := by
    simp [s₃, s₂, Ptable.step, hne, hinit, h.init]
  refine ⟨_, .step _ (.step _ (.step _ hs₁ trivial hkstack) trivial hcopy) trivial hpublish,
    ?_, ?_, ?_, ?_, ?_⟩
  · simp [hpid]
  · simp [s₃, s₂, hne, hinit, h.init]
  · simp [s₃, s₂, hne, hinit, h.init]
  · simp
  · simpa using hpid

theorem reached (k : Nat) :
    ∃ s, Reach Ptable.step (fun _ _ => True) Ptable.init s ∧ s.Alone (wrapInt (2 + k)) := by
  induction k with
  | zero =>
    have hstart : Ptable.init.step (.dispatch initproc) =
        .next (Ptable.init.modify initproc fun x => { x with state := .running, chan := none }) :=
      rfl
    refine ⟨_, .step _ .init trivial hstart, ?_, ?_, rfl, rfl⟩
    · simp [Ptable.init]
    · intro i hi
      simp [hi, Ptable.init]
  | succ k ih =>
    obtain ⟨s, hs, h⟩ := ih
    obtain ⟨s', hs', h'⟩ := h.failedFork hs
    refine ⟨s', hs', ?_⟩
    have hwrap : wrapInt (wrapInt (2 + k) + 1) = wrapInt (2 + (k + 1 : Nat)) := by
      rw [wrapInt, wrapInt, Int.bmod_add_bmod, wrapInt]
      congr 1
    rwa [hwrap] at h'

end Ptable.Alone

/-- A live process can get the pid of another: here the child of init gets the pid of init. -/
theorem reach_pid_reused : ∃ s, Reach Ptable.step (fun _ _ => True) Ptable.init s ∧
      (s.proc initproc).state = .running ∧ (s.proc 1).state = .runnable ∧
      (s.proc initproc).pid = (s.proc 1).pid := by
  obtain ⟨s, hs, h⟩ := Ptable.Alone.reached (2 ^ 32 - 1)
  have hone : wrapInt (2 + (2 ^ 32 - 1 : Nat)) = 1 := by decide
  obtain ⟨s', hs', -, hinit, hpid, hchild, hpid'⟩ := (hone ▸ h).forked hs
  exact ⟨s', hs', hinit, hchild, hpid.trans hpid'.symm⟩

/-- Enough forks, failed ones included, let `fork` return a negative value for a child that it has
made, and later give a child the pid of its parent. -/
theorem pids_wrap : (∃ s, Reach Ptable.step (fun _ _ => True) Ptable.init s ∧
      .forked initproc (-2147483648) ∈ s.trace ∧ (s.proc 1).state = .runnable ∧
      (s.proc 1).pid = -2147483648) ∧
    ∃ s, Reach Ptable.step (fun _ _ => True) Ptable.init s ∧
      (s.proc initproc).state ≠ .unused ∧ (s.proc 1).state ≠ .unused ∧
      (s.proc initproc).pid = (s.proc 1).pid := by
  constructor
  · obtain ⟨s, hs, h⟩ := Ptable.Alone.reached (2 ^ 31 - 2)
    have hmin : wrapInt (2 + (2 ^ 31 - 2 : Nat)) = -2147483648 := by decide
    obtain ⟨s', hs', hforked, -, -, hchild, hpid⟩ := (hmin ▸ h).forked hs
    exact ⟨s', hs', hforked, hchild, hpid⟩
  · obtain ⟨s, hs, hinit, hchild, hpid⟩ := reach_pid_reused
    exact ⟨s, hs, by simp [hinit], by simp [hchild], hpid⟩

end Xv6
