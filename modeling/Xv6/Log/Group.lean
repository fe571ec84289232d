import Xv6.Lib.Run
import Xv6.Lib.Sum
import Xv6.Log.Recovery

/-!
# Group commit

`begin_op`, `log_write`, `end_op` and the steps of `commit` of `log.c`, interleaved by any number
of processes.  Each section under `log.lock` is one step; `commit` runs without the lock and takes
one step for each block it writes.  The last section of `end_op` is two steps, since the lock is
kept while `wakeup` runs.
-/

namespace Xv6

open Function (update_of_ne update_self)

set_option linter.unusedSectionVars false

/-- Next step of `commit`. -/
inductive CommitPc where
  | writeLog (tail : Nat)
  | writeHead
  | install (tail : Nat)
  | clear
  | erase
  | done
  deriving DecidableEq

/-- Where a process stands in the logging calls. -/
inductive LogPc where
  | outside
  /-- At the top of the loop of `begin_op`. -/
  | beginning
  /-- In `sleep(&log, &log.lock)`. -/
  | asleep
  | inOp
  /-- In `log_write`, past its two checks and before `acquire(&log.lock)`. -/
  | appending (b : Nat) (data : Block)
  | committing (c : CommitPc)
  /-- In `end_op`, holding `log.lock`, with `committing` cleared and `wakeup(&log)` to come. -/
  | waking

inductive LogPanic where
  | tooBigTransaction
  | logWriteOutsideOfTrans
  | logCommitting
  deriving DecidableEq

/-- `struct log` with the processes that use it. -/
structure Group (P : Type) where
  log : LogState
  size : Int
  outstanding : Int
  committing : Bool
  /-- Holder of `log.lock` between two steps. -/
  lock : Option P
  pc : P → LogPc
  /-- History: blocks logged by the operation that each process is in. -/
  logged : P → List Nat
  /-- History: blocks passed to `log_write` since the last commit. -/
  since : List Nat

inductive LogEvent (P : Type) where
  | beginOp (p : P)
  | enter (p : P)
  | kill (p : P)
  | logWrite (p : P) (b : Nat) (data : Block)
  | append (p : P)
  | endOp (p : P)
  | commitStep (p : P)
  | finish (p : P)
  | wakeup (p : P)

variable {P : Type} [DecidableEq P]

def Group.goto (s : Group P) (p : P) (c : LogPc) : Group P :=
  { s with pc := Function.update s.pc p c }

/-- `wakeup(&log)` makes every process asleep in `begin_op` test again. -/
def wake : LogPc → LogPc
  | .asleep => .beginning
  | c => c

def Group.wakeup (s : Group P) : Group P := { s with pc := fun p => wake (s.pc p) }

/-- One step of `commit`, which is at `c`: the step to take next and the log after it. -/
def commitStep (log : LogState) : CommitPc → CommitPc × LogState
  | .writeLog tail =>
    match log.lh[tail]? with
    | some b => (.writeLog (tail + 1), bwrite log (log.start + tail + 1) (bread log b))
    | none => (.writeHead, log)
  | .writeHead => (.install 0, writeHead log)
  | .install tail =>
    match log.lh[tail]? with
    | some b => (.install (tail + 1), bwrite log b (bread log (log.start + tail + 1)))
    | none => (.clear, log)
  | .clear => (.erase, { log with lh := [] })
  | .erase => (.done, writeHead log)
  | .done => (.done, log)

/-- Where `commit` starts: it has nothing to do unless `lh.n > 0`. -/
def commitEntry (lh : List Nat) : CommitPc := if 0 < lh.length then .writeLog 0 else .done

/-- The loop over `lh.block[0..n)` and the assignment after it: a block already logged is
absorbed, any other is put at the end. -/
def absorb (lh : List Nat) (b : Nat) : List Nat := if b ∈ lh then lh else lh ++ [b]

/-- One step of the machine.  `sleep` gives up `log.lock` in the same step, so `enter` is the
whole turn of the loop of `begin_op`. -/
def Group.step (s : Group P) : LogEvent P → Outcome LogPanic (Group P)
  | .beginOp p =>
    match s.pc p with
    | .outside => .next { s.goto p .beginning with logged := Function.update s.logged p [] }
    | _ => .blocked
  | .enter p =>
    match s.pc p, s.lock with
    | .beginning, none =>
      if s.committing then .next (s.goto p .asleep)
      else if s.log.lh.length + (s.outstanding + 1) * MAXOPBLOCKS > LOGSIZE then
        .next (s.goto p .asleep)
      else .next { s.goto p .inOp with outstanding := s.outstanding + 1 }
    | _, _ => .blocked
  | .kill p =>
    match s.pc p with
    | .asleep => .next (s.goto p .beginning)
    | _ => .blocked
  | .logWrite p b data =>
    match s.pc p with
    | .inOp =>
      if s.log.lh.length ≥ LOGSIZE ∨ (s.log.lh.length : Int) ≥ s.size - 1 then
        .panic .tooBigTransaction
      else if s.outstanding < 1 then .panic .logWriteOutsideOfTrans
      else .next (s.goto p (.appending b data))
    | _ => .blocked
  | .append p =>
    match s.pc p, s.lock with
    | .appending b data, none =>
      .next { s.goto p .inOp with
        log := { s.log with
          lh := absorb s.log.lh b
          dirty := Function.update s.log.dirty b (some data) }
        logged := Function.update s.logged p (b :: s.logged p)
        since := b :: s.since }
    | _, _ => .blocked
  | .endOp p =>
    match s.pc p, s.lock with
    | .inOp, none =>
      if s.committing then .panic .logCommitting
      else if s.outstanding - 1 = 0 then
        .next { s.goto p (.committing (commitEntry s.log.lh)) with
          outstanding := s.outstanding - 1
          committing := true }
      else
        .next { (s.goto p .outside).wakeup with outstanding := s.outstanding - 1 }
    | _, _ => .blocked
  | .commitStep p =>
    match s.pc p with
    | .committing .done => .blocked
    | .committing c =>
      .next { s.goto p (.committing (commitStep s.log c).1) with
        log := (commitStep s.log c).2
        since := if c = .clear then [] else s.since }
    | _ => .blocked
  | .finish p =>
    match s.pc p, s.lock with
    | .committing .done, none =>
      .next { s.goto p .waking with committing := false, lock := some p }
    | _, _ => .blocked
  | .wakeup p =>
    match s.pc p with
    | .waking => .next { (s.goto p .outside).wakeup with lock := none }
    | _ => .blocked

/-- The log after `initlog`, before any process has used it. -/
def Group.init (start : Nat) (size : Int) (disk : Disk) : Group P :=
  { log := rebooted start disk, size, outstanding := 0, committing := false, lock := none
    pc := fun _ => .outside, logged := fun _ => [], since := [] }

@[simp]
theorem pc_goto (s : Group P) (p q : P) (c : LogPc) :
    (s.goto p c).pc q = if q = p then c else s.pc q := by
  simp [Group.goto, Function.update_apply]

@[simp]
theorem wake_eq_asleep (c : LogPc) : wake c ≠ .asleep := by
  cases c <;> simp [wake]

@[simp]
theorem wake_eq_committing (c : LogPc) (d : CommitPc) :
    wake c = .committing d ↔ c = .committing d := by
  cases c <;> simp [wake]

@[simp]
theorem wake_eq_waking (c : LogPc) : wake c = .waking ↔ c = .waking := by
  cases c <;> simp [wake]

/-- Every way in which a step can lead to a next state. -/
inductive Group.Moves (s : Group P) : LogEvent P → Group P → Prop where
  | beginOp (p : P) (hpc : s.pc p = .outside) :
      s.Moves (.beginOp p) { s.goto p .beginning with logged := Function.update s.logged p [] }
  | sleep (p : P) (hpc : s.pc p = .beginning) (hlock : s.lock = none)
      (hwait : s.committing = true ∨
        s.log.lh.length + (s.outstanding + 1) * MAXOPBLOCKS > LOGSIZE) :
      s.Moves (.enter p) (s.goto p .asleep)
  | enter (p : P) (hpc : s.pc p = .beginning) (hlock : s.lock = none)
      (hidle : s.committing = false)
      (hroom : s.log.lh.length + (s.outstanding + 1) * MAXOPBLOCKS ≤ LOGSIZE) :
      s.Moves (.enter p) { s.goto p .inOp with outstanding := s.outstanding + 1 }
  | kill (p : P) (hpc : s.pc p = .asleep) : s.Moves (.kill p) (s.goto p .beginning)
  | logWrite (p : P) (b : Nat) (data : Block) (hpc : s.pc p = .inOp)
      (hroom : s.log.lh.length < LOGSIZE) : s.Moves (.logWrite p b data) (s.goto p (.appending b data))
  | append (p : P) (b : Nat) (data : Block) (hpc : s.pc p = .appending b data)
      (hlock : s.lock = none) :
      s.Moves (.append p) { s.goto p .inOp with
        log := { s.log with
          lh := absorb s.log.lh b
          dirty := Function.update s.log.dirty b (some data) }
        logged := Function.update s.logged p (b :: s.logged p)
        since := b :: s.since }
  | endLast (p : P) (hpc : s.pc p = .inOp) (hlock : s.lock = none) (hidle : s.committing = false)
      (hlast : s.outstanding = 1) :
      s.Moves (.endOp p) { s.goto p (.committing (commitEntry s.log.lh)) with
        outstanding := s.outstanding - 1
        committing := true }
  | endOther (p : P) (hpc : s.pc p = .inOp) (hlock : s.lock = none) (hidle : s.committing = false)
      (hmore : s.outstanding ≠ 1) :
      s.Moves (.endOp p) { (s.goto p .outside).wakeup with outstanding := s.outstanding - 1 }
  | commitStep (p : P) (c : CommitPc) (hpc : s.pc p = .committing c) (hc : c ≠ .done) :
      s.Moves (.commitStep p) { s.goto p (.committing (commitStep s.log c).1) with
        log := (Xv6.commitStep s.log c).2
        since := if c = .clear then [] else s.since }
  | finish (p : P) (hpc : s.pc p = .committing .done) (hlock : s.lock = none) :
      s.Moves (.finish p) { s.goto p .waking with committing := false, lock := some p }
  | wakeup (p : P) (hpc : s.pc p = .waking) :
      s.Moves (.wakeup p) { (s.goto p .outside).wakeup with lock := none }

theorem Group.moves_of_step {s s' : Group P} {e : LogEvent P} (h : s.step e = .next s') :
    s.Moves e s' := by
  cases e with
  | beginOp p =>
    simp only [Group.step] at h
    split at h <;> cases h
    exact .beginOp p ‹_›
  | enter p =>
    simp only [Group.step] at h
    split at h
    · rename_i hpc hlock
      split_ifs at h with hc hfull <;> cases h
      · exact .sleep p hpc hlock (.inl hc)
      · exact .sleep p hpc hlock (.inr hfull)
      · exact .enter p hpc hlock (by simpa using hc) (by omega)
    · cases h
  | kill p =>
    simp only [Group.step] at h
    split at h <;> cases h
    exact .kill p ‹_›
  | logWrite p b data =>
    simp only [Group.step] at h
    split at h
    · split_ifs at h with hbig hout
      cases h
      exact .logWrite p b data ‹_› (by omega)
    · cases h
  | append p =>
    simp only [Group.step] at h
    split at h <;> cases h
    exact .append p _ _ ‹_› ‹_›
  | endOp p =>
    simp only [Group.step] at h
    split at h
    · split_ifs at h with hc hlast <;> cases h
      · exact .endLast p ‹_› ‹_› (by simpa using hc) (by omega)
      · exact .endOther p ‹_› ‹_› (by simpa using hc) (by omega)
    · cases h
  | commitStep p =>
    simp only [Group.step] at h
    split at h
    · cases h
    · rename_i c hne hpc
      cases h
      exact .commitStep p c hpc hne
    · cases h
  | finish p =>
    simp only [Group.step] at h
    split at h <;> cases h
    exact .finish p ‹_› ‹_›
  | wakeup p =>
    simp only [Group.step] at h
    split at h <;> cases h
    exact .wakeup p ‹_›

/-- Whether a process is between `begin_op` and `end_op`. -/
def LogPc.active : LogPc → Nat
  | .inOp => 1
  | .appending _ _ => 1
  | _ => 0

@[simp]
theorem active_wake (c : LogPc) : (wake c).active = c.active := by
  cases c <;> rfl

theorem mem_absorb (lh : List Nat) (b c : Nat) : c ∈ absorb lh b ↔ c = b ∨ c ∈ lh := by
  unfold absorb
  split_ifs with h
  · constructor
    · exact .inr
    · rintro (rfl | hc)
      · exact h
      · exact hc
  · simp [or_comm]

theorem absorb_nodup {lh : List Nat} (h : lh.Nodup) (b : Nat) : (absorb lh b).Nodup := by
  unfold absorb
  split_ifs with hb
  · exact h
  · exact List.nodup_append.mpr ⟨h, List.nodup_singleton b, by
      rintro c hc d hd rfl
      exact hb (List.mem_singleton.mp hd ▸ hc)⟩

variable [Fintype P]

/-- Processes between `begin_op` and `end_op`. -/
def activeCount (pc : P → LogPc) : Nat := ∑ p, (pc p).active

theorem activeCount_update (pc : P → LogPc) (p : P) (c : LogPc) :
    activeCount (Function.update pc p c) + (pc p).active = activeCount pc + c.active :=
  sum_update_balance (fun _ => LogPc.active) pc p c

@[simp]
theorem activeCount_wake (pc : P → LogPc) :
    activeCount (fun p => wake (pc p)) = activeCount pc := by
  simp [activeCount]

theorem active_le_activeCount (pc : P → LogPc) (p : P) : (pc p).active ≤ activeCount pc :=
  le_sum_univ (fun p => (pc p).active) p

/-- The invariant, as a relation between the fields it is about. -/
structure GroupParts (pc : P → LogPc) (outstanding : Int) (committing : Bool) (lock : Option P)
    (lh since : List Nat) : Prop where
  count : outstanding = activeCount pc
  quiet : committing = true → outstanding = 0
  committer : ∀ p c, pc p = .committing c → committing = true
  single : ∀ p q c d, pc p = .committing c → pc q = .committing d → p = q
  cleared : ∀ p c, pc p = .committing c → c = .erase ∨ c = .done → lh = []
  empty : outstanding = 0 → committing = false → lh = []
  nodup : lh.Nodup
  logged : ∀ b, b ∈ since ↔ b ∈ lh
  waking : ∀ p, pc p = .waking → lock = some p
  asleep : ∀ p, pc p = .asleep → outstanding ≠ 0 ∨ committing = true ∨ ∃ q, pc q = .waking

def GroupInv (s : Group P) : Prop :=
  GroupParts s.pc s.outstanding s.committing s.lock s.log.lh s.since

section Parts

variable {pc : P → LogPc} {outstanding : Int} {committing : Bool} {lock : Option P}
variable {lh since : List Nat}

theorem GroupParts.idle_of_committing (h : GroupParts pc outstanding committing lock lh since)
    (hc : committing = true) (p : P) : (pc p).active = 0 := by
  have hle := active_le_activeCount pc p
  have hzero := h.quiet hc
  have hcount := h.count
  omega

theorem GroupParts.no_committer (h : GroupParts pc outstanding committing lock lh since) {p : P}
    (hp : (pc p).active = 1) (q : P) (c : CommitPc) : pc q ≠ .committing c := by
  intro hq
  have hzero := h.idle_of_committing (h.committer q c hq) p
  omega

theorem pc_of_update {p q : P} {c d : LogPc} (hq : Function.update pc p c q = d) (hd : c ≠ d) :
    q ≠ p ∧ pc q = d := by
  by_cases hqp : q = p
  · subst q
    rw [update_self] at hq
    exact absurd hq hd
  · exact ⟨hqp, by rwa [update_of_ne hqp] at hq⟩

theorem GroupParts.of_idle (hcount : outstanding = activeCount pc)
    (hcommit : ∀ p c, pc p ≠ .committing c) (hwake : ∀ p, pc p ≠ .waking) (hout : outstanding ≠ 0)
    (hnodup : lh.Nodup) (hlogged : ∀ b, b ∈ since ↔ b ∈ lh) :
    GroupParts pc outstanding false lock lh since where
  count := hcount
  quiet := by simp
  committer p c hp := absurd hp (hcommit p c)
  single p _ c _ hp := absurd hp (hcommit p c)
  cleared p c hp := absurd hp (hcommit p c)
  empty hzero := absurd hzero hout
  nodup := hnodup
  logged := hlogged
  waking p hp := absurd hp (hwake p)
  asleep _ _ := .inl hout

theorem GroupParts.repc (h : GroupParts pc outstanding committing lock lh since) (p : P) (c : LogPc)
    (hactive : c.active = (pc p).active) (hnew : ∀ d, c ≠ .committing d) (hwake : c ≠ .waking)
    (hold : pc p ≠ .waking)
    (hsleep : c = .asleep → outstanding ≠ 0 ∨ committing = true ∨ ∃ q, pc q = .waking) :
    GroupParts (Function.update pc p c) outstanding committing lock lh since := by
  have hcount := activeCount_update pc p c
  have hstay (hw : ∃ q, pc q = .waking) : ∃ q, Function.update pc p c q = .waking := by
    obtain ⟨q, hq⟩ := hw
    have hqp : q ≠ p := by
      rintro rfl
      exact hold hq
    exact ⟨q, by rwa [update_of_ne hqp]⟩
  refine ⟨?_, h.quiet, ?_, ?_, ?_, h.empty, h.nodup, h.logged, ?_, ?_⟩
  · have hout := h.count
    omega
  · intro q d hq
    exact h.committer q d (pc_of_update hq (hnew d)).2
  · intro q r d e hq hr
    exact h.single q r d e (pc_of_update hq (hnew d)).2 (pc_of_update hr (hnew e)).2
  · intro q d hq
    exact h.cleared q d (pc_of_update hq (hnew d)).2
  · intro q hq
    exact h.waking q (pc_of_update hq hwake).2
  · intro q hq
    have hreason : outstanding ≠ 0 ∨ committing = true ∨ ∃ q, pc q = .waking := by
      by_cases hc : c = .asleep
      · exact hsleep hc
      · exact h.asleep q (pc_of_update hq hc).2
    exact hreason.imp_right (Or.imp_right hstay)

end Parts

theorem GroupInv.init (start : Nat) (size : Int) (disk : Disk) :
    GroupInv (Group.init start size disk : Group P) := by
  constructor <;> simp [Group.init, activeCount, LogPc.active, rebooted]

theorem commitStep_lh (log : LogState) (c : CommitPc) :
    (commitStep log c).2.lh = if c = .clear then [] else log.lh := by
  cases c <;> simp only [commitStep, writeHead, bwrite_lh, reduceCtorEq, if_false, if_true]
  all_goals split <;> simp

theorem commitStep_cleared (log : LogState) (c : CommitPc)
    (h : (commitStep log c).1 = .erase ∨ (commitStep log c).1 = .done) :
    c = .clear ∨ c = .erase ∨ c = .done := by
  cases c <;> simp only [commitStep] at h ⊢
  case writeLog => split at h <;> simp at h
  case install => split at h <;> simp at h
  all_goals simp_all

theorem GroupInv.move {s s' : Group P} {e : LogEvent P} (h : GroupInv s) (hm : s.Moves e s') :
    GroupInv s' := by
  cases hm with
  | beginOp p hpc | kill p hpc =>
    exact h.repc p .beginning (by simp [hpc, LogPc.active]) (by simp) (by simp) (by simp [hpc])
      (by simp)
  | sleep p hpc hlock hwait =>
    apply h.repc p .asleep (by simp [hpc, LogPc.active]) (by simp) (by simp) (by simp [hpc])
    intro _
    rcases hwait with hc | hfull
    · exact .inr (.inl hc)
    · by_contra hnone
      simp only [not_or, not_not, Bool.not_eq_true] at hnone
      have hlh := h.empty hnone.1 hnone.2.1
      rw [hlh, hnone.1] at hfull
      exact absurd hfull (by decide)
  | enter p hpc hlock hidle hroom =>
    have hout := h.count
    have hcount := activeCount_update s.pc p .inOp
    rw [hpc] at hcount
    simp only [LogPc.active] at hcount
    change GroupParts (Function.update s.pc p .inOp) (s.outstanding + 1) s.committing s.lock _ _
    rw [hidle]
    apply GroupParts.of_idle (by omega) _ _ (by omega) h.nodup h.logged
    · intro q c hq
      have hcom := h.committer q c (pc_of_update hq (by simp)).2
      simp [hidle] at hcom
    · intro q hq
      simpa [hlock] using h.waking q (pc_of_update hq (by simp)).2
  | logWrite p b data hpc hroom =>
    exact h.repc p (.appending b data) (by simp [hpc, LogPc.active]) (by simp) (by simp)
      (by simp [hpc]) (by simp)
  | append p b data hpc hlock =>
    have hactive : (s.pc p).active = 1 := by simp [hpc, LogPc.active]
    have hle := active_le_activeCount s.pc p
    have hout := h.count
    have hidle : s.committing = false := by
      by_contra hc
      have hzero := h.idle_of_committing (by simpa using hc) p
      omega
    have hcount := activeCount_update s.pc p .inOp
    rw [hactive] at hcount
    simp only [LogPc.active] at hcount
    change GroupParts (Function.update s.pc p .inOp) s.outstanding s.committing s.lock
      (absorb s.log.lh b) (b :: s.since)
    rw [hidle]
    apply GroupParts.of_idle (by omega) _ _ (by omega) (absorb_nodup h.nodup b)
    · intro c
      rw [mem_absorb, List.mem_cons, h.logged c]
    · intro q c hq
      exact h.no_committer hactive q c (pc_of_update hq (by simp)).2
    · intro q hq
      simpa [hlock] using h.waking q (pc_of_update hq (by simp)).2
  | endLast p hpc hlock hidle hlast =>
    have hcount := activeCount_update s.pc p (.committing (commitEntry s.log.lh))
    have hout := h.count
    rw [hpc] at hcount
    simp only [LogPc.active] at hcount
    have honly (q : P) (c : CommitPc)
        (hq : Function.update s.pc p (.committing (commitEntry s.log.lh)) q = .committing c) :
        q = p := by
      by_contra hqp
      rw [update_of_ne hqp] at hq
      exact h.no_committer (p := p) (by simp [hpc, LogPc.active]) q c hq
    refine ⟨?_, ?_, fun _ _ _ => rfl, ?_, ?_, ?_, h.nodup, h.logged, ?_, fun _ _ => .inr (.inl rfl)⟩
    · change s.outstanding - 1 = activeCount (Function.update s.pc p _)
      omega
    · intro _
      change s.outstanding - 1 = 0
      omega
    · intro q r c d hq hr
      rw [honly q c hq, honly r d hr]
    · intro q c hq hc
      obtain rfl := honly q c hq
      change Function.update s.pc q _ q = _ at hq
      rw [update_self] at hq
      obtain rfl := LogPc.committing.inj hq
      change s.log.lh = []
      by_contra hne
      simp [commitEntry, List.length_pos_iff.mpr hne] at hc
    · intro _ hc
      simp at hc
    · intro q hq
      simpa [hlock] using h.waking q (pc_of_update hq (by simp)).2
  | endOther p hpc hlock hidle hmore =>
    have hactive : (s.pc p).active = 1 := by simp [hpc, LogPc.active]
    have hcount := activeCount_update s.pc p .outside
    have hout := h.count
    rw [hactive] at hcount
    simp only [LogPc.active] at hcount
    change GroupParts (fun q => wake (Function.update s.pc p .outside q)) (s.outstanding - 1)
      s.committing s.lock _ _
    rw [hidle]
    apply GroupParts.of_idle _ _ _ (by omega) h.nodup h.logged
    · rw [activeCount_wake]
      omega
    · intro q c hq
      rw [wake_eq_committing] at hq
      exact h.no_committer hactive q c (pc_of_update hq (by simp)).2
    · intro q hq
      rw [wake_eq_waking] at hq
      simpa [hlock] using h.waking q (pc_of_update hq (by simp)).2
  | commitStep p c hpc hc =>
    have hcom := h.committer p c hpc
    have hcount := activeCount_update s.pc p (.committing (Xv6.commitStep s.log c).1)
    have hout := h.count
    rw [hpc] at hcount
    simp only [LogPc.active] at hcount
    have honly (q : P) (d : CommitPc)
        (hq : Function.update s.pc p (.committing (Xv6.commitStep s.log c).1) q = .committing d) :
        q = p := by
      by_contra hqp
      rw [update_of_ne hqp] at hq
      exact hqp (h.single q p d c hq hpc)
    change GroupParts (Function.update s.pc p (.committing (Xv6.commitStep s.log c).1))
      s.outstanding s.committing s.lock (Xv6.commitStep s.log c).2.lh
      (if c = .clear then [] else s.since)
    rw [commitStep_lh]
    refine ⟨by omega, h.quiet, fun _ _ _ => hcom, ?_, ?_, ?_, ?_, ?_, ?_,
      fun _ _ => .inr (.inl hcom)⟩
    · intro q r d e hq hr
      rw [honly q d hq, honly r e hr]
    · intro q d hq hd
      obtain rfl := honly q d hq
      rw [update_self] at hq
      obtain rfl := LogPc.committing.inj hq
      rcases commitStep_cleared s.log c hd with hclear | hdone
      · simp [hclear]
      · simp [h.cleared q c hpc hdone]
    · intro _ hidle
      simp [hcom] at hidle
    · split_ifs
      · exact List.nodup_nil
      · exact h.nodup
    · intro b
      split_ifs
      · rfl
      · exact h.logged b
    · intro q hq
      exact h.waking q (pc_of_update hq (by simp)).2
  | finish p hpc hlock =>
    have hcom := h.committer p _ hpc
    have hzero := h.quiet hcom
    have hlh := h.cleared p _ hpc (.inr rfl)
    have hcount := activeCount_update s.pc p .waking
    have hout := h.count
    rw [hpc] at hcount
    simp only [LogPc.active] at hcount
    have hnone (q : P) (c : CommitPc) : Function.update s.pc p .waking q ≠ .committing c := by
      intro hq
      obtain ⟨hqp, hq⟩ := pc_of_update hq (by simp)
      exact hqp (h.single q p c _ hq hpc)
    change GroupParts (Function.update s.pc p .waking) s.outstanding false (some p) s.log.lh s.since
    refine ⟨by omega, by simp, fun q c hq => absurd hq (hnone q c),
      fun q _ c _ hq => absurd hq (hnone q c), fun q c hq => absurd hq (hnone q c),
      fun _ _ => hlh, h.nodup, h.logged, ?_, ?_⟩
    · intro q hq
      by_cases hqp : q = p
      · rw [hqp]
      · rw [update_of_ne hqp] at hq
        simpa [hlock] using h.waking q hq
    · intro q _
      exact .inr (.inr ⟨p, update_self ..⟩)
  | wakeup p hpc =>
    have hlock := h.waking p hpc
    have hcount := activeCount_update s.pc p .outside
    have hout := h.count
    rw [hpc] at hcount
    simp only [LogPc.active] at hcount
    have hcommit (q : P) (c : CommitPc)
        (hq : wake (Function.update s.pc p .outside q) = .committing c) : s.pc q = .committing c :=
      (pc_of_update ((wake_eq_committing _ _).mp hq) (by simp)).2
    change GroupParts (fun q => wake (Function.update s.pc p .outside q)) s.outstanding
      s.committing none s.log.lh s.since
    refine ⟨?_, h.quiet, fun q c hq => h.committer q c (hcommit q c hq),
      fun q r c d hq hr => h.single q r c d (hcommit q c hq) (hcommit r d hr),
      fun q c hq => h.cleared q c (hcommit q c hq), h.empty, h.nodup, h.logged, ?_, ?_⟩
    · rw [activeCount_wake]
      omega
    · intro q hq
      obtain ⟨hqp, hq⟩ := pc_of_update ((wake_eq_waking _).mp hq) (by simp)
      have hq' := h.waking q hq
      rw [hlock] at hq'
      exact absurd (Option.some.inj hq').symm hqp
    · intro q hq
      exact absurd hq (wake_eq_asleep _)

theorem GroupInv.reach {start : Nat} {size : Int} {disk : Disk} {ok : Group P → LogEvent P → Prop}
    {s : Group P} (h : Reach Group.step ok (Group.init start size disk) s) : GroupInv s :=
  h.invariant (GroupInv.init start size disk) fun _ _ _ hinv _ hstep =>
    hinv.move (Group.moves_of_step hstep)

theorem GroupInv.step_ne_logCommitting {s : Group P} (h : GroupInv s) (e : LogEvent P) :
    s.step e ≠ .panic .logCommitting := by
  cases e with
  | endOp p =>
    simp only [Group.step]
    split
    · rename_i hpc _
      have hidle : s.committing ≠ true := by
        intro hc
        simpa [hpc, LogPc.active] using h.idle_of_committing hc p
      rw [if_neg hidle]
      split_ifs <;> simp
    · simp
  | _ => simp only [Group.step]; split <;> (try split_ifs) <;> simp

/-- The group-commit protocol, in every state that any interleaving reaches. -/
theorem group_commit_protocol (start : Nat) (size : Int) (disk : Disk) (s : Group P)
    (h : Reach Group.step (fun _ _ => True) (Group.init start size disk) s) :
    (s.committing = true → s.outstanding = 0 ∧
      (∀ p b data, s.step (.logWrite p b data) = .blocked ∧ s.step (.append p) = .blocked) ∧
      (∀ p s', s.step (.enter p) = .next s' → s'.pc p = .asleep)) ∧
    (∀ e, s.step e ≠ .panic .logCommitting) ∧
    (s.outstanding = 0 → s.committing = false → s.log.lh = []) ∧
    s.log.lh.Nodup ∧ (∀ b ∈ s.since, b ∈ s.log.lh) ∧
    (∀ p, s.pc p = .asleep →
      ¬(s.outstanding = 0 ∧ s.committing = false ∧ ∀ q, s.pc q ≠ .waking)) := by
  have hinv : GroupInv s := GroupInv.reach h
  refine ⟨?_, hinv.step_ne_logCommitting, hinv.empty, hinv.nodup,
    fun b hb => (hinv.logged b).mp hb, ?_⟩
  · intro hc
    refine ⟨hinv.quiet hc, ?_, ?_⟩
    · intro p b data
      have hidle := hinv.idle_of_committing hc p
      cases hpc : s.pc p <;> simp_all [Group.step, LogPc.active]
    · intro p s' hs
      cases Group.moves_of_step hs with
      | sleep _ _ _ _ => simp
      | enter _ _ _ hidle _ => simp [hc] at hidle
  · rintro p hp ⟨hzero, hidle, hwake⟩
    rcases hinv.asleep p hp with hout | hcom | ⟨q, hq⟩
    · exact hout hzero
    · simp [hidle] at hcom
    · exact hwake q hq

/-- One process logs a block and ends its operation while another tries to begin: the second is
asleep during the commit. -/
theorem group_commit_protocol_twoProcesses :
    ∃ s : Group Bool, runEvents Group.step (Group.init 2 30 fun _ => Bytes.zero)
        [.beginOp true, .enter true, .logWrite true 40 Bytes.zero, .append true, .endOp true,
          .commitStep true, .beginOp false, .enter false] = .next s ∧
      s.committing = true ∧ s.pc false = .asleep ∧ s.outstanding = 0 := by
  have hrun : (runEvents Group.step (Group.init 2 30 fun _ => Bytes.zero : Group Bool)
      [.beginOp true, .enter true, .logWrite true 40 Bytes.zero, .append true, .endOp true,
        .commitStep true, .beginOp false, .enter false]).holds
      fun s => s.committing = true ∧ s.pc false = .asleep := ⟨rfl, rfl⟩
  obtain ⟨s, hs, hc, hpc⟩ := Outcome.exists_of_holds hrun
  have hreach := Reach.of_runEvents .init _ (Along.of_forall (fun _ _ => trivial) _ _) hs
  exact ⟨s, hs, hc, hpc, ((group_commit_protocol 2 30 _ s hreach).1 hc).1⟩

end Xv6
