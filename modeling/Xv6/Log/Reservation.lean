import Mathlib.Algebra.BigOperators.Ring.Finset
import Mathlib.Data.Finset.Card
import Mathlib.Tactic.IntervalCases
import Xv6.Log.Group

/-!
# Log space reserved by `begin_op`

Every operation in progress may still log as many blocks as it has not logged yet, and `begin_op`
admits an operation only while all of these fit in `LOGSIZE`.  So a group of operations never logs
more than `LOGSIZE` distinct blocks.  The image of `mkfs` has `nlog = LOGSIZE`, one block of which
is the header, and `log_write` refuses to run once `nlog - 1` blocks are logged.
-/

namespace Xv6

set_option linter.unusedSectionVars false

variable {P : Type} [DecidableEq P]

/-- The operation that calls `log_write` stays within `m` distinct blocks. -/
def Group.withinOp (m : Nat) (s : Group P) : LogEvent P → Prop
  | .logWrite p b _ => (insert b (s.logged p).toFinset).card ≤ m
  | _ => True

instance (m : Nat) (s : Group P) : DecidablePred (s.withinOp m) := fun e => by
  cases e <;> unfold Group.withinOp <;> infer_instance

/-- `log_write` is called while fewer than `nlog - 1` distinct blocks have been passed to it since
the last commit. -/
def Group.hasRoom (s : Group P) : LogEvent P → Prop
  | .logWrite p _ _ => s.pc p = .inOp → s.since.toFinset.card < LOGSIZE - 1
  | _ => True

variable [Fintype P] {m : Nat}

/-- Distinct blocks that the operation of `p` may still log, of the `m` it may log in all. -/
def Group.spare (m : Nat) (s : Group P) (p : P) : Nat :=
  (s.pc p).active * (m - (s.logged p).toFinset.card)

/-- Blocks logged by the operation of `p`, with the one it is about to append. -/
def Group.claimed (s : Group P) (p : P) : Finset Nat :=
  match s.pc p with
  | .appending b _ => insert b (s.logged p).toFinset
  | _ => (s.logged p).toFinset

/-- The space accounting while every operation logs at most `m` blocks.  An operation is admitted
next to another one or into an empty log, which is why twice what it leaves of its reservation
stays free. -/
structure RoomInv (m : Nat) (s : Group P) : Prop where
  protocol : GroupInv s
  fresh : ∀ p, s.pc p = .beginning ∨ s.pc p = .asleep → s.logged p = []
  within : ∀ p, (s.pc p).active = 1 → (s.claimed p).card ≤ m
  subset : ∀ p, (s.pc p).active = 1 → ∀ b ∈ s.logged p, b ∈ s.log.lh
  room : s.log.lh.length + ∑ p, s.spare m p + 2 * (MAXOPBLOCKS - m) ≤ LOGSIZE

theorem spare_le (s : Group P) (p : P) : s.spare m p ≤ m * (s.pc p).active := by
  unfold Group.spare
  rw [Nat.mul_comm]
  exact Nat.mul_le_mul_right _ (Nat.sub_le _ _)

theorem sum_spare_le (s : Group P) : ∑ p, s.spare m p ≤ m * activeCount s.pc := by
  rw [activeCount, Finset.mul_sum]
  exact Finset.sum_le_sum fun p _ => spare_le s p

theorem GroupInv.length_lh {s : Group P} (h : GroupInv s) :
    s.log.lh.length = s.since.toFinset.card := by
  have hset : s.since.toFinset = s.log.lh.toFinset := by
    ext b
    simp [h.logged b]
  rw [hset, List.toFinset_card_of_nodup h.nodup]

theorem RoomInv.init (start : Nat) (size : Int) (disk : Disk) :
    RoomInv m (Group.init start size disk : Group P) where
  protocol := GroupInv.init start size disk
  fresh := by simp [Group.init]
  within := by simp [Group.init, LogPc.active]
  subset := by simp [Group.init, LogPc.active]
  room := by
    have hhalf : 2 * (MAXOPBLOCKS - m) ≤ LOGSIZE := by
      change 2 * (10 - m) ≤ 30
      omega
    simpa [Group.init, Group.spare, LogPc.active, rebooted] using hhalf

variable {s s' : Group P}

theorem claimed_of_wake {q : P} (hpc : s'.pc q = s.pc q ∨ s'.pc q = wake (s.pc q))
    (hlog : s'.logged q = s.logged q) :
    s'.claimed q = s.claimed q := by
  unfold Group.claimed
  rw [hlog]
  rcases hpc with hpc | hpc
  · rw [hpc]
  · rw [hpc]
    cases s.pc q <;> rfl

theorem active_of_wake {q : P}
    (hpc : s'.pc q = s.pc q ∨ s'.pc q = wake (s.pc q)) : (s'.pc q).active = (s.pc q).active := by
  rcases hpc with hpc | hpc <;> simp [hpc]

/-- A step of `p` that leaves every other process as it is, drops no block from the header, and
fills at most as much of the header as it takes from what `p` may still log. -/
theorem RoomInv.local_step (h : RoomInv m s) (hinv : GroupInv s') (p : P)
    (hlh : ∀ b ∈ s.log.lh, b ∈ s'.log.lh)
    (hpc : ∀ q, q ≠ p → s'.pc q = s.pc q ∨ s'.pc q = wake (s.pc q))
    (hlog : ∀ q, q ≠ p → s'.logged q = s.logged q)
    (hfresh : s'.pc p = .beginning ∨ s'.pc p = .asleep → s'.logged p = [])
    (hwithin : (s'.pc p).active = 1 → (s'.claimed p).card ≤ m)
    (hsub : (s'.pc p).active = 1 → ∀ b ∈ s'.logged p, b ∈ s'.log.lh)
    (hspare : s'.log.lh.length + s'.spare m p ≤ s.log.lh.length + s.spare m p) : RoomInv m s' where
  protocol := hinv
  fresh q hq := by
    by_cases hqp : q = p
    · subst q
      exact hfresh hq
    · rw [hlog q hqp]
      apply h.fresh q
      rcases hpc q hqp with hsame | hwake
      · rwa [hsame] at hq
      · rw [hwake] at hq
        cases hc : s.pc q <;> simp_all [wake]
  within q hq := by
    by_cases hqp : q = p
    · subst q
      exact hwithin hq
    · rw [claimed_of_wake (hpc q hqp) (hlog q hqp)]
      exact h.within q (by rwa [← active_of_wake (hpc q hqp)])
  subset q hq b hb := by
    by_cases hqp : q = p
    · subst q
      exact hsub hq b hb
    · rw [hlog q hqp] at hb
      exact hlh b (h.subset q (by rwa [← active_of_wake (hpc q hqp)]) b hb)
  room := by
    have hbal := sum_balance (f := s.spare m) (g := s'.spare m) p fun q hqp => by
      simp only [Group.spare, active_of_wake (hpc q hqp), hlog q hqp]
    have hroom := h.room
    omega

theorem spare_of_idle {s : Group P} {p : P} (h : (s.pc p).active = 0) : s.spare m p = 0 := by
  simp [Group.spare, h]

/-- A block new to the header is new to the operation, so it uses up one of the blocks that the
operation may still log. -/
theorem length_absorb_spare {lh l : List Nat} {b : Nat} (hsub : ∀ c ∈ l, c ∈ lh)
    (hcard : (insert b l.toFinset).card ≤ m) :
    (absorb lh b).length + (m - (insert b l.toFinset).card) ≤
      lh.length + (m - l.toFinset.card) := by
  by_cases hb : b ∈ lh
  · have hle := Finset.card_le_card (Finset.subset_insert b l.toFinset)
    simp only [absorb, hb, if_true]
    omega
  · have hnew : b ∉ l.toFinset := fun hmem => hb (hsub b (List.mem_toFinset.mp hmem))
    rw [Finset.card_insert_of_notMem hnew] at hcard ⊢
    simp only [absorb, hb, if_false, List.length_append, List.length_singleton]
    omega

private theorem reserved_fits {n k : Nat} (hm : m ≤ MAXOPBLOCKS)
    (hroom : (n : Int) + ((k : Int) + 1) * MAXOPBLOCKS ≤ LOGSIZE) (hempty : k = 0 → n = 0) :
    n + m * (k + 1) + 2 * (MAXOPBLOCKS - m) ≤ LOGSIZE := by
  have hm' : m ≤ 10 := hm
  have hroom' : (n : Int) + ((k : Int) + 1) * 10 ≤ 30 := hroom
  change n + m * (k + 1) + 2 * (10 - m) ≤ 30
  have hk : k ≤ 2 := by omega
  interval_cases k <;> omega

variable {e : LogEvent P}

theorem RoomInv.move (hm : m ≤ MAXOPBLOCKS) (h : RoomInv m s) (he : s.withinOp m e)
    (hmove : s.Moves e s') : RoomInv m s' := by
  have hinv := h.protocol.move hmove
  cases hmove with
  | beginOp p hpc | endLast p hpc hlock hidle hlast | finish p hpc hlock =>
    apply h.local_step hinv p (fun _ => id) <;> simp +contextual [Group.goto, Group.spare, LogPc.active]
  | sleep p hpc hlock hwait =>
    apply h.local_step hinv p (fun _ => id) <;>
      simp +contextual [Group.goto, Group.spare, LogPc.active, h.fresh p (.inl hpc)]
  | enter p hpc hlock hidle hroom =>
    have hnew := h.fresh p (.inl hpc)
    have hout := h.protocol.count
    have hcount := activeCount_update s.pc p .inOp
    simp only [hpc, LogPc.active] at hcount
    have hpc' (q : P) (hqp : q ≠ p) : (s.goto p .inOp).pc q = s.pc q := by simp [hqp]
    refine ⟨hinv, ?_, ?_, ?_, ?_⟩
    · intro q hq
      by_cases hqp : q = p
      · subst q
        exact hnew
      · exact h.fresh q (by simpa [hqp] using hq)
    · intro q hq
      by_cases hqp : q = p
      · subst q
        simp [Group.claimed, Group.goto, hnew]
      · have hclaim := h.within q (by simpa [hqp] using hq)
        have hsame : (s.goto p .inOp).claimed q = s.claimed q :=
          claimed_of_wake (.inl (hpc' q hqp)) rfl
        rwa [← hsame] at hclaim
    · intro q hq
      by_cases hqp : q = p
      · subst q
        simp [Group.goto, hnew]
      · exact h.subset q (by simpa [hqp] using hq)
    · have hle := sum_spare_le (m := m) { s.goto p .inOp with outstanding := s.outstanding + 1 }
      change _ ≤ m * activeCount (Function.update s.pc p .inOp) at hle
      have hcount' : activeCount (Function.update s.pc p .inOp) = activeCount s.pc + 1 := by omega
      have hempty (hzero : activeCount s.pc = 0) : s.log.lh.length = 0 := by
        simp [h.protocol.empty (by omega) hidle]
      have hfit := reserved_fits hm (hout ▸ hroom) hempty
      rw [hcount'] at hle
      change s.log.lh.length + _ + _ ≤ _
      omega
  | kill p hpc =>
    apply h.local_step hinv p (fun _ => id) <;>
      simp +contextual [Group.goto, Group.spare, LogPc.active, h.fresh p (.inr hpc)]
  | logWrite p b data hpc hroom =>
    have hactive : (s.pc p).active = 1 := by simp [hpc, LogPc.active]
    apply h.local_step hinv p (fun _ => id)
    · simp +contextual [Group.goto]
    · simp [Group.goto]
    · simp
    · intro _
      simpa [Group.claimed, Group.goto, Group.withinOp] using he
    · intro _
      exact h.subset p hactive
    · simp [Group.spare, Group.goto, hpc, LogPc.active]
  | append p b data hpc hlock =>
    have hactive : (s.pc p).active = 1 := by simp [hpc, LogPc.active]
    have hclaim := h.within p hactive
    simp only [Group.claimed, hpc] at hclaim
    have hmem (c : Nat) (hc : c ∈ s.log.lh) : c ∈ absorb s.log.lh b :=
      (mem_absorb _ _ _).mpr (.inr hc)
    apply h.local_step hinv p hmem
    · simp +contextual [Group.goto]
    · simp +contextual
    · simp [Group.goto]
    · intro _
      simpa [Group.claimed, Group.goto] using hclaim
    · intro _ c hc
      simp only [Function.update_self, List.mem_cons] at hc
      rcases hc with rfl | hc
      · exact (mem_absorb _ _ _).mpr (.inl rfl)
      · exact hmem c (h.subset p hactive c hc)
    · have habs := length_absorb_spare (h.subset p hactive) hclaim
      simpa [Group.spare, Group.goto, hpc, LogPc.active] using habs
  | endOther p hpc hlock hidle hmore | wakeup p hpc =>
    apply h.local_step hinv p (fun _ => id) <;>
      simp +contextual [Group.goto, Group.wakeup, Group.spare, LogPc.active, wake]
  | commitStep p c hpc hc =>
    have hcom := h.protocol.committer p c hpc
    have hidle' (q : P) := hinv.idle_of_committing hcom q
    refine ⟨hinv, ?_, ?_, ?_, ?_⟩
    · intro q hq
      apply h.fresh q
      by_cases hqp : q = p
      · subst q
        simp [Group.goto] at hq
      · simpa [hqp] using hq
    · intro q hq
      exact absurd ((hidle' q).symm.trans hq) (by decide)
    · intro q hq
      exact absurd ((hidle' q).symm.trans hq) (by decide)
    · have hlen : (Xv6.commitStep s.log c).2.lh.length ≤ s.log.lh.length := by
        rw [commitStep_lh]
        split_ifs <;> simp
      have hroom := h.room
      rw [Finset.sum_eq_zero fun q _ => spare_of_idle (hidle' q)]
      change (Xv6.commitStep s.log c).2.lh.length + 0 + _ ≤ LOGSIZE
      omega

theorem Group.Moves.size_eq (h : s.Moves e s') :
    s'.size = s.size := by
  cases h <;> rfl

/-- The accounting on a disk of `mkfs`. -/
def MkfsInv (m : Nat) (s : Group P) : Prop := RoomInv m s ∧ s.size = LOGSIZE

theorem MkfsInv.step (hm : m ≤ MAXOPBLOCKS) (s : Group P) (e : LogEvent P) (s' : Group P)
    (h : MkfsInv m s) (he : s.withinOp m e) (hs : s.step e = .next s') : MkfsInv m s' :=
  have hmove := Group.moves_of_step hs
  ⟨h.1.move hm he hmove, hmove.size_eq.trans h.2⟩

theorem MkfsInv.tooBig_iff (s : Group P) (e : LogEvent P) (h : MkfsInv m s) :
    s.step e ≠ .panic .tooBigTransaction ↔ s.hasRoom e := by
  obtain ⟨h, hsize⟩ := h
  have hsize' : s.size = 30 := hsize
  cases e with
  | logWrite p b data =>
    have hguard : (s.log.lh.length ≥ LOGSIZE ∨ (s.log.lh.length : Int) ≥ s.size - 1) ↔
        ¬ s.since.toFinset.card < LOGSIZE - 1 := by
      rw [hsize', ← h.protocol.length_lh]
      change (s.log.lh.length ≥ 30 ∨ _) ↔ ¬ s.log.lh.length < 29
      omega
    simp only [Group.step, Group.hasRoom, hguard]
    split
    · rename_i hpc
      split_ifs <;> simp_all
    · rename_i hpc
      simp only [ne_eq, reduceCtorEq, not_false_eq_true, true_iff]
      exact fun hop => absurd hop hpc
  | _ =>
    simp only [Group.step, Group.hasRoom, iff_true]
    split <;> (try split_ifs) <;> simp

theorem MkfsInv.hasRoom {s : Group P} (h : MkfsInv (MAXOPBLOCKS - 1) s) :
    s.hasRoom e := by
  cases e with
  | logWrite p b data =>
    intro _
    have hroom := h.1.room
    have hlen := h.1.protocol.length_lh
    change s.log.lh.length + _ + 2 * 1 ≤ 30 at hroom
    change s.since.toFinset.card < 29
    omega
  | _ => trivial

/-- The reservation of `begin_op` bounds a group by `LOGSIZE` blocks, but the log of `mkfs` has
room for one block less: `log_write` panics exactly when it is called on a log of `nlog - 1`
distinct blocks, which cannot happen while each operation logs fewer than `MAXOPBLOCKS`. -/
theorem log_reservation (start : Nat) (disk : Disk) (evs : List (LogEvent P))
    (h : Along Group.step (Group.withinOp MAXOPBLOCKS) (Group.init start LOGSIZE disk) evs) :
    (runEvents Group.step (Group.init start LOGSIZE disk) evs ≠ .panic .tooBigTransaction ↔
      Along Group.step Group.hasRoom (Group.init start LOGSIZE disk) evs) ∧
    (Along Group.step (Group.withinOp (MAXOPBLOCKS - 1)) (Group.init start LOGSIZE disk) evs →
      runEvents Group.step (Group.init start LOGSIZE disk) evs ≠ .panic .tooBigTransaction) ∧
    ∀ s, runEvents Group.step (Group.init start LOGSIZE disk) evs = .next s →
      s.since.toFinset.card ≤ LOGSIZE := by
  have hinit (m : Nat) : MkfsInv m (Group.init start LOGSIZE disk : Group P) :=
    ⟨RoomInv.init start LOGSIZE disk, rfl⟩
  refine ⟨?_, ?_, ?_⟩
  · exact runEvents_ne_panic_iff (MkfsInv.step le_rfl) (fun s e hs _ => hs.tooBig_iff s e)
      (hinit _) h
  · intro hsmall
    have hstep (s : Group P) (e : LogEvent P) (hs : MkfsInv (MAXOPBLOCKS - 1) s)
        (_ : s.withinOp (MAXOPBLOCKS - 1) e) :
        s.step e ≠ .panic .tooBigTransaction ↔ True := by
      simp [hs.tooBig_iff s e, hs.hasRoom]
    exact (runEvents_ne_panic_iff (MkfsInv.step (Nat.sub_le _ _)) hstep (hinit _) hsmall).mpr
      (Along.of_forall (fun _ _ => trivial) _ _)
  · intro s hs
    have hreach := Reach.of_runEvents .init _ h hs
    have hinv := hreach.invariant (hinit _) fun s e s' => MkfsInv.step le_rfl s e s'
    have hroom := hinv.1.room
    rw [← hinv.1.protocol.length_lh]
    omega

/-- Three operations, admitted together, log ten blocks each. -/
def fillLog : List (LogEvent (Fin 3)) :=
  [.beginOp 0, .enter 0, .beginOp 1, .enter 1, .beginOp 2, .enter 2] ++
    (List.range 30).flatMap fun b =>
      [.logWrite (Fin.ofNat 3 (b / 10)) (100 + b) Bytes.zero, .append (Fin.ofNat 3 (b / 10))]

theorem log_reservation_nineBlocks :
    runEvents Group.step (Group.init 2 LOGSIZE fun _ => Bytes.zero) (fillLog.take 24) ≠
      .panic .tooBigTransaction :=
  (log_reservation 2 (fun _ => Bytes.zero) (fillLog.take 24) (by decide +kernel)).2.1
    (by decide +kernel)

/-- The last block of the third operation does not fit. -/
theorem log_reservation_overflow :
    Along Group.step (Group.withinOp MAXOPBLOCKS) (Group.init 2 LOGSIZE fun _ => Bytes.zero)
      fillLog ∧
    runEvents Group.step (Group.init 2 LOGSIZE fun _ => Bytes.zero) fillLog =
      .panic .tooBigTransaction :=
  ⟨by decide +kernel, rfl⟩

end Xv6
