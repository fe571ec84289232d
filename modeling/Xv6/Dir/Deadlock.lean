import Mathlib.Tactic.FinCases
import Xv6.Dir.Image

/-!
# Waiting for inode locks

`ilock` is called on an inode named by the directories that the caller has locked, or on a new one,
so waits in `ilock` follow the order of the directory tree.  `iput` takes the lock too, and its
callers may hold the lock of an inode further down: `link` onto `.` waits for its own lock.
-/

namespace Xv6

variable {P : Type}

abbrev FsPool (P : Type) := Pool P (Fs P) FsAct FsAct.Res Int

/-- All processes are in user space. -/
def Fs.boot (s : Fs P) : FsPool P := ⟨s, fun _ => none⟩

/-- The process sleeps in `acquiresleep` on the lock of the inode. -/
def Pool.waits (c : FsPool P) (p : P) (i : Nat) : Prop :=
  (c.next p = some (.ilock i) ∨ c.next p = some (.iputTest i)) ∧ (c.state.inode i).lock ≠ none

/-- Each process of a nonempty set waits for a lock that a process of the set holds. -/
def Pool.deadlocked (c : FsPool P) (S : Set P) : Prop :=
  S.Nonempty ∧ ∀ p ∈ S, ∃ i, ∃ q ∈ S, c.waits p i ∧ (c.state.inode i).lock = some q

/-- A process that waits in `iput` holds only locks of directories that have an ordinary entry for
the inode it waits for. -/
def Pool.putsInOrder (c : FsPool P) : Prop :=
  ∀ p i d, c.next p = some (.iputTest i) → (c.state.inode i).lock ≠ none →
    (c.state.inode d).lock = some p → (c.state.view d).names i

variable [DecidableEq P] [Fintype P] {N : Nat}

theorem tied_base {s₀ : Fs P} (hboot : s₀.Boot N) {c : FsPool P}
    (hc : Reach (fsKernel P N).step (fun _ _ => True) s₀.boot c) :
    Kernel.Tied (fsRules N) (· = .idle) (BaseInv N) c := by
  refine hc.invariant ⟨_, hboot.base, fun _ => rfl⟩ fun c e c' h _ hs => ?_
  have hany : Kernel.allows (fun _ _ _ => True) c e := by
    cases e with
    | start p call => trivial
    | run p => exact fun _ _ => trivial
  refine Kernel.Tied.step _ ?_ c e c' h (fun _ call _ l hl => hl ▸ wp_syscall hboot.size call) hany hs
  intro s ls p a r s' hinv hpre _ hexec
  exact ⟨_, hinv.post hpre hexec, hinv.act hpre hexec⟩

omit [DecidableEq P] in
/-- What a waiting process holds comes before what it waits for. -/
theorem before_of_waits {c : FsPool P} {ls : P → Ledger} (hinv : BaseInv N c.state ls)
    (hfit : ∀ p, Kernel.Fits (fsRules N) (· = .idle) (c.thread p) (ls p)) (horder : c.putsInOrder)
    {p : P} {d i : Nat} (hwait : c.waits p i) (hd : (c.state.inode d).lock = some p) :
    Before c.state ls d i := by
  have hput : (ls p).put = .none := hwait.1.elim (fun h => ((hfit p).pre h).1) fun h => ((hfit p).pre h).1
  obtain ⟨v, hv⟩ := ((hinv.locks.holder d p).mp hd).resolve_right (Put.ne_free hput d)
  obtain ⟨hnext | hnext, hlock⟩ := hwait
  · obtain ⟨_, _, _, ⟨_, hnames⟩ | ⟨hfresh, _, hne⟩⟩ := (hfit p).pre hnext
    · exact .inl (hinv.locks.view hv ▸ hnames _ hv)
    · exact .inr ⟨p, v, hfresh, hv, hne _ hv⟩
  · exact .inl (horder p i d hnext hlock hd)

/-- As long as waits in `iput` follow the directory tree, no set of processes is deadlocked on
inode locks. -/
theorem inode_locks_deadlock_free {s₀ : Fs P} (hboot : s₀.Boot N) {c : FsPool P}
    (hc : Reach (fsKernel P N).step (fun _ _ => True) s₀.boot c) (horder : c.putsInOrder)
    (S : Set P) : ¬ c.deadlocked S := by
  rintro ⟨hS, hwait⟩
  obtain ⟨ls, hinv, hfit⟩ := tied_base hboot hc
  choose! place next hnext hwaits hholds using hwait
  -- The inode that a process waits for is held by the next process, which waits for a later one.
  exact hinv.order.no_closed_chain next place S hS hnext fun p hp =>
    before_of_waits hinv hfit horder (hwaits _ (hnext p hp)) (hholds p hp)

/-- Process 0 holds the lock of the root in `open` of a new file while process 1 waits for it. -/
theorem inode_locks_deadlock_free_twoOpens :
    ∃ c : FsPool (Fin 2), runEvents (fsKernel (Fin 2) 8).step (emptyImage (Fin 2) 8).boot
        [.start 0 (.open [102] O_CREATE), .start 1 (.open [102] O_RDONLY), .run 0, .run 0, .run 1] =
          .next c ∧
      c.waits 1 ROOTINO ∧ ∀ S, ¬ c.deadlocked S := by
  have hrun : (runEvents (fsKernel (Fin 2) 8).step (emptyImage (Fin 2) 8).boot
      [.start 0 (.open [102] O_CREATE), .start 1 (.open [102] O_RDONLY), .run 0, .run 0, .run 1]).holds
      fun c => c.next 0 = some (.read ROOTINO) ∧ c.next 1 = some (.ilock ROOTINO) ∧
        (c.state.inode ROOTINO).lock = some 0 := ⟨rfl, rfl, rfl⟩
  obtain ⟨c, hc, h0, h1, hlock⟩ := Outcome.exists_of_holds hrun
  have hreach := Reach.of_runEvents .init _ (Along.of_forall (fun _ _ => trivial) _ _) hc
  refine ⟨c, hc, ⟨.inl h1, by simp [hlock]⟩, ?_⟩
  refine inode_locks_deadlock_free (emptyImage_boot (by decide) (by decide)) hreach fun p i d hp => ?_
  fin_cases p
  · simp [h0] at hp
  · simp [h1] at hp

/-- A call with the first steps of its process. -/
def callFor {P : Type} (p : P) (call : Syscall) (n : Nat) : List (PoolEvent P Syscall) :=
  .start p call :: List.replicate n (.run p)

/-- `link("f", ".")` finds `.` in the directory it has locked and puts it, waiting for itself.  And
`open` of a new file puts the directory while it holds the file, which `unlink` of the file in that
directory waits for. -/
theorem inode_locks_deadlock :
    (∃ c : FsPool (Fin 1), runEvents (fsKernel (Fin 1) 8).step (emptyImage (Fin 1) 8).boot
        (callFor 0 (.open [102] O_CREATE) 22 ++ callFor 0 (.link [102] dot) 19) = .next c ∧
      c.deadlocked {0}) ∧
    ∃ c : FsPool (Fin 2), runEvents (fsKernel (Fin 2) 8).step (emptyImage (Fin 2) 8).boot
        (callFor 0 (.open [102] O_CREATE) 15 ++ callFor 1 (.unlink [102]) 7) = .next c ∧
      c.deadlocked {0, 1} := by
  constructor
  · have hrun : (runEvents (fsKernel (Fin 1) 8).step (emptyImage (Fin 1) 8).boot
        (callFor 0 (.open [102] O_CREATE) 22 ++ callFor 0 (.link [102] dot) 19)).holds
        fun c => c.next 0 = some (.iputTest ROOTINO) ∧ (c.state.inode ROOTINO).lock = some 0 := ⟨rfl, rfl⟩
    obtain ⟨c, hc, hnext, hlock⟩ := Outcome.exists_of_holds hrun
    refine ⟨c, hc, by simp, fun p hp => ⟨ROOTINO, 0, rfl, ⟨.inr ?_, by simp [hlock]⟩, hlock⟩⟩
    rwa [Set.mem_singleton_iff.mp hp]
  · have hrun : (runEvents (fsKernel (Fin 2) 8).step (emptyImage (Fin 2) 8).boot
        (callFor 0 (.open [102] O_CREATE) 15 ++ callFor 1 (.unlink [102]) 7)).holds
        fun c => c.next 0 = some (.iputTest ROOTINO) ∧ (c.state.inode ROOTINO).lock = some 1 ∧
          c.next 1 = some (.ilock 2) ∧ (c.state.inode 2).lock = some 0 := ⟨rfl, rfl, rfl, rfl⟩
    obtain ⟨c, hc, h0, hroot, h1, hfile⟩ := Outcome.exists_of_holds hrun
    refine ⟨c, hc, by simp, fun p hp => ?_⟩
    rcases hp with rfl | rfl
    · exact ⟨ROOTINO, 1, by simp, ⟨.inr h0, by simp [hroot]⟩, hroot⟩
    · exact ⟨2, 0, by simp, ⟨.inl h1, by simp [hfile]⟩, hfile⟩

end Xv6
