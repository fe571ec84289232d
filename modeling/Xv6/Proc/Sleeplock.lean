import Xv6.Proc.Monitor
import Xv6.Proc.Pids

/-!
# One sleep-lock

`acquiresleep`, `releasesleep` and `holdingsleep` of `sleeplock.c`, run by any number of processes on
one lock.  Only a process that holds the lock releases it.
-/

namespace Xv6.Sleeplock

open Sleep (Act Pc Outline Locked Signal Signals Sys)

structure Data (P : Type) where
  locked : Bool
  pid : Int
  /-- History: who has made the store `lk->locked = 1` and not yet `lk->locked = 0` -/
  holder : Option P

inductive Point where
  /-- Outside the three functions, without the lock -/
  | outside
  /-- `acquiresleep`: `acquire(&lk->lk)`, the test of `lk->locked`, `sleep`, the two stores, and
  `release(&lk->lk)` -/
  | acquire | test | wait | take | acquired
  /-- Between the return of `acquiresleep` and the next call -/
  | inside
  /-- `releasesleep`: `acquire(&lk->lk)`, the two stores, `wakeup`, and `release(&lk->lk)` -/
  | releasing | clear | wake | released
  /-- `holdingsleep`: `acquire(&lk->lk)`, the test, and `release(&lk->lk)`.  `own` says whether the
  caller has the lock. -/
  | asking (own : Bool) | ask (own : Bool) | asked (own r : Bool)
  /-- `holdingsleep` has returned `r`. -/
  | answer (own r : Bool)
  deriving DecidableEq

/-- The code, for processes with these pids. -/
def code {P : Type} (pid : P → Int) (p : P) : Point → Act Point Unit Unit (Data P)
  | .outside => .choose fun k => k = .acquire ∨ k = .asking false
  | .acquire => .acquire () .test
  | .test => .data fun d => (d, if d.locked then .wait else .take)
  | .wait => .sleep () () .test
  | .take => .data fun _ => (⟨true, pid p, some p⟩, .acquired)
  | .acquired => .release () .inside
  | .inside => .choose fun k => k = .releasing ∨ k = .asking true
  | .releasing => .acquire () .clear
  | .clear => .data fun _ => (⟨false, 0, none⟩, .wake)
  | .wake => .wakeup () .released
  | .released => .release () .outside
  | .asking own => .acquire () (.ask own)
  | .ask own => .data fun d => (d, .asked own (d.locked && d.pid = pid p))
  | .asked own r => .release () (.answer own r)
  | .answer own _ => .choose fun k => k = if own then .inside else .outside

/-- `initsleeplock` -/
def init {P : Type} : Sys P Point Unit Unit (Data P) where
  data := ⟨false, 0, none⟩
  lock _ := none
  ptlock := none
  thread _ := ⟨.code .outside, false, false⟩

namespace Point

/-- The points under `lk->lk` -/
def holds : Point → Option Unit
  | .test | .wait | .take | .acquired | .clear | .wake | .released | .ask _ | .asked _ _ => some ()
  | .outside | .acquire | .inside | .releasing | .asking _ | .answer _ _ => none

/-- From the store of `lk->locked = 1` to that of `lk->locked = 0` -/
def owns : Point → Bool
  | .acquired | .inside | .releasing | .clear => true
  | .asking own | .ask own | .asked own _ | .answer own _ => own
  | .outside | .acquire | .test | .wait | .take | .wake | .released => false

/-- From the return of `acquiresleep` to the store of `releasesleep` -/
def within (k : Point) : Bool := k.owns && k ≠ .acquired

/-- Inside `releasesleep` -/
def releases : Point → Bool
  | .releasing | .clear | .wake | .released => true
  | _ => false

/-- What the process has seen of `lk->locked` since it took `lk->lk` -/
def seen : Point → Option Bool
  | .wait => some true
  | .take => some false
  | _ => none

/-- `holdingsleep` has found or returned true for a process that does not have the lock. -/
def mistaken : Point → Bool
  | .asked own r | .answer own r => r && !own
  | _ => false

end Point

variable {P : Type} {pid : P → Int} {p : P} {d : Data P} {k : Point}

theorem code_keeps (pid : P → Int) (p : P) (k : Point) : (code pid p k).keeps Point.holds k := by
  cases k with
  | outside | inside =>
    intro k' hk
    rcases of_decide_eq_true hk with rfl | rfl <;> rfl
  | acquire | wait | acquired | releasing | released | asking own | asked own r => exact ⟨rfl, rfl⟩
  | test =>
    intro d
    dsimp only
    split <;> rfl
  | take | clear | ask own => exact fun _ => rfl
  | wake => exact rfl
  | answer own r =>
    intro k' hk
    obtain rfl := of_decide_eq_true hk
    cases own <;> rfl

/-- The holder has left its pid in the lock. -/
structure Data.Held (pid : P → Int) (d : Data P) : Prop where
  locked : d.locked = d.holder.isSome
  pid : ∀ p, d.holder = some p → d.pid = pid p

structure Asserts (pid : P → Int) (p : P) (k : Point) (d : Data P) : Prop where
  owns : k.owns = true ↔ d.holder = some p
  seen : ∀ b, k.seen = some b → d.locked = b
  answers : pid.Injective → k.mistaken = false

theorem Asserts.goto (h : Asserts pid p k d) {k' : Point} (howns : k'.owns = k.owns)
    (hseen : ∀ b, k'.seen = some b → d.locked = b)
    (hanswers : k'.mistaken = false ∨ k'.mistaken = k.mistaken) : Asserts pid p k' d := by
  refine ⟨by rw [howns, h.owns], hseen, fun hpid => ?_⟩
  rcases hanswers with hnone | hsame
  · exact hnone
  · exact hsame.trans (h.answers hpid)

theorem verifies (hd : d.Held pid) (h : Asserts pid p k d) :
    (code pid p k).verifies (Data.Held pid) (Asserts pid p) d := by
  cases k with
  | outside | inside =>
    intro k' hk
    rcases of_decide_eq_true hk with rfl | rfl <;> exact h.goto rfl nofun (.inl rfl)
  | answer own r =>
    intro k' hk
    obtain rfl := of_decide_eq_true hk
    cases own <;> exact h.goto rfl nofun (.inl rfl)
  | test =>
    refine ⟨hd, ?_⟩
    dsimp only
    split
    next hlocked =>
      refine h.goto rfl ?_ (.inl rfl)
      rintro _ ⟨⟩
      exact hlocked
    next hlocked =>
      refine h.goto rfl ?_ (.inl rfl)
      rintro _ ⟨⟩
      simpa using hlocked
  | take =>
    refine ⟨⟨rfl, ?_⟩, iff_of_true rfl rfl, nofun, fun _ => rfl⟩
    rintro _ ⟨⟩
    rfl
  | clear => exact ⟨⟨rfl, nofun⟩, iff_of_false nofun nofun, nofun, fun _ => rfl⟩
  | ask own =>
    refine ⟨hd, h.owns, nofun, fun hpid => ?_⟩
    cases own with
    | true => exact Bool.and_false _
    | false =>
      refine (Bool.and_true _).trans (Bool.eq_false_iff.mpr fun hfound => ?_)
      obtain ⟨hlocked, heq⟩ := Bool.and_eq_true_iff.mp hfound
      rw [hd.locked] at hlocked
      obtain ⟨q, hq⟩ := Option.isSome_iff_exists.mp hlocked
      obtain rfl := hpid ((hd.pid q hq).symm.trans (of_decide_eq_true heq))
      exact nomatch h.owns.mpr hq
  | asked own r => exact h.goto rfl nofun (.inr rfl)
  | acquire | wait | acquired | releasing | wake | released | asking =>
    exact h.goto rfl nofun (.inl rfl)

theorem outline (pid : P → Int) :
    Outline (code pid) Point.holds (Data.Held pid) (Asserts pid) where
  own := verifies
  others {p q k f d pc} hact hq hd hp hcalled hfree h := by
    -- Who has seen `lk->locked` holds `lk->lk`.
    have hseen : k.holds = some () → pc.point.seen = none := by
      intro hk
      have hnot := hfree _ hk
      cases pc with
      | code k' => cases k' <;> first | rfl | exact absurd rfl hnot
      | sleep | sleepRelease | sleepMark | asleep =>
        obtain ⟨k₀, hk₀⟩ := hcalled
        cases k₀ with
        | wait =>
          cases hk₀
          rfl
        | _ => cases hk₀
    cases k with
    | test | ask =>
      cases hact
      exact h
    | take =>
      cases hact
      refine ⟨iff_of_false (fun howns => ?_) fun he => hq (Option.some.inj he).symm,
        fun b hb => (nomatch (hseen rfl).symm.trans hb), h.answers⟩
      have hlocked := hd.locked
      rw [h.owns.mp howns, hp.seen false rfl] at hlocked
      cases hlocked
    | clear =>
      cases hact
      refine ⟨iff_of_false (fun howns => ?_) nofun,
        fun b hb => (nomatch (hseen rfl).symm.trans hb), h.answers⟩
      exact hq (Option.some.inj ((h.owns.mp howns).symm.trans (hp.owns.mp rfl)))
    | _ => cases hact

/-- `releasesleep` owes a `wakeup` once it has cleared `lk->locked`. -/
def signal : Signal Point Unit Unit (Data P) where
  mon _ := ()
  ready _ d := !d.locked
  owes _ k := k = .wake

theorem signals (pid : P → Int) :
    Signals signal (code pid) Point.holds (Data.Held pid) (Asserts pid) where
  held {_ k} h := by
    obtain rfl := of_decide_eq_true h
    rfl
  act {p k d c} _ h := by
    cases k with
    | test | ask => exact fun hready => .inl ⟨hready, nofun⟩
    | take => exact nofun
    | clear => exact fun _ => .inr ⟨rfl, rfl⟩
    | wait => exact ⟨rfl, fun _ => ⟨rfl, by simp [signal, h.seen true rfl]⟩⟩
    | wake => exact .inl rfl
    | acquire | releasing | asking => trivial
    | outside | acquired | inside | released | asked | answer => exact rfl

theorem locked_init (pid : P → Int) :
    Locked (code pid) Point.holds (Sleeplock.init : Sys P Point Unit Unit (Data P)) where
  lock _ _ := by simp [Sleeplock.init, Pc.holds, Point.holds]
  ptlock _ _ := by simp [Sleeplock.init, Pc.holdsTable]
  called _ := trivial

/-- In every run at most one process is between the return of `acquiresleep` and `releasesleep`,
and nobody sleeps on a lock that is free and is not being released.  If the processes have
different pids, `holdingsleep` returns true only to the process that holds the lock. -/
theorem sleeplock_exclusive [DecidableEq P] (pid : P → Int) {s : Sys P Point Unit Unit (Data P)}
    (h : Reach (Sys.step (code pid)) (fun _ _ => True) Sleeplock.init s) :
    (∀ p q, (s.thread p).pc.isAt Point.within = true → (s.thread q).pc.isAt Point.within = true →
      p = q) ∧
    (pid.Injective → ∀ p own, (s.thread p).pc = .code (.answer own true) →
      (s.thread p).pc.isAt Point.within = true) ∧
    (s.data.locked = false → (∀ q, (s.thread q).pc.isAt Point.releases = false) →
      ∀ p, (s.thread p).sleepsOn () = false) := by
  obtain ⟨-, hfollows, hsignalled⟩ : Locked (code pid) Point.holds s ∧
      s.Follows (Data.Held pid) (Asserts pid) ∧ s.Signalled signal := by
    refine h.invariant (I := fun s => Locked (code pid) Point.holds s ∧
      s.Follows (Data.Held pid) (Asserts pid) ∧ s.Signalled signal)
      ⟨locked_init pid, ⟨⟨rfl, nofun⟩, fun p => ?_⟩, ?_⟩ ?_
    · exact ⟨iff_of_false nofun nofun, nofun, fun _ => rfl⟩
    · exact ⟨fun hq => hq.elim nofun nofun, fun hq => hq.elim⟩
    · rintro t e t' ⟨hl, hf, hg⟩ - hs
      refine ⟨hl.step (code_keeps pid) hs, (outline pid).step hl hf hs,
        (signals pid).step (code_keeps pid) hl hf hg ?_ hs⟩
      -- The three functions do not test `killed`.
      cases e with
      | run p => exact fun k _ _ _ _ hact => by cases k <;> cases hact
      | go | kill => trivial
  have howns : ∀ {p}, (s.thread p).pc.isAt Point.within = true → s.data.holder = some p := by
    intro p hp
    have hasserts := (hfollows.2 p).owns
    cases hpc : (s.thread p).pc with
    | code k =>
      rw [hpc] at hp hasserts
      exact hasserts.mp (Bool.and_eq_true_iff.mp hp).1
    | _ =>
      rw [hpc] at hp
      cases hp
  refine ⟨?_, ?_, ?_⟩
  · intro p q hp hq
    exact Option.some.inj ((howns hp).symm.trans (howns hq))
  · intro hpid p own hp
    have hasserts := (hfollows.2 p).answers hpid
    rw [hp] at hasserts ⊢
    cases own with
    | true => rfl
    | false => cases hasserts
  · intro hfree hreleases p
    refine Bool.eq_false_iff.mpr fun hsleeps => ?_
    obtain ⟨q, k, hq, howes⟩ := hsignalled.owed (Sleep.Thread.waits_of_sleepsOn hsleeps)
      (by simp [signal, hfree])
    obtain rfl := of_decide_eq_true howes
    have hq' := hreleases q
    rw [hq] at hq'
    cases hq'

/-- One process takes the lock, a second one sleeps for it, and the first releases it. -/
theorem sleeplock_exclusive_handover : ∃ s : Sys Bool Point Unit Unit (Data Bool),
    runEvents (Sys.step (code fun p => if p then 1 else 2)) Sleeplock.init
      [.go true .acquire, .run true, .run true, .run true, .run true,
        .go false .acquire, .run false, .run false, .run false, .run false, .run false, .run false,
        .go true .releasing, .run true, .run true, .run true, .run true] = .next s ∧
    s.data.locked = false ∧ (s.thread false).pc = .asleep () () .test ∧
    (s.thread false).sleepsOn () = false := by
  obtain ⟨s, hrun, hfree, hpc, htrue, hfalse⟩ := Outcome.exists_of_holds
    (r := runEvents (Sys.step (code fun p => if p then 1 else 2)) Sleeplock.init
      [.go true .acquire, .run true, .run true, .run true, .run true,
        .go false .acquire, .run false, .run false, .run false, .run false, .run false, .run false,
        .go true .releasing, .run true, .run true, .run true, .run true])
    (Q := fun s => s.data.locked = false ∧ (s.thread false).pc = .asleep () () .test ∧
      (s.thread true).pc.isAt Point.releases = false ∧
      (s.thread false).pc.isAt Point.releases = false) (by decide +kernel)
  have hreach : Reach (Sys.step (code fun p => if p then 1 else 2)) (fun _ _ => True)
      Sleeplock.init s :=
    Reach.of_runEvents .init _ (Along.of_forall (fun _ _ => trivial) _ _) hrun
  refine ⟨s, hrun, hfree, hpc, (sleeplock_exclusive _ hreach).2.2 hfree ?_ false⟩
  intro q
  cases q with
  | true => exact htrue
  | false => exact hfalse

/-- Init (`true`) holds the lock, and a child (`false`) that has got the pid of init asks for it. -/
theorem holdingsleep_confused : ∃ t : Ptable, Reach Ptable.step (fun _ _ => True) Ptable.init t ∧
    (t.proc initproc).state ≠ .unused ∧ (t.proc 1).state ≠ .unused ∧
    ∃ s, Reach (Sys.step (code fun b : Bool => (t.proc (if b then initproc else 1)).pid))
        (fun _ _ => True) Sleeplock.init s ∧
      (s.thread true).pc = .code .inside ∧ (s.thread false).pc = .code (.answer false true) := by
  obtain ⟨t, ht, hinit, hchild, hpid⟩ := reach_pid_reused
  refine ⟨t, ht, by simp [hinit], by simp [hchild], ?_⟩
  refine ⟨_, Reach.of_runEvents .init
    [.go true .acquire, .run true, .run true, .run true, .run true,
      .go false (.asking false), .run false, .run false, .run false]
    (Along.of_forall (fun _ _ => trivial) _ _) rfl, rfl, ?_⟩
  change Pc.code (Point.answer false (true && decide ((t.proc initproc).pid = (t.proc 1).pid))) = _
  rw [hpid]
  simp

end Xv6.Sleeplock
