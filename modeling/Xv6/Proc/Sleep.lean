import Mathlib.Logic.Function.Basic
import Xv6.Lib.Paired
import Xv6.Lib.Run

/-!
# `sleep`, `wakeup` and `kill`

Processes run kernel code that works on shared data under spin-locks and waits with `sleep`.  The
code is a parameter.  Every acquisition and release of a lock, every access to the data, every
test of `killed`, every `wakeup` and every `kill` is a step of its own, and so are the three stages
of `sleep`: it takes `ptable.lock`, gives up the caller's lock, and lets other processes in only
when it has marked the caller SLEEPING.
-/

set_option linter.unusedSectionVars false

namespace Xv6.Sleep

open Function (update_eq_self update_of_ne update_self)

/-- What the code does at a program point.  The points carry its local variables. -/
inductive Act (K L C D : Type) where
  /-- Nothing is going on, and the process may go to any of these points. -/
  | choose (ok : K → Bool)
  | acquire (l : L) (next : K)
  | release (l : L) (next : K)
  /-- One access to the shared data -/
  | data (f : D → D × K)
  /-- `if(myproc()->killed)` -/
  | killed (yes no : K)
  | sleep (c : C) (l : L) (next : K)
  | wakeup (c : C) (next : K)

/-- What a process does next. -/
inductive Pc (K L C : Type) where
  | code (k : K)
  /-- `sleep`: before `acquire(&ptable.lock)` -/
  | sleep (c : C) (l : L) (k : K)
  /-- `sleep`: before `release(lk)` -/
  | sleepRelease (c : C) (l : L) (k : K)
  /-- `sleep`: before `p->state = SLEEPING` and `sched` -/
  | sleepMark (c : C) (l : L) (k : K)
  /-- `sleep`: in `sched`, or before `acquire(lk)` -/
  | asleep (c : C) (l : L) (k : K)
  deriving DecidableEq

structure Thread (K L C : Type) where
  pc : Pc K L C
  /-- `state == SLEEPING` -/
  sleeping : Bool
  killed : Bool

structure Sys (P K L C D : Type) where
  data : D
  lock : L → Option P
  /-- `ptable.lock` -/
  ptlock : Option P
  thread : P → Thread K L C

inductive Event (P K : Type) where
  | go (p : P) (k : K)
  | run (p : P)
  | kill (p : P)

inductive Panic where
  | acquire
  | release
  deriving DecidableEq

variable {P K L C D : Type} [DecidableEq P] [DecidableEq L] [DecidableEq C]

namespace Sys

def goto (s : Sys P K L C D) (p : P) (pc : Pc K L C) : Sys P K L C D :=
  { s with thread := Function.update s.thread p { s.thread p with pc := pc } }

/-- `acquire(lk)`, which waits for another process and panics if the caller holds the lock. -/
def acquire (s : Sys P K L C D) (p : P) (l : L) (pc : Pc K L C) : Outcome Panic (Sys P K L C D) :=
  match s.lock l with
  | none => .next { s.goto p pc with lock := Function.update s.lock l (some p) }
  | some q => if q = p then .panic .acquire else .blocked

def release (s : Sys P K L C D) (p : P) (l : L) (pc : Pc K L C) : Outcome Panic (Sys P K L C D) :=
  if s.lock l = some p then .next { s.goto p pc with lock := Function.update s.lock l none }
  else .panic .release

end Sys

/-- `p->chan` -/
def Pc.chan : Pc K L C → Option C
  | .asleep c _ _ => some c
  | _ => none

/-- The process is SLEEPING on the channel. -/
def Thread.sleepsOn (x : Thread K L C) (c : C) : Bool := x.sleeping && x.pc.chan = some c

def Thread.wake (c : C) (x : Thread K L C) : Thread K L C :=
  if x.pc.chan = some c then { x with sleeping := false } else x

/-- `wakeup1(chan)` -/
def Sys.wakeup1 (s : Sys P K L C D) (c : C) : Sys P K L C D :=
  { s with thread := fun q => (s.thread q).wake c }

section

variable (code : P → K → Act K L C D)

/-- The next step of `p`.  `wakeup` takes `ptable.lock` for the time it runs. -/
def Sys.run (s : Sys P K L C D) (p : P) : Outcome Panic (Sys P K L C D) :=
  match (s.thread p).pc with
  | .code k =>
    match code p k with
    | .choose _ => .blocked
    | .acquire l k' => s.acquire p l (.code k')
    | .release l k' => s.release p l (.code k')
    | .data f => .next { s.goto p (.code (f s.data).2) with data := (f s.data).1 }
    | .killed yes no => .next (s.goto p (.code (if (s.thread p).killed then yes else no)))
    | .sleep c l k' => .next (s.goto p (.sleep c l k'))
    | .wakeup c k' =>
      if s.ptlock = none then .next ((s.wakeup1 c).goto p (.code k')) else .blocked
  | .sleep c l k =>
    if s.ptlock = none then .next { s.goto p (.sleepRelease c l k) with ptlock := some p }
    else .blocked
  | .sleepRelease c l k => s.release p l (.sleepMark c l k)
  | .sleepMark c l k =>
    .next { s with
      thread := Function.update s.thread p { s.thread p with pc := .asleep c l k, sleeping := true }
      ptlock := none }
  | .asleep _ l k => if (s.thread p).sleeping then .blocked else s.acquire p l (.code k)

def Sys.step (s : Sys P K L C D) : Event P K → Outcome Panic (Sys P K L C D)
  | .go p k =>
    match (s.thread p).pc with
    | .code k₀ =>
      match code p k₀ with
      | .choose ok => if ok k then .next (s.goto p (.code k)) else .blocked
      | _ => .blocked
    | _ => .blocked
  | .run p => s.run code p
  | .kill p =>
    if s.ptlock = none then
      .next { s with
        thread := Function.update s.thread p { s.thread p with killed := true, sleeping := false } }
    else .blocked

/-- What the events do. -/
inductive Moves (s : Sys P K L C D) : Event P K → Sys P K L C D → Prop where
  | go {p : P} {k k' : K} {ok : K → Bool} (hpc : (s.thread p).pc = .code k)
      (hact : code p k = .choose ok) (hok : ok k' = true) :
      Moves s (.go p k') (s.goto p (.code k'))
  | acquire {p : P} {k k' : K} {l : L} (hpc : (s.thread p).pc = .code k)
      (hact : code p k = .acquire l k') (hfree : s.lock l = none) :
      Moves s (.run p) { s.goto p (.code k') with lock := Function.update s.lock l (some p) }
  | release {p : P} {k k' : K} {l : L} (hpc : (s.thread p).pc = .code k)
      (hact : code p k = .release l k') :
      Moves s (.run p) { s.goto p (.code k') with lock := Function.update s.lock l none }
  | data {p : P} {k : K} {f : D → D × K} (hpc : (s.thread p).pc = .code k)
      (hact : code p k = .data f) :
      Moves s (.run p) { s.goto p (.code (f s.data).2) with data := (f s.data).1 }
  | killed {p : P} {k yes no : K} (hpc : (s.thread p).pc = .code k)
      (hact : code p k = .killed yes no) :
      Moves s (.run p) (s.goto p (.code (if (s.thread p).killed then yes else no)))
  | sleep {p : P} {k k' : K} {c : C} {l : L} (hpc : (s.thread p).pc = .code k)
      (hact : code p k = .sleep c l k') : Moves s (.run p) (s.goto p (.sleep c l k'))
  | wakeup {p : P} {k k' : K} {c : C} (hpc : (s.thread p).pc = .code k)
      (hact : code p k = .wakeup c k') (hfree : s.ptlock = none) :
      Moves s (.run p) ((s.wakeup1 c).goto p (.code k'))
  | sleepAcquire {p : P} {k : K} {c : C} {l : L} (hpc : (s.thread p).pc = .sleep c l k)
      (hfree : s.ptlock = none) :
      Moves s (.run p) { s.goto p (.sleepRelease c l k) with ptlock := some p }
  | sleepRelease {p : P} {k : K} {c : C} {l : L} (hpc : (s.thread p).pc = .sleepRelease c l k) :
      Moves s (.run p)
        { s.goto p (.sleepMark c l k) with lock := Function.update s.lock l none }
  | sleepMark {p : P} {k : K} {c : C} {l : L} (hpc : (s.thread p).pc = .sleepMark c l k) :
      Moves s (.run p)
        { s with
          thread := Function.update s.thread p
            { s.thread p with pc := .asleep c l k, sleeping := true }
          ptlock := none }
  | wake {p : P} {k : K} {c : C} {l : L} (hpc : (s.thread p).pc = .asleep c l k)
      (hawake : (s.thread p).sleeping = false) (hfree : s.lock l = none) :
      Moves s (.run p) { s.goto p (.code k) with lock := Function.update s.lock l (some p) }
  | kill {p : P} (hfree : s.ptlock = none) :
      Moves s (.kill p)
        { s with
          thread := Function.update s.thread p
            { s.thread p with killed := true, sleeping := false } }

end

variable {code : P → K → Act K L C D} {s s' : Sys P K L C D} {p : P}
variable {pc : Pc K L C} {l : L}

theorem acquire_eq (h : s.acquire p l pc = .next s') :
    s.lock l = none ∧ s' = { s.goto p pc with lock := Function.update s.lock l (some p) } := by
  rw [Sys.acquire] at h
  split at h
  · rename_i hfree
    cases h
    exact ⟨hfree, rfl⟩
  · split at h <;> cases h

theorem release_eq (h : s.release p l pc = .next s') :
    s' = { s.goto p pc with lock := Function.update s.lock l none } := by
  rw [Sys.release] at h
  split at h
  · cases h
    rfl
  · cases h

variable {e : Event P K}

theorem Moves.of_step (h : s.step code e = .next s') : Moves code s e s' := by
  cases e with
  | go p k =>
    rw [Sys.step] at h
    split at h
    · rename_i hpc
      split at h
      · rename_i hact
        split at h
        · rename_i hok
          cases h
          exact .go hpc hact hok
        · cases h
      · cases h
    · cases h
  | run p =>
    rw [Sys.step, Sys.run] at h
    split at h
    · rename_i k hpc
      split at h
      · cases h
      · rename_i hact
        obtain ⟨hfree, rfl⟩ := acquire_eq h
        exact .acquire hpc hact hfree
      · rename_i hact
        obtain rfl := release_eq h
        exact .release hpc hact
      · rename_i hact
        cases h
        exact .data hpc hact
      · rename_i hact
        cases h
        exact .killed hpc hact
      · rename_i hact
        cases h
        exact .sleep hpc hact
      · rename_i hact
        split at h
        · rename_i hfree
          cases h
          exact .wakeup hpc hact hfree
        · cases h
    · rename_i hpc
      split at h
      · rename_i hfree
        cases h
        exact .sleepAcquire hpc hfree
      · cases h
    · rename_i hpc
      obtain rfl := release_eq h
      exact .sleepRelease hpc
    · rename_i hpc
      cases h
      exact .sleepMark hpc
    · rename_i hpc
      split at h
      · cases h
      · rename_i hawake
        obtain ⟨hfree, rfl⟩ := acquire_eq h
        exact .wake hpc (by simpa using hawake) hfree
  | kill p =>
    rw [Sys.step] at h
    split at h
    · rename_i hfree
      cases h
      exact .kill hfree
    · cases h

/-- The act keeps to the lock that the code holds at each point. -/
def Act.keeps (holds : K → Option L) (k : K) : Act K L C D → Prop
  | .choose ok => ∀ k', ok k' = true → holds k' = holds k
  | .acquire l k' => holds k = none ∧ holds k' = some l
  | .release l k' => holds k = some l ∧ holds k' = none
  | .data f => ∀ d, holds (f d).2 = holds k
  | .killed yes no => holds yes = holds k ∧ holds no = holds k
  | .sleep _ l k' => holds k = some l ∧ holds k' = some l
  | .wakeup _ k' => holds k' = holds k

namespace Pc

/-- The spin-lock that is held at a point. -/
def holds (holds : K → Option L) : Pc K L C → Option L
  | .code k => holds k
  | .sleep _ l _ | .sleepRelease _ l _ => some l
  | .sleepMark _ _ _ | .asleep _ _ _ => none

/-- `ptable.lock` is held. -/
def holdsTable : Pc K L C → Option Unit
  | .sleepRelease _ _ _ | .sleepMark _ _ _ => some ()
  | .code _ | .sleep _ _ _ | .asleep _ _ _ => none

/-- A call of `sleep` comes from the code. -/
def called (code : K → Act K L C D) : Pc K L C → Prop
  | .code _ => True
  | .sleep c l k | .sleepRelease c l k | .sleepMark c l k | .asleep c l k =>
    ∃ k₀, code k₀ = .sleep c l k

/-- The process is at a point of the code that meets `f`. -/
def isAt (f : K → Bool) : Pc K L C → Bool
  | .code k => f k
  | _ => false

end Pc

/-- The locks are held by the processes whose code says so. -/
structure Locked (code : P → K → Act K L C D) (holds : K → Option L) (s : Sys P K L C D) : Prop where
  lock : Paired s.lock fun p => (s.thread p).pc.holds holds
  ptlock : Paired (fun _ : Unit => s.ptlock) fun p => (s.thread p).pc.holdsTable
  called : ∀ p, (s.thread p).pc.called (code p)

theorem pc_update {α : Type} (thread : P → Thread K L C) (x : Thread K L C) (f : Pc K L C → α) :
    (fun q => f (Function.update thread p x q).pc) =
      Function.update (fun q => f (thread q).pc) p (f x.pc) := by
  funext q
  by_cases hq : q = p
  · subst q
    simp
  · simp [hq]

theorem pc_wakeup1 (s : Sys P K L C D) (c : C) (p : P) :
    ((s.wakeup1 c).thread p).pc = (s.thread p).pc := by
  change ((s.thread p).wake c).pc = _
  rw [Thread.wake]
  split <;> rfl

namespace Locked

variable {holds : K → Option L}

theorem mutex (h : Locked code holds s) {q : P} (hp : (s.thread p).pc.holds holds = some l)
    (hq : (s.thread q).pc.holds holds = some l) : p = q := h.lock.unique hp hq

theorem ptlock_eq (h : Locked code holds s) (hp : (s.thread p).pc.holdsTable = some ()) :
    s.ptlock = some p := (h.ptlock () p).mpr hp

variable {x : Thread K L C}

section

variable (h : Locked code holds s)
include h

theorem lock_same (hlock : x.pc.holds holds = (s.thread p).pc.holds holds) :
    Paired s.lock fun q => (Function.update s.thread p x q).pc.holds holds := by
  rw [pc_update, hlock, update_eq_self]
  exact h.lock

theorem ptlock_same (htable : x.pc.holdsTable = (s.thread p).pc.holdsTable) :
    Paired (fun _ : Unit => s.ptlock) fun q => (Function.update s.thread p x q).pc.holdsTable := by
  rw [pc_update, htable, update_eq_self]
  exact h.ptlock

theorem called_update (hx : x.pc.called (code p))
    (q : P) : (Function.update s.thread p x q).pc.called (code q) := by
  by_cases hq : q = p
  · subst q
    rw [update_self]
    exact hx
  · rw [update_of_ne hq]
    exact h.called q

theorem lock_take (hfree : s.lock l = none) (hnone : (s.thread p).pc.holds holds = none)
    (hlock : x.pc.holds holds = some l) :
    Paired (Function.update s.lock l (some p))
      fun q => (Function.update s.thread p x q).pc.holds holds := by
  rw [pc_update, hlock]
  exact h.lock.take hfree hnone

theorem lock_drop (hheld : (s.thread p).pc.holds holds = some l) (hlock : x.pc.holds holds = none) :
    Paired (Function.update s.lock l none)
      fun q => (Function.update s.thread p x q).pc.holds holds := by
  rw [pc_update, hlock]
  exact h.lock.drop hheld

theorem ptlock_take (hfree : s.ptlock = none) (hnone : (s.thread p).pc.holdsTable = none)
    (htable : x.pc.holdsTable = some ()) :
    Paired (fun _ : Unit => some p) fun q => (Function.update s.thread p x q).pc.holdsTable := by
  rw [pc_update, htable]
  have htake := h.ptlock.take (a := ()) hfree hnone
  have hpt : Function.update (fun _ : Unit => s.ptlock) () (some p) = fun _ => some p :=
    funext fun _ => update_self ..
  rwa [hpt] at htake

theorem ptlock_drop (hheld : (s.thread p).pc.holdsTable = some ())
    (htable : x.pc.holdsTable = none) :
    Paired (fun _ : Unit => none) fun q => (Function.update s.thread p x q).pc.holdsTable := by
  rw [pc_update, htable]
  have hdrop := h.ptlock.drop hheld
  have hpt : Function.update (fun _ : Unit => s.ptlock) () none = fun _ => none :=
    funext fun _ => update_self ..
  rwa [hpt] at hdrop

theorem wakeup1 (c : C) : Locked code holds (s.wakeup1 c) := by
  refine ⟨?_, ?_, ?_⟩
  · simp only [pc_wakeup1]
    exact h.lock
  · simp only [pc_wakeup1]
    exact h.ptlock
  · intro p
    rw [pc_wakeup1]
    exact h.called p

end

theorem step (hcode : ∀ p k, (code p k).keeps holds k) (h : Locked code holds s)
    (hs : s.step code e = .next s') : Locked code holds s' := by
  have hkeeps : ∀ {p k a}, code p k = a → a.keeps holds k := fun heq => heq ▸ hcode _ _
  have hcalled {p c} (hpc : (s.thread p).pc = c) : c.called (code p) := hpc ▸ h.called p
  cases Moves.of_step hs with
  | go hpc hact hok =>
    have hk := hkeeps hact _ hok
    exact ⟨h.lock_same (by rw [hpc]; exact hk), h.ptlock_same (by rw [hpc]; rfl),
      h.called_update trivial⟩
  | acquire hpc hact hfree =>
    have hk := hkeeps hact
    exact ⟨h.lock_take hfree (by rw [hpc]; exact hk.1) hk.2, h.ptlock_same (by rw [hpc]; rfl),
      h.called_update trivial⟩
  | release hpc hact =>
    have hk := hkeeps hact
    exact ⟨h.lock_drop (by rw [hpc]; exact hk.1) hk.2, h.ptlock_same (by rw [hpc]; rfl),
      h.called_update trivial⟩
  | data hpc hact =>
    have hk := hkeeps hact
    exact ⟨h.lock_same (by rw [hpc]; exact hk _), h.ptlock_same (by rw [hpc]; rfl),
      h.called_update trivial⟩
  | killed hpc hact =>
    have hk := hkeeps hact
    refine ⟨h.lock_same ?_, h.ptlock_same (by rw [hpc]; rfl), h.called_update trivial⟩
    rw [hpc]
    dsimp only [Pc.holds]
    split
    · exact hk.1
    · exact hk.2
  | sleep hpc hact =>
    have hk := hkeeps hact
    exact ⟨h.lock_same (by rw [hpc]; exact hk.1.symm), h.ptlock_same (by rw [hpc]; rfl),
      h.called_update ⟨_, hact⟩⟩
  | @wakeup p k k' c hpc hact hfree =>
    have hk := hkeeps hact
    have hw := h.wakeup1 c
    have hpc' := (pc_wakeup1 s c p).trans hpc
    exact ⟨hw.lock_same (by rw [hpc']; exact hk), hw.ptlock_same (by rw [hpc']; rfl),
      hw.called_update trivial⟩
  | sleepAcquire hpc hfree =>
    have hk := hcalled hpc
    exact ⟨h.lock_same (by rw [hpc]; rfl), h.ptlock_take hfree (by rw [hpc]; rfl) rfl,
      h.called_update hk⟩
  | sleepRelease hpc =>
    have hk := hcalled hpc
    exact ⟨h.lock_drop (by rw [hpc]; rfl) rfl, h.ptlock_same (by rw [hpc]; rfl),
      h.called_update hk⟩
  | sleepMark hpc =>
    have hk := hcalled hpc
    exact ⟨h.lock_same (by rw [hpc]; rfl), h.ptlock_drop (by rw [hpc]; rfl) rfl,
      h.called_update hk⟩
  | wake hpc hawake hfree =>
    obtain ⟨k₀, hact⟩ := hcalled hpc
    exact ⟨h.lock_take hfree (by rw [hpc]; rfl) (hkeeps hact).2, h.ptlock_same (by rw [hpc]; rfl),
      h.called_update trivial⟩
  | @kill p hfree => exact ⟨h.lock_same rfl, h.ptlock_same rfl, h.called_update (h.called p)⟩

end Locked

/-- The points of `deaf` come after the test of `killed`, and every `sleep` is at one of them. -/
def Act.heeds (deaf : K → Bool) (k : K) : Act K L C D → Prop
  | .choose ok => ∀ k', ok k' = true → deaf k' = false
  | .acquire _ k' | .release _ k' => deaf k' = false
  | .data f => ∀ d, deaf (f d).2 = false
  | .killed yes _ => deaf yes = false
  | .sleep _ _ k' => deaf k = true ∧ deaf k' = false
  | .wakeup _ k' => deaf k' = true → deaf k = true

/-- Between the test of `killed` and `p->state = SLEEPING` -/
def Pc.deaf (deaf : K → Bool) : Pc K L C → Bool
  | .code k => deaf k
  | .sleep _ _ _ | .sleepRelease _ _ _ | .sleepMark _ _ _ => true
  | .asleep _ _ _ => false

/-- `kill` does not come between the test and the state change of the process it kills. -/
def Sys.spares (deaf : K → Bool) (s : Sys P K L C D) : Event P K → Prop
  | .kill p => (s.thread p).pc.deaf deaf = false
  | .go _ _ | .run _ => True

instance (deaf : K → Bool) (s : Sys P K L C D) : (e : Event P K) → Decidable (s.spares deaf e)
  | .kill _ => inferInstanceAs (Decidable (_ = false))
  | .go _ _ | .run _ => .isTrue trivial

/-- Nobody who has been killed sleeps or is about to. -/
def Sys.Heard (deaf : K → Bool) (s : Sys P K L C D) : Prop :=
  ∀ p, (s.thread p).killed = true → (s.thread p).sleeping = false ∧ (s.thread p).pc.deaf deaf = false

namespace Sys.Heard

variable {deaf : K → Bool}

theorem moved (h : s.Heard deaf)
    (hpc : (s.thread p).killed = true → pc.deaf deaf = true → (s.thread p).pc.deaf deaf = true)
    (data : D) (lock : L → Option P) (ptlock : Option P) :
    Sys.Heard deaf ⟨data, lock, ptlock,
      Function.update s.thread p { s.thread p with pc := pc }⟩ := by
  intro q hkilled
  dsimp only at hkilled ⊢
  by_cases hq : q = p
  · subst q
    rw [update_self] at hkilled ⊢
    obtain ⟨hawake, hdeaf⟩ := h p hkilled
    refine ⟨hawake, Bool.eq_false_iff.mpr fun hnew => ?_⟩
    rw [hpc hkilled hnew] at hdeaf
    cases hdeaf
  · rw [update_of_ne hq] at hkilled ⊢
    exact h q hkilled

theorem wakeup1 (h : s.Heard deaf) (c : C) : (s.wakeup1 c).Heard deaf := by
  intro q hkilled
  rw [pc_wakeup1]
  change ((s.thread q).wake c).killed = true at hkilled
  change ((s.thread q).wake c).sleeping = false ∧ _
  rw [Thread.wake] at hkilled ⊢
  split at hkilled
  · rename_i hchan
    rw [if_pos hchan]
    exact ⟨rfl, (h q hkilled).2⟩
  · rename_i hchan
    rw [if_neg hchan]
    exact h q hkilled

theorem step (hcode : ∀ p k, (code p k).heeds deaf k) (h : s.Heard deaf)
    (hcalled : ∀ p, (s.thread p).pc.called (code p)) (hok : s.spares deaf e)
    (hs : s.step code e = .next s') : s'.Heard deaf := by
  have hheeds : ∀ {p k a}, code p k = a → a.heeds deaf k := fun heq => heq ▸ hcode _ _
  have hquiet : ∀ {p} {pc : Pc K L C}, pc.deaf deaf = false → (s.thread p).killed = true →
      pc.deaf deaf = true → (s.thread p).pc.deaf deaf = true := by
    intro p pc hfalse _ htrue
    rw [hfalse] at htrue
    cases htrue
  cases Moves.of_step hs with
  | go hpc hact hgo =>
    refine h.moved ?_ _ _ _
    exact hquiet (hheeds hact _ hgo)
  | acquire hpc hact hfree | release hpc hact =>
    refine h.moved ?_ _ _ _
    exact hquiet (hheeds hact)
  | data hpc hact =>
    refine h.moved ?_ _ _ _
    exact hquiet (hheeds hact _)
  | killed hpc hact =>
    refine h.moved (fun hkilled => ?_) _ _ _
    rw [if_pos hkilled]
    exact hquiet (hheeds hact) hkilled
  | sleep hpc hact =>
    refine h.moved (fun _ _ => ?_) _ _ _
    rw [hpc]
    exact (hheeds hact).1
  | @wakeup p k k' c hpc hact hfree =>
    refine (h.wakeup1 c).moved (fun _ hdeaf => ?_) _ _ _
    rw [pc_wakeup1, hpc]
    exact hheeds hact hdeaf
  | sleepAcquire hpc hfree | sleepRelease hpc =>
    refine h.moved (fun _ _ => ?_) _ _ _
    rw [hpc]
    rfl
  | @sleepMark p k c l hpc =>
    intro q hkilled
    dsimp only at hkilled ⊢
    by_cases hq : q = p
    · subst q
      rw [update_self] at hkilled
      have hdeaf := (h p hkilled).2
      rw [hpc] at hdeaf
      cases hdeaf
    · rw [update_of_ne hq] at hkilled ⊢
      exact h q hkilled
  | @wake p k c l hpc hawake hfree =>
    obtain ⟨k₀, hact⟩ : ∃ k₀, code p k₀ = .sleep c l k := by
      simpa only [hpc, Pc.called] using hcalled p
    refine h.moved ?_ _ _ _
    exact hquiet (hheeds hact).2
  | @kill p hfree =>
    intro q hkilled
    dsimp only at hkilled ⊢
    by_cases hq : q = p
    · subst q
      rw [update_self]
      exact ⟨rfl, hok⟩
    · rw [update_of_ne hq] at hkilled ⊢
      exact h q hkilled

end Sys.Heard

end Xv6.Sleep
