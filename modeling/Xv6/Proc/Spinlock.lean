import Mathlib.Logic.Function.Basic
import Mathlib.Tactic.Ring
import Xv6.Lib.Run

/-!
# Spin locks

Any number of CPUs run kernel code that calls `acquire`, `release`, `myproc` and `sched`.  Every
access that another CPU or an interrupt can come before is a step of its own.  An interrupt stacks a
frame on the code it finds, and `swtch` exchanges the whole stack for one that was set aside, perhaps
by another CPU.  The other modules take a section under a spin lock as one step because of what is
proved here.
-/

namespace Xv6

/-- `struct spinlock`, without what only serves debugging -/
structure Spinlock (C : Type) where
  locked : Bool
  cpu : Option C

inductive SpinPanic where
  | acquire
  | release
  | popcliInterruptible
  | popcli
  | mycpu
  | schedPtableLock
  | schedLocks
  | schedRunning
  | schedInterruptible

namespace Spin

inductive Instr (L : Type) where
  | pushcli
  | popcli
  /-- `r = lk->locked && lk->cpu == mycpu()` -/
  | load (lk : L)
  /-- `panic` if `r` is `b` -/
  | panicIf (b : Bool) (e : SpinPanic)
  | xchg (lk : L)
  | setCpu (lk : L)
  | clearCpu (lk : L)
  | clearLocked (lk : L)
  | mycpu
  /-- `mycpu()->ncli != 1` in `sched` -/
  | schedLocks
  /-- `p->state == RUNNING` in `sched` -/
  | schedRunning
  /-- `readeflags()&FL_IF` in `sched` -/
  | schedInterruptible
  /-- `swtch`, and in `sched` the save and restore of `intena` around it -/
  | swtch (sched : Bool)

/-- How far an instruction has come -/
inductive Phase where
  | start
  /-- After `readeflags`, or after the load of `lk->locked` -/
  | read
  /-- After `cli` -/
  | off
  /-- After `swtch` -/
  | back

/-- Code that was called, interrupted or set aside, with its local variables -/
structure Frame (L : Type) where
  /-- What is left of the call into `spinlock.c` or `proc.c`; empty outside of them -/
  code : List (Instr L)
  phase : Phase
  eflags : Bool
  r : Bool
  intena : Bool
  /-- The locks that its `xchg` found free and that it has not freed -/
  owns : List L
  /-- Of these, the ones whose `cpu` it has set and not cleared -/
  held : List L
  /-- Whether interrupts were on when the frame began or turned them on itself, if that is known -/
  enabled : Option Bool

structure Core (L : Type) where
  /-- `FL_IF` -/
  interrupts : Bool
  /-- The state of the process that the CPU runs is `RUNNING`. -/
  running : Bool
  ncli : Int
  intena : Bool
  frame : Frame L
  interrupted : List (Frame L)

structure System (C L : Type) where
  lock : L → Spinlock C
  core : C → Core L
  /-- Contexts that no CPU runs -/
  contexts : List (Frame L × List (Frame L))

inductive Call (L : Type) where
  | acquire (lk : L)
  | release (lk : L)
  | myproc
  | sched
  /-- `swtch` in `scheduler` -/
  | scheduler

inductive Event (C L : Type) where
  /-- The code of a CPU calls. -/
  | call (c : C) (x : Call L)
  | step (c : C)
  /-- `swtch` to the context with this number -/
  | swtch (c : C) (i : Nat)
  | interrupt (c : C)
  | iret (c : C)
  /-- `sti` in `scheduler`, or the return to user mode -/
  | sti (c : C)
  /-- The code of CPU `c` stores to `p->state` of the process that CPU `d` runs: `RUNNING`, or another. -/
  | setState (c d : C) (running : Bool)
  /-- `allocproc` makes a context that will begin in `forkret`. -/
  | allocproc

section

variable {C L : Type} [DecidableEq C] [DecidableEq L]

def holding (lk : L) : List (Instr L) := [.pushcli, .load lk, .popcli]

def acquire (lk : L) : List (Instr L) :=
  .pushcli :: holding lk ++ [.panicIf true .acquire, .xchg lk, .setCpu lk]

def release (lk : L) : List (Instr L) :=
  holding lk ++ [.panicIf false .release, .clearCpu lk, .clearLocked lk, .popcli]

def myproc : List (Instr L) := [.pushcli, .mycpu, .popcli]

def sched (ptable : L) : List (Instr L) :=
  myproc ++ holding ptable ++
    [.panicIf false .schedPtableLock, .schedLocks, .schedRunning, .schedInterruptible, .swtch true]

def Frame.fresh (held : List L) (enabled : Option Bool) : Frame L :=
  ⟨[], .start, false, false, false, held, held, enabled⟩

def Frame.next (f : Frame L) : Frame L := { f with code := f.code.tail, phase := .start }

def Call.code (ptable : L) : Call L → List (Instr L)
  | .acquire lk => Spin.acquire lk
  | .release lk => Spin.release lk
  | .myproc => Spin.myproc
  | .sched => Spin.sched ptable
  | .scheduler => [.swtch false]

namespace System

variable (ptable : L) (s : System C L) (c : C)

def setCore (x : Core L) : System C L := { s with core := Function.update s.core c x }

/-- What follows a test of `FL_IF` in `mycpu` -/
def mycpu (x : Core L) (s' : System C L) : Outcome SpinPanic (System C L) :=
  if x.interrupts then .panic .mycpu else .next s'

def exec (i : Instr L) : Outcome SpinPanic (System C L) :=
  let x := s.core c
  let f := x.frame
  match i with
  | .pushcli =>
    match f.phase with
    | .start => .next (s.setCore c { x with
        frame := { f with phase := .read, eflags := x.interrupts } })
    | .read => .next (s.setCore c { x with interrupts := false, frame := { f with phase := .off } })
    | _ => mycpu x (s.setCore c { x with
        intena := if x.ncli = 0 then f.eflags else x.intena, ncli := x.ncli + 1, frame := f.next })
  | .popcli =>
    if x.interrupts then .panic .popcliInterruptible
    else if x.ncli - 1 < 0 then .panic .popcli
    else .next (s.setCore c { x with
      ncli := x.ncli - 1, interrupts := x.ncli - 1 = 0 && x.intena, frame := f.next })
  | .load lk =>
    match f.phase with
    | .start =>
      if (s.lock lk).locked then .next (s.setCore c { x with frame := { f with phase := .read } })
      else .next (s.setCore c { x with frame := { f.next with r := false } })
    | _ => mycpu x (s.setCore c { x with frame := { f.next with r := (s.lock lk).cpu = some c } })
  | .panicIf b e => if f.r = b then .panic e else .next (s.setCore c { x with frame := f.next })
  | .xchg lk =>
    if (s.lock lk).locked then .next s
    else .next { s.setCore c { x with frame := { f.next with owns := lk :: f.owns } } with
      lock := Function.update s.lock lk { s.lock lk with locked := true } }
  | .setCpu lk => mycpu x { s.setCore c { x with frame := { f.next with held := lk :: f.held } } with
      lock := Function.update s.lock lk { s.lock lk with cpu := some c } }
  | .clearCpu lk => .next { s.setCore c { x with frame := { f.next with held := f.held.erase lk } } with
      lock := Function.update s.lock lk { s.lock lk with cpu := none } }
  | .clearLocked lk =>
    .next { s.setCore c { x with frame := { f.next with owns := f.owns.erase lk } } with
      lock := Function.update s.lock lk { s.lock lk with locked := false } }
  | .mycpu => mycpu x (s.setCore c { x with frame := f.next })
  | .schedLocks => if x.interrupts then .panic .mycpu else
      if x.ncli ≠ 1 then .panic .schedLocks else .next (s.setCore c { x with frame := f.next })
  | .schedRunning => if x.running then .panic .schedRunning else .next (s.setCore c { x with frame := f.next })
  | .schedInterruptible =>
    if x.interrupts then .panic .schedInterruptible else .next (s.setCore c { x with frame := f.next })
  | .swtch _ =>
    match f.phase with
    | .start => .blocked
    | _ => mycpu x (s.setCore c { x with intena := f.intena, frame := f.next })

/-- The CPU goes on with context `i`; `scheduler` has not saved `intena`, and has set the process `RUNNING`. -/
def swtch (sched : Bool) (i : Nat) : Outcome SpinPanic (System C L) :=
  let x := s.core c
  let f := if sched then { x.frame with phase := .back, intena := x.intena }
    else { x.frame.next with enabled := none }
  match s.contexts[i]? with
  | some k => .next { s.setCore c { x with
        running := x.running || !sched, frame := k.1, interrupted := k.2 } with
      contexts := s.contexts.set i (f, x.interrupted) }
  | none => .blocked

def step : Event C L → Outcome SpinPanic (System C L)
  | .call c a =>
    let x := s.core c
    if x.frame.code.isEmpty then
      .next (s.setCore c { x with frame := { x.frame with code := a.code ptable } })
    else .blocked
  | .step c =>
    match (s.core c).frame.code with
    | i :: _ => s.exec c i
    | [] => .blocked
  | .swtch c i =>
    match (s.core c).frame.code, (s.core c).frame.phase with
    | .swtch sched :: _, .start => s.swtch c sched i
    | _, _ => .blocked
  | .interrupt c =>
    let x := s.core c
    if x.interrupts then .next (s.setCore c { x with
      interrupts := false
      frame := .fresh [] (some false)
      interrupted := x.frame :: x.interrupted })
    else .blocked
  | .iret c =>
    let x := s.core c
    match x.frame.code, x.interrupted with
    | [], f :: fs => .next (s.setCore c { x with interrupts := true, frame := f, interrupted := fs })
    | _, _ => .blocked
  | .sti c =>
    let x := s.core c
    if x.frame.code.isEmpty then .next (s.setCore c { x with
      interrupts := true, frame := { x.frame with enabled := some true } })
    else .blocked
  | .setState c d b =>
    if (s.core c).frame.code.isEmpty then .next (s.setCore d { s.core d with running := b }) else .blocked
  | .allocproc => .next { s with
      contexts := (.fresh [ptable] none, []) :: s.contexts }

/-- What kernel code keeps to: it releases what it holds, does not take it again, gives up the CPU with
`ptable.lock` alone, and returns from an interrupt or turns interrupts on with no lock at all. -/
def Ok : Event C L → Prop
  | .call c (.acquire lk) => lk ∉ (s.core c).frame.held
  | .call c (.release lk) => lk ∈ (s.core c).frame.held
  | .call c .sched | .call c .scheduler => (s.core c).frame.held = [ptable]
  | .iret c | .sti c => (s.core c).frame.held = []
  | _ => True

/-- A process that gives up its CPU is not `RUNNING`, and `p->state` is stored to with `ptable.lock`. -/
def Tidy : Event C L → Prop
  | .call c .sched => (s.core c).running = false
  | .setState c _ _ => ptable ∈ (s.core c).frame.held
  | _ => True

instance decidableOk (a : Event C L) : Decidable (s.Ok ptable a) := by
  unfold Ok
  split <;> infer_instance

instance decidableTidy (a : Event C L) : Decidable (s.Tidy ptable a) := by
  unfold Tidy
  split <;> infer_instance

/-- All locks are free and every CPU starts with interrupts off. -/
def boot : System C L where
  lock _ := ⟨false, none⟩
  core _ := ⟨false, false, 0, false, .fresh [] (some false), []⟩
  contexts := []

end System

/-- The code runs without a panic from `ncli = n` with these locks, if `holding` tells the truth. -/
def Safe (ptable : L) (n : Int) (owns held : List L) (r : Bool) : List (Instr L) → Prop
  | [] => n = owns.length ∧ held = owns
  | .pushcli :: k => owns.length ≤ n ∧ Safe ptable (n + 1) owns held r k
  | .popcli :: k => owns.length < n ∧ Safe ptable (n - 1) owns held r k
  | .load lk :: k => owns.length ≤ n ∧ 0 < n ∧ Safe ptable n owns held (lk ∈ held) k
  | .panicIf b _ :: k => owns.length ≤ n ∧ 0 < n ∧ r = !b ∧ Safe ptable n owns held r k
  | .xchg lk :: k => owns.length < n ∧ lk ∉ owns ∧ Safe ptable n (lk :: owns) held r k
  | .setCpu lk :: k =>
    owns.length ≤ n ∧ lk ∈ owns ∧ lk ∉ held ∧ Safe ptable n owns (lk :: held) r k
  | .clearCpu lk :: k => owns.length ≤ n ∧ lk ∈ held ∧ Safe ptable n owns (held.erase lk) r k
  | .clearLocked lk :: k =>
    owns.length ≤ n ∧ lk ∈ owns ∧ lk ∉ held ∧ Safe ptable n (owns.erase lk) held r k
  | .mycpu :: k => owns.length ≤ n ∧ 0 < n ∧ Safe ptable n owns held r k
  | .schedLocks :: k | .schedRunning :: k | .schedInterruptible :: k =>
    owns.length ≤ n ∧ n = 1 ∧ Safe ptable n owns held r k
  | .swtch _ :: k => n = 1 ∧ owns = [ptable] ∧ held = owns ∧ k = []

def Instr.Stores : Instr L → Prop
  | .xchg _ | .setCpu _ | .clearCpu _ | .clearLocked _ => True
  | _ => False

def Phase.At : Phase → List (Instr L) → Prop
  | .start, _ | .read, .pushcli :: _ | .read, .load _ :: _ | .off, .pushcli :: _
  | .back, .swtch _ :: _ => True
  | _, _ => False

/-- Interrupts are off from `cli` to `sti`, and what they were before is in `FL_IF`, in a variable of the
frame or in the CPU. -/
def Frame.Remembers (flag : Bool) (n : Int) (intena : Bool) (f : Frame L) : Prop :=
  (f.phase = .off ∨ 0 < n → flag = false) ∧ ∀ b, f.enabled = some b →
    (n = 0 → (f.phase ≠ .off → flag = b) ∧ (f.phase ≠ .start → f.eflags = b)) ∧
    (0 < n → (f.phase = .back → f.intena = b) ∧ (f.phase ≠ .back → intena = b))

/-- A frame is where the flag and the counters of its CPU say. -/
structure Frame.Fits (ptable : L) (flag : Bool) (n : Int) (intena : Bool) (f : Frame L) : Prop where
  owns : f.owns.Nodup
  held : f.held.Nodup
  sub : f.held ⊆ f.owns
  safe : Safe ptable n f.owns f.held f.r f.code
  at_phase : f.phase.At f.code
  /-- `sched` has `ptable.lock`, and keeps it to its last check. -/
  leaves : .schedRunning ∈ f.code → ptable ∈ f.held ∧ ∀ i ∈ f.code, ¬i.Stores
  flags : f.Remembers flag n intena

/-- The state of the process is only known if `tidy`. -/
structure Core.Fits (tidy : Prop) (ptable : L) (x : Core L) : Prop where
  frame : x.frame.Fits ptable x.interrupts x.ncli x.intena
  running : tidy → .schedRunning ∈ x.frame.code → x.running = false
  interrupted : ∀ f ∈ x.interrupted, ∀ i, f.Fits ptable true 0 i

/-- The fields of the locks tell which CPUs own and hold them. -/
structure Locks (lock : L → Spinlock C) (owns held : C → List L) : Prop where
  locked : ∀ lk, (lock lk).locked = true ↔ ∃ c, lk ∈ owns c
  one : ∀ lk c c', lk ∈ owns c → lk ∈ owns c' → c = c'
  cpu : ∀ lk c, (lock lk).cpu = some c ↔ lk ∈ held c

structure System.Inv (tidy : Prop) (ptable : L) (s : System C L) : Prop where
  fits : ∀ c, (s.core c).Fits tidy ptable
  contexts : ∀ k ∈ s.contexts, (∀ i, k.1.Fits ptable false 1 i) ∧
    k.1.owns = [ptable] ∧ k.1.held = [ptable] ∧ .schedRunning ∉ k.1.code ∧ ∀ f ∈ k.2, ∀ i, f.Fits ptable true 0 i
  locks : Locks s.lock (fun c => (s.core c).frame.owns) fun c => (s.core c).frame.held

theorem Safe.length_le {ptable : L} {n : Int} {owns held : List L} {r : Bool} {k : List (Instr L)}
    (h : Safe ptable n owns held r k) : owns.length ≤ n := by
  cases k with
  | nil => exact h.1.ge
  | cons i k => cases i <;> simp only [Safe] at h <;> grind

section

variable {ptable : L} {flag intena : Bool} {n : Int} {f : Frame L}

/-- With interrupts off a frame can move without a look at the flag. -/
theorem Frame.Fits.move (h : f.Fits ptable flag n intena) (hn : 0 < n) (hf : f.phase ≠ .back)
    {g : Frame L} (henabled : g.enabled = f.enabled) (hg : g.phase ≠ .back) (hat : g.phase.At g.code)
    (howns : g.owns.Nodup) (hheld : g.held.Nodup) (hsub : g.held ⊆ g.owns)
    (hleaves : .schedRunning ∈ g.code → ptable ∈ g.held ∧ ∀ i ∈ g.code, ¬i.Stores)
    (hsafe : Safe ptable n g.owns g.held g.r g.code) : g.Fits ptable flag n intena where
  owns := howns
  held := hheld
  sub := hsub
  safe := hsafe
  at_phase := hat
  leaves := hleaves
  flags := by grind [Frame.Remembers, h.flags]

theorem Frame.Fits.leaves_tail (h : f.Fits ptable flag n intena) (hmem : .schedRunning ∈ f.code.tail) :
    ptable ∈ f.held ∧ ∀ i ∈ f.code.tail, ¬i.Stores := by
  obtain ⟨hheld, hstores⟩ := h.leaves (List.mem_of_mem_tail hmem)
  exact ⟨hheld, fun i hi => hstores i (List.mem_of_mem_tail hi)⟩

theorem Frame.Fits.stays (h : f.Fits ptable flag n intena) {i : Instr L} {k : List (Instr L)}
    (hcode : f.code = i :: k) (hi : i.Stores) : .schedRunning ∉ f.code.tail := fun hmem =>
  (h.leaves (List.mem_of_mem_tail hmem)).2 i (hcode ▸ List.mem_cons_self) hi

theorem Frame.Fits.phase_ne_back (h : f.Fits ptable flag n intena) {i : Instr L}
    {k : List (Instr L)} (hcode : f.code = i :: k) (hi : ∀ b, i ≠ .swtch b) : f.phase ≠ .back := by
  intro hp
  have hat := h.at_phase
  rw [hcode, hp] at hat
  cases i <;> simp_all [Phase.At]

theorem Frame.Fits.start_of_nil (h : f.Fits ptable flag n intena) (hcode : f.code = []) :
    f.phase = .start := by
  have hat := h.at_phase
  cases hp : f.phase <;> simp_all [Phase.At]

/-- Interrupts are on only where nothing is counted, and there `intena` is not used. -/
theorem Frame.Fits.paused (h : f.Fits ptable true n intena) :
    n = 0 ∧ ∀ i, f.Fits ptable true 0 i := by
  have hn : n = 0 := by
    have := h.safe.length_le
    have := h.flags.1
    grind
  subst hn
  exact ⟨rfl, fun i => { h with flags := by grind [Frame.Remembers, h.flags] }⟩

theorem Frame.Fits.owns_eq_nil (h : f.Fits ptable flag 0 intena) : f.owns = [] := by
  have := h.safe.length_le
  exact List.length_eq_zero_iff.1 (by omega)

theorem Frame.Fits.held_eq_nil (h : f.Fits ptable flag 0 intena) : f.held = [] :=
  List.subset_nil.1 (h.owns_eq_nil ▸ h.sub)

theorem Frame.fits_fresh (i : Bool) : (Frame.fresh [] (some false)).Fits ptable false 0 i where
  owns := .nil
  held := .nil
  sub := List.Subset.refl _
  safe := ⟨rfl, rfl⟩
  at_phase := trivial
  leaves := nofun
  flags := by simp [Frame.Remembers, Frame.fresh]

end

section

variable {lock : L → Spinlock C} {owns held : C → List L} {c : C} {lk : L}
variable (h : Locks lock owns held)
include h

/-- `lk->locked` changes while no other CPU owns the lock. -/
theorem Locks.setLocked (hother : ∀ d, lk ∈ owns d → d = c) {l : List L} {b : Bool}
    (hl : ∀ lk', lk' ∈ l ↔ if lk' = lk then b = true else lk' ∈ owns c) :
    Locks (Function.update lock lk { lock lk with locked := b }) (Function.update owns c l) held := by
  have hmem (lk' : L) (d : C) : lk' ∈ Function.update owns c l d ↔
      if lk' = lk then b = true ∧ d = c else lk' ∈ owns d := by
    grind [Function.update_apply]
  refine ⟨fun lk' => ?_, fun lk' d d' => ?_, fun lk' d => ?_⟩
  · by_cases hne : lk' = lk
    · simp [hne, hmem]
    · simpa [hne, hmem] using h.locked lk'
  · grind [h.one lk' d d']
  · by_cases hne : lk' = lk
    · simpa [hne] using h.cpu lk d
    · simpa [hne] using h.cpu lk' d

/-- The owner stores to `lk->cpu`. -/
theorem Locks.setCpu (hown : lk ∈ owns c) (hsub : ∀ d, held d ⊆ owns d) {l : List L} {b : Bool}
    (hl : ∀ lk', lk' ∈ l ↔ if lk' = lk then b = true else lk' ∈ held c) :
    Locks (Function.update lock lk { lock lk with cpu := if b then some c else none }) owns
      (Function.update held c l) := by
  refine ⟨fun lk' => ?_, h.one, fun lk' d => ?_⟩
  · by_cases hne : lk' = lk
    · simpa [hne] using h.locked lk
    · simpa [hne] using h.locked lk'
  · have := h.one lk c d hown
    have := @hsub d lk
    have := h.cpu lk' d
    grind [Function.update_apply]

end

namespace System

variable {tidy : Prop} {ptable : L} {s : System C L} {c : C}

theorem Inv.set (h : s.Inv tidy ptable) {x : Core L} {lock : L → Spinlock C} (hx : x.Fits tidy ptable)
    (hlocks : Locks lock (Function.update (fun d => (s.core d).frame.owns) c x.frame.owns)
      (Function.update (fun d => (s.core d).frame.held) c x.frame.held)) :
    Inv tidy ptable { s.setCore c x with lock := lock } := by
  refine ⟨fun d => ?_, h.contexts, ?_⟩
  · by_cases hd : d = c
    · simpa [System.setCore, hd] using hx
    · simpa [System.setCore, hd] using h.fits d
  · convert hlocks using 1
    · exact Function.comp_update (fun y : Core L => y.frame.owns) s.core c x
    · exact Function.comp_update (fun y : Core L => y.frame.held) s.core c x

/-- A step that leaves the locks alone -/
theorem Inv.setCore (h : s.Inv tidy ptable) {x : Core L} (hx : x.Fits tidy ptable)
    (howns : x.frame.owns = (s.core c).frame.owns) (hheld : x.frame.held = (s.core c).frame.held) :
    (s.setCore c x).Inv tidy ptable := by
  refine h.set hx ?_
  simpa [howns, hheld] using h.locks

/-- The step keeps the invariant, and does not panic if `tidy`. -/
def Keeps (tidy : Prop) (ptable : L) : Outcome SpinPanic (System C L) → Prop
  | .next s => s.Inv tidy ptable
  | .panic _ => ¬tidy
  | .blocked => True

omit [DecidableEq C] in
theorem keeps_mycpu {x : Core L} (hx : x.interrupts = false) (h : s.Inv tidy ptable) :
    Keeps tidy ptable (mycpu x s) := by
  simpa [mycpu, hx, Keeps] using h

section

variable (h : s.Inv tidy ptable) {k : List (Instr L)}
include h

omit [DecidableEq C] in
theorem Inv.safe (hcode : (s.core c).frame.code = k) : Safe ptable (s.core c).ncli
    (s.core c).frame.owns (s.core c).frame.held (s.core c).frame.r k :=
  hcode ▸ (h.fits c).frame.safe

/-- An instruction that leaves the locks alone -/
theorem Inv.done {i : Instr L} {flag intena r : Bool} {n : Int} (hcode : (s.core c).frame.code = i :: k)
    (hs : Safe ptable n (s.core c).frame.owns (s.core c).frame.held r k)
    (hflags : (s.core c).frame.next.Remembers flag n intena) : Inv tidy ptable (s.setCore c { s.core c with
      interrupts := flag, ncli := n, intena := intena, frame := { (s.core c).frame.next with r := r } }) := by
  obtain ⟨hf, hrun, hrest⟩ := h.fits c
  exact h.setCore ⟨{ hf with
    safe := by simpa [Frame.next, hcode] using hs
    at_phase := trivial
    leaves := hf.leaves_tail
    flags := hflags }, fun ht hmem => hrun ht (List.mem_of_mem_tail hmem), hrest⟩ rfl rfl

theorem Inv.pushcli (hcode : (s.core c).frame.code = .pushcli :: k) :
    Keeps tidy ptable (s.exec c .pushcli) := by
  obtain ⟨hf, hrun, hrest⟩ := h.fits c
  have hsafe := h.safe hcode
  have hlen := hsafe.length_le
  have hback := hf.phase_ne_back hcode nofun
  have hflags := hf.flags
  rw [exec]
  split
  · exact h.setCore ⟨{ hf with
      at_phase := by simp [hcode, Phase.At]
      flags := by grind [Frame.Remembers] }, hrun, hrest⟩ rfl rfl
  · exact h.setCore ⟨{ hf with
      at_phase := by simp [hcode, Phase.At]
      flags := by grind [Frame.Remembers] }, hrun, hrest⟩ rfl rfl
  · have hoff : (s.core c).interrupts = false := by
      cases hp : (s.core c).frame.phase <;> grind [Frame.Remembers]
    exact keeps_mycpu hoff (h.done hcode hsafe.2 (by grind [Frame.Remembers, Frame.next]))

theorem Inv.popcli (hcode : (s.core c).frame.code = .popcli :: k) :
    Keeps tidy ptable (s.exec c .popcli) := by
  obtain ⟨hf, hrun, hrest⟩ := h.fits c
  have hsafe := h.safe hcode
  rw [Safe] at hsafe
  have hoff := hf.flags.1 (.inr (by omega))
  have hback := hf.phase_ne_back hcode nofun
  have hflags := hf.flags
  rw [exec, if_neg (by simp [hoff]), if_neg (by omega)]
  exact h.done hcode hsafe.2 (by grind [Frame.Remembers, Frame.next])

/-- An instruction that changes at most `r` -/
theorem Inv.next {i : Instr L} {r : Bool} (hcode : (s.core c).frame.code = i :: k)
    (hi : ∀ b, i ≠ .swtch b) (hn : 0 < (s.core c).ncli)
    (hs : Safe ptable (s.core c).ncli (s.core c).frame.owns (s.core c).frame.held r k) :
    (s.setCore c { s.core c with frame := { (s.core c).frame.next with r := r } }).Inv tidy ptable := by
  have hback := (h.fits c).frame.phase_ne_back hcode hi
  have hflags := (h.fits c).frame.flags
  exact h.done hcode hs (by grind [Frame.Remembers, Frame.next])

theorem Inv.load {lk : L} (hcode : (s.core c).frame.code = .load lk :: k) :
    Keeps tidy ptable (s.exec c (.load lk)) := by
  obtain ⟨hf, hrun, hrest⟩ := h.fits c
  obtain ⟨-, hn, hsafe⟩ := h.safe hcode
  have hcpu : (s.lock lk).cpu = some c ↔ lk ∈ (s.core c).frame.held := h.locks.cpu lk c
  rw [exec]
  split
  · split
    · refine h.setCore ⟨hf.move hn (hf.phase_ne_back hcode nofun) rfl nofun ?_ hf.owns hf.held hf.sub
        hf.leaves hf.safe, hrun, hrest⟩ rfl rfl
      simp [hcode, Phase.At]
    · rename_i hfree
      refine h.next hcode nofun hn ?_
      have : lk ∉ (s.core c).frame.held := fun hmem => hfree ((h.locks.locked lk).2 ⟨c, hf.sub hmem⟩)
      simpa [this] using hsafe
  · refine keeps_mycpu (hf.flags.1 (.inr hn)) (h.next hcode nofun hn ?_)
    simpa [hcpu] using hsafe

/-- An instruction that changes a lock -/
theorem Inv.store {i : Instr L} {lock : L → Spinlock C} {owns held : List L}
    (hcode : (s.core c).frame.code = i :: k) (hi : i.Stores) (hn : 0 < (s.core c).ncli)
    (howns : owns.Nodup) (hheld : held.Nodup) (hsub : held ⊆ owns)
    (hs : Safe ptable (s.core c).ncli owns held (s.core c).frame.r k)
    (hlocks : Locks lock (Function.update (fun d => (s.core d).frame.owns) c owns)
      (Function.update (fun d => (s.core d).frame.held) c held)) :
    Inv tidy ptable { s.setCore c { s.core c with
      frame := { (s.core c).frame.next with owns := owns, held := held } } with lock := lock } := by
  obtain ⟨hf, -, hrest⟩ := h.fits c
  have hstays := hf.stays hcode hi
  have hback := hf.phase_ne_back hcode (by rintro b rfl; exact hi)
  refine h.set ⟨hf.move hn hback rfl nofun trivial howns hheld hsub (absurd · hstays) ?_,
    fun _ => (absurd · hstays), hrest⟩ hlocks
  simpa [Frame.next, hcode] using hs

theorem Inv.exec {i : Instr L} (hcode : (s.core c).frame.code = i :: k) :
    Keeps tidy ptable (s.exec c i) := by
  obtain ⟨hf, hrun, hrest⟩ := h.fits c
  have hsafe := h.safe hcode
  have hsub (d : C) : (s.core d).frame.held ⊆ (s.core d).frame.owns := (h.fits d).1.sub
  have hpos {lk : L} (hlk : lk ∈ (s.core c).frame.owns) : 0 < (s.core c).ncli := by
    have := List.length_pos_of_mem hlk
    have := hsafe.length_le
    omega
  cases i with
  | pushcli => exact h.pushcli hcode
  | popcli => exact h.popcli hcode
  | load lk => exact h.load hcode
  | panicIf b e =>
    obtain ⟨-, hn, hr, hsafe⟩ := hsafe
    rw [System.exec, if_neg (by simp [hr])]
    exact h.next hcode nofun hn hsafe
  | xchg lk =>
    obtain ⟨hn, hmem, hsafe⟩ := hsafe
    rw [System.exec]
    split
    · exact h
    · rename_i hfree
      refine h.store hcode trivial (by omega) (List.nodup_cons.2 ⟨hmem, hf.owns⟩) hf.held
        (List.subset_cons_of_subset lk hf.sub) hsafe ?_
      have hnone (d : C) (hd : lk ∈ (s.core d).frame.owns) : d = c :=
        absurd ((h.locks.locked lk).2 ⟨d, hd⟩) hfree
      have := h.locks.setLocked (l := lk :: (s.core c).frame.owns) (b := true) hnone (by grind)
      simpa [Frame.next] using this
  | setCpu lk =>
    obtain ⟨-, hmem, hheld, hsafe⟩ := hsafe
    have hn := hpos hmem
    refine keeps_mycpu (hf.flags.1 (.inr hn)) (h.store hcode trivial hn hf.owns
      (List.nodup_cons.2 ⟨hheld, hf.held⟩) (List.cons_subset.2 ⟨hmem, hf.sub⟩) hsafe ?_)
    have := h.locks.setCpu (l := lk :: (s.core c).frame.held) (b := true) hmem hsub (by grind)
    simpa [Frame.next] using this
  | clearCpu lk =>
    obtain ⟨-, hmem, hsafe⟩ := hsafe
    have hn := hpos (hf.sub hmem)
    refine h.store hcode trivial hn hf.owns (hf.held.erase lk)
      (fun lk' hlk => hf.sub (List.mem_of_mem_erase hlk)) hsafe ?_
    have := h.locks.setCpu (l := (s.core c).frame.held.erase lk) (b := false) (hf.sub hmem) hsub
        fun lk' => by
      have := hf.held.mem_erase_iff (a := lk') (b := lk)
      grind
    simpa [Frame.next] using this
  | clearLocked lk =>
    obtain ⟨-, hmem, hheld, hsafe⟩ := hsafe
    have hn := hpos hmem
    refine h.store hcode trivial hn (hf.owns.erase lk) hf.held (fun lk' hlk => ?_) hsafe ?_
    · exact (hf.owns.mem_erase_iff).2 ⟨fun he => hheld (he ▸ hlk), hf.sub hlk⟩
    · have := h.locks.setLocked (l := (s.core c).frame.owns.erase lk) (b := false)
          (fun d hd => h.locks.one lk d c hd hmem) fun lk' => by
        have := hf.owns.mem_erase_iff (a := lk') (b := lk)
        grind
      simpa [Frame.next] using this
  | mycpu =>
    obtain ⟨-, hn, hsafe⟩ := hsafe
    exact keeps_mycpu (hf.flags.1 (.inr hn)) (h.next hcode nofun hn hsafe)
  | schedLocks =>
    obtain ⟨-, hn, hsafe⟩ := hsafe
    rw [System.exec, if_neg (by simp [hf.flags.1 (.inr (by omega))]), if_neg (by simp [hn])]
    exact h.next hcode nofun (by omega) hsafe
  | schedRunning =>
    obtain ⟨-, hn, hsafe⟩ := hsafe
    rw [System.exec]
    split
    · rename_i hrunning
      exact fun ht => nomatch hrunning.symm.trans (hrun ht (by simp [hcode]))
    · exact h.next hcode nofun (by omega) hsafe
  | schedInterruptible =>
    obtain ⟨-, hn, hsafe⟩ := hsafe
    rw [System.exec, if_neg (by simp [hf.flags.1 (.inr (by omega))])]
    exact h.next hcode nofun (by omega) hsafe
  | swtch b =>
    obtain ⟨hn, howns, hheld, rfl⟩ := hsafe
    rw [System.exec]
    split
    · trivial
    · have hback : (s.core c).frame.phase = .back := by
        have hat := hf.at_phase
        rw [hcode] at hat
        cases hp : (s.core c).frame.phase <;> simp_all [Phase.At]
      have hflags := hf.flags
      exact keeps_mycpu (hflags.1 (.inr (by omega))) (h.done hcode
        (by simp [Safe, hn, howns, hheld]) (by grind [Frame.Remembers, Frame.next]))

theorem Inv.swtch {sched : Bool} (hcode : (s.core c).frame.code = .swtch sched :: k)
    (hp : (s.core c).frame.phase = .start) (i : Nat) : Keeps tidy ptable (s.swtch c sched i) := by
  obtain ⟨hf, hrun, hrest⟩ := h.fits c
  obtain ⟨hn, howns, hheld, rfl⟩ := h.safe hcode
  have hlast : .schedRunning ∉ (s.core c).frame.code := by simp [hcode]
  have hoff := hf.flags.1 (.inr (by omega))
  have hflags := hf.flags
  rw [hn] at hf
  rw [System.swtch]
  split
  · rename_i k' hk'
    obtain ⟨hfits, howns', hheld', hlast', hrest'⟩ := h.contexts k' (List.mem_of_getElem? hk')
    have hset : (s.setCore c { s.core c with
        running := (s.core c).running || !sched, frame := k'.1, interrupted := k'.2 }).Inv tidy ptable := by
      refine h.setCore ⟨?_, fun _ => (absurd · hlast'), hrest'⟩ (howns'.trans howns.symm) (hheld'.trans (hheld.trans howns).symm)
      simpa [hoff, hn] using hfits (s.core c).intena
    refine ⟨hset.fits, fun q hq => ?_, hset.locks⟩
    rcases List.mem_or_eq_of_mem_set hq with hq | rfl
    · exact h.contexts q hq
    · cases sched with
      | true =>
        exact ⟨fun j => { hf with
          at_phase := by simp [hcode, Phase.At]
          flags := by grind [Frame.Remembers] }, howns, hheld.trans howns, hlast, hrest⟩
      | false =>
        exact ⟨fun j => { hf with
          safe := by simp [Frame.next, hcode, Safe, howns, hheld]
          at_phase := trivial
          leaves := hf.leaves_tail
          flags := by simp [Frame.Remembers] }, howns, hheld.trans howns, fun hmem => hlast (List.mem_of_mem_tail hmem),
          hrest⟩
  · trivial

omit [DecidableEq C] in
theorem Inv.call {a : Call L} (hok : s.Ok ptable (.call c a)) (htidy : tidy → s.Tidy ptable (.call c a))
    (hcode : (s.core c).frame.code = []) :
    Safe ptable (s.core c).ncli (s.core c).frame.owns (s.core c).frame.held (s.core c).frame.r
        (a.code ptable) ∧
      (.schedRunning ∈ a.code ptable → ptable ∈ (s.core c).frame.held ∧
        (∀ i ∈ a.code ptable, ¬i.Stores) ∧ (tidy → (s.core c).running = false)) := by
  obtain ⟨hlen, hheld⟩ := h.safe hcode
  rw [Ok.eq_def] at hok
  cases a with
  | acquire lk =>
    have hmem : lk ∉ (s.core c).frame.owns := hheld ▸ hok
    refine ⟨?_, by simp [Call.code, Spin.acquire, Spin.holding]⟩
    simp [Call.code, Spin.acquire, Spin.holding, Safe, hmem, hlen, hheld]
    omega
  | release lk =>
    have hmem : lk ∈ (s.core c).frame.owns := hheld ▸ hok
    have hpos := List.length_pos_of_mem hmem
    have hgone := (h.fits c).1.owns.not_mem_erase (a := lk)
    refine ⟨?_, by simp [Call.code, Spin.release, Spin.holding]⟩
    simp [Call.code, Spin.release, Spin.holding, Safe, hmem, hlen, hheld, List.length_erase_of_mem,
      hgone, hpos]
  | myproc => simp [Call.code, Spin.myproc, Safe, hlen, hheld]
  | sched =>
    have hone : (s.core c).frame.owns = [ptable] := hheld ▸ hok
    simpa [Call.code, Spin.sched, Spin.myproc, Spin.holding, Safe, Instr.Stores, hlen, hheld, hone, Tidy] using htidy
  | scheduler =>
    have hone : (s.core c).frame.owns = [ptable] := hheld ▸ hok
    simp [Call.code, Safe, hlen, hheld, hone]

/-- A step between two points where the CPU has no lock -/
theorem Inv.setCore_of_zero {x : Core L} (hx : x.Fits tidy ptable) (hn : (s.core c).ncli = 0)
    (hn' : x.ncli = 0) : (s.setCore c x).Inv tidy ptable := by
  have hold := (h.fits c).1
  have hnew := hx.1
  rw [hn] at hold
  rw [hn'] at hnew
  exact h.setCore hx (hnew.owns_eq_nil.trans hold.owns_eq_nil.symm)
    (hnew.held_eq_nil.trans hold.held_eq_nil.symm)

omit [DecidableEq C] in
theorem Inv.ncli_eq_zero (hcode : (s.core c).frame.code = []) (hheld : (s.core c).frame.held = []) :
    (s.core c).ncli = 0 := by
  have hsafe := h.safe hcode
  simpa [← hsafe.2, hheld] using hsafe.1

theorem Inv.step {a : Event C L} (hok : s.Ok ptable a) (htidy : tidy → s.Tidy ptable a) :
    Keeps tidy ptable (s.step ptable a) := by
  cases a with
  | call c a =>
    obtain ⟨hf, hrun, hrest⟩ := h.fits c
    rw [System.step]
    split
    · rename_i hcode
      rw [List.isEmpty_iff] at hcode
      have hp := hf.start_of_nil hcode
      obtain ⟨hsafe, hleaves⟩ := h.call hok htidy hcode
      exact h.setCore ⟨{ hf with
        safe := hsafe
        at_phase := by simp [hp, Phase.At]
        leaves := fun hmem => ⟨(hleaves hmem).1, (hleaves hmem).2.1⟩ }, fun ht hmem => (hleaves hmem).2.2 ht, hrest⟩ rfl rfl
    · trivial
  | step c =>
    rw [System.step]
    split
    · exact h.exec (by assumption)
    · trivial
  | swtch c i =>
    rw [System.step]
    split
    · exact h.swtch (by assumption) (by assumption) i
    · trivial
  | interrupt c =>
    obtain ⟨hf, -, hrest⟩ := h.fits c
    rw [System.step]
    split
    · rename_i hon
      rw [hon] at hf
      obtain ⟨hn, hpaused⟩ := hf.paused
      exact h.setCore_of_zero ⟨hn ▸ Frame.fits_fresh _, fun _ => nofun, List.forall_mem_cons.2 ⟨hpaused, hrest⟩⟩ hn hn
    · trivial
  | iret c =>
    obtain ⟨-, -, hrest⟩ := h.fits c
    rw [System.step]
    split
    · rename_i f fs hcode hfs
      have hn := h.ncli_eq_zero hcode hok
      rw [hfs, List.forall_mem_cons] at hrest
      refine h.setCore_of_zero ⟨hn ▸ hrest.1 _, fun _ hmem => ?_, hrest.2⟩ hn hn
      have hheld := ((hrest.1 false).leaves hmem).1
      simp [(hrest.1 false).held_eq_nil] at hheld
    · trivial
  | sti c =>
    obtain ⟨hf, hrun, hrest⟩ := h.fits c
    rw [System.step]
    split
    · rename_i hcode
      rw [List.isEmpty_iff] at hcode
      have hn := h.ncli_eq_zero hcode hok
      have hp := hf.start_of_nil hcode
      exact h.setCore_of_zero ⟨{ hf with
        flags := by simp [Frame.Remembers, hp, hn] }, hrun, hrest⟩ hn hn
    · trivial
  | setState c d b =>
    obtain ⟨hf, hrun, hrest⟩ := h.fits d
    rw [System.step]
    split
    · rename_i hcode
      refine h.setCore ⟨hf, fun ht hmem => ?_, hrest⟩ rfl rfl
      -- Another CPU that is in `sched` would have the lock too.
      have hboth := h.locks.one ptable c d ((h.fits c).frame.sub (htidy ht)) (hf.sub (hf.leaves hmem).1)
      rw [← hboth, List.isEmpty_iff.1 hcode] at hmem
      cases hmem
    · trivial
  | allocproc =>
    refine ⟨h.fits, List.forall_mem_cons.2 ⟨⟨fun i => ?_, rfl, rfl, nofun, nofun⟩, h.contexts⟩, h.locks⟩
    exact ⟨by simp [Frame.fresh], by simp [Frame.fresh], List.Subset.refl _, ⟨rfl, rfl⟩, trivial, nofun,
      by simp [Frame.Remembers, Frame.fresh]⟩

end

omit [DecidableEq C] in
theorem inv_boot : (boot : System C L).Inv tidy ptable :=
  ⟨fun c => ⟨Frame.fits_fresh false, fun _ => nofun, nofun⟩, nofun,
    by simp [boot, Frame.fresh], by simp [boot, Frame.fresh], by simp [boot, Frame.fresh]⟩

theorem inv_of_reach (h : Reach (step ptable) (fun s a => s.Ok ptable a ∧ (tidy → s.Tidy ptable a)) boot s) :
    s.Inv tidy ptable :=
  h.invariant inv_boot fun s a s' hs hok hstep => by
    have := hs.step hok.1 hok.2
    rwa [hstep] at this

theorem inv_of_ok (h : Reach (step ptable) (Ok ptable) boot s) : s.Inv False ptable :=
  inv_of_reach (h.mono fun _ _ hok => ⟨hok, nofun⟩)

/-- A lock is held on one CPU at a time.  That CPU cannot be interrupted, the code that it has
interrupted holds no lock, and who spins on the lock does so on another CPU. -/
theorem spinlock_exclusive (h : Reach (step ptable) (Ok ptable) boot s) {lk : L}
    (hc : lk ∈ (s.core c).frame.held) :
    (s.core c).interrupts = false ∧ (s.lock lk).locked = true ∧
      (∀ f ∈ (s.core c).interrupted, f.owns = []) ∧
      ∀ d, (lk ∈ (s.core d).frame.owns → d = c) ∧
        ∀ k, (s.core d).frame.code = .xchg lk :: k → d ≠ c := by
  have hinv := inv_of_ok h
  obtain ⟨hf, -, hrest⟩ := hinv.fits c
  have hown := hf.sub hc
  refine ⟨hf.flags.1 (.inr ?_), (hinv.locks.locked lk).2 ⟨c, hown⟩, fun f hf => ?_,
    fun d => ⟨fun hd => ?_, ?_⟩⟩
  · have := hf.safe.length_le
    have := List.length_pos_of_mem hown
    omega
  · exact (hrest f hf false).owns_eq_nil
  · exact hinv.locks.one lk d c hd hown
  · rintro k hk rfl
    exact (hinv.safe hk).2.1 hown

/-- No call panics: `holding` tells `acquire`, `release` and `sched` what their callers know, every
`popcli` has its `pushcli`, `mycpu` is called with interrupts off, and no other CPU sets a process that is
in `sched` to `RUNNING`. -/
theorem spinlock_no_panic (h : Reach (step ptable) (fun s a => s.Ok ptable a ∧ s.Tidy ptable a) boot s)
    {a : Event C L} (hok : s.Ok ptable a ∧ s.Tidy ptable a) (e : SpinPanic) :
    s.step ptable a ≠ .panic e := by
  intro he
  have hinv : s.Inv True ptable := inv_of_reach (h.mono fun _ _ hok => ⟨hok.1, fun _ => hok.2⟩)
  have hkeeps := hinv.step hok.1 fun _ => hok.2
  rw [he] at hkeeps
  exact hkeeps trivial

/-- Outside of the calls `ncli` counts the locks, and without a lock interrupts are as they were when
the code began, on whichever CPU it goes on.  This is not known of `scheduler` after `swtch` and of
`forkret`, which go on with the `intena` of other code. -/
theorem interrupts_restored (h : Reach (step ptable) (Ok ptable) boot s)
    (hcode : (s.core c).frame.code = []) :
    (s.core c).ncli = (s.core c).frame.held.length ∧
      ((s.core c).frame.held = [] → ∀ b, (s.core c).frame.enabled = some b →
        (s.core c).interrupts = b) := by
  have hinv := inv_of_ok h
  have hf := (hinv.fits c).frame
  have hsafe := hinv.safe hcode
  refine ⟨hsafe.2 ▸ hsafe.1, fun hheld b hb => ?_⟩
  exact ((hf.flags.2 b hb).1 (hinv.ncli_eq_zero hcode hheld)).1 (by simp [hf.start_of_nil hcode])

end System

end

/-- One CPU has a lock, and the other one spins on it. -/
def contention : List (Event Bool Bool) :=
  [.sti false, .call false (.acquire true)] ++ .replicate 11 (.step false) ++
    .call true (.acquire true) :: .replicate 9 (.step true)

/-- After that the lock is released. -/
def released : List (Event Bool Bool) :=
  contention ++ .call false (.release true) :: .replicate 10 (.step false)

theorem reach_contention : ∃ s : System Bool Bool,
    Reach (System.step false) (System.Ok false) System.boot s ∧ true ∈ (s.core false).frame.held := by
  obtain ⟨s, hs, hheld⟩ := Outcome.exists_of_holds
    (r := runEvents (System.step false) System.boot contention)
    (Q := fun s => true ∈ (s.core false).frame.held) (by decide +kernel)
  exact ⟨s, .of_runEvents .init _ (by decide +kernel) hs, hheld⟩

theorem spinlock_exclusive_contention : ∃ s : System Bool Bool, true ∈ (s.core false).frame.held ∧
    (s.core false).interrupts = false ∧ (s.lock true).locked = true := by
  obtain ⟨s, hs, hheld⟩ := reach_contention
  have hexcl := System.spinlock_exclusive hs hheld
  exact ⟨s, hheld, hexcl.1, hexcl.2.1⟩

/-- A process is about to leave its CPU, and `sched` looks at its state. -/
def leaving : List (Event Bool Bool) :=
  .call false (.acquire true) :: .replicate 11 (.step false) ++
    [.setState false false true, .setState false false false, .call false .sched] ++ .replicate 13 (.step false)

theorem spinlock_no_panic_sched : ∃ s : System Bool Bool,
    (s.core false).frame.code.length = 3 ∧ ∀ e, s.step true (.step false) ≠ .panic e := by
  obtain ⟨s, hs, hcode⟩ := Outcome.exists_of_holds
    (r := runEvents (System.step true) System.boot leaving)
    (Q := fun s => (s.core false).frame.code.length = 3) (by decide +kernel)
  exact ⟨s, hcode, System.spinlock_no_panic (.of_runEvents .init _ (by decide +kernel) hs) ⟨trivial, trivial⟩⟩

theorem interrupts_restored_released : ∃ s : System Bool Bool,
    (s.core false).ncli = 0 ∧ (s.core false).interrupts = true := by
  obtain ⟨s, hs, hcode, hheld, hon⟩ := Outcome.exists_of_holds
    (r := runEvents (System.step false) System.boot released)
    (Q := fun s => (s.core false).frame.code.isEmpty ∧ (s.core false).frame.held = [] ∧
      (s.core false).frame.enabled = some true) (by decide +kernel)
  obtain ⟨hn, hrestored⟩ := System.interrupts_restored (.of_runEvents .init _ (by decide +kernel) hs)
    (List.isEmpty_iff.1 hcode)
  exact ⟨s, by simpa [hheld] using hn, hrestored hheld true hon⟩

end Spin

end Xv6
