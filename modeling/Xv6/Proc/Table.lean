import Mathlib.Tactic.Ring
import Mathlib.Data.List.FinRange
import Xv6.Lib.Run
import Xv6.Param

/-!
# The process table

`fork`, `exit`, `wait` and `kill` of `proc.c`, interleaved by the processes of the table.  Every
section under `ptable.lock` is one step, and so is each write that `fork` makes without the lock.
A process may be preempted between any two steps, and may sleep on other channels in other calls.
-/

namespace Xv6

/-- An `int` result as the compiled kernel stores it: 32 bits, two's complement. -/
def wrapInt (n : Int) : Int := n.bmod (2 ^ 32)

theorem wrapInt_of_le {n : Int} (hlo : 0 ≤ n) (hhi : n ≤ INT_MAX) : wrapInt n = n := by
  simp only [INT_MAX] at hhi
  exact Int.bmod_eq_of_le (by omega) (by omega)

/-- Index into `ptable.proc`. -/
abbrev Slot := Fin NPROC

inductive ProcState where
  | unused
  | embryo
  | sleeping
  | runnable
  | running
  | zombie
  deriving DecidableEq

/-- What `sleep` waits for: `wait` sleeps on the caller's own `struct proc`, everything else on an
address outside the table. -/
inductive Chan where
  | proc (i : Slot)
  | other (addr : Nat)
  deriving DecidableEq

/-- The fields of `struct proc` that the four calls read and write. -/
structure Proc where
  state : ProcState
  pid : Int
  parent : Option Slot
  chan : Option Chan
  killed : Bool

inductive ProcCall where
  | fork
  | exit
  | wait
  | kill (pid : Int)

/-- Where the kernel thread of a slot stands. -/
inductive ProcPc where
  /-- In user space, or in a call that does not touch the table. -/
  | user
  | forkAlloc
  | forkStack (np : Slot)
  | forkCopy (np : Slot)
  | forkPublish (np : Slot)
  | waitScan
  /-- In `sleep(curproc, &ptable.lock)` of `wait`. -/
  | waiting
  | killScan (pid : Int)
  /-- In `exit`, before `acquire(&ptable.lock)`. -/
  | exiting
  /-- In `sched` of `exit`. -/
  | exited
  deriving DecidableEq

/-- History: what the calls returned or did to a process. -/
inductive LifeEvent where
  | forked (p : Slot) (pid : Int)
  | exited (pid : Int)
  | waited (p : Slot) (pid : Int)
  | waitFailed (p : Slot)
  | killed (pid : Int)
  deriving DecidableEq

structure Ptable where
  proc : Slot → Proc
  nextpid : Int
  pc : Slot → ProcPc
  trace : List LifeEvent

inductive ProcPanic where
  | initExiting
  | zombieExit
  deriving DecidableEq

/-- The slot that `userinit` gets from `allocproc` in an empty table. -/
def initproc : Slot := 0

inductive ProcEvent where
  | call (p : Slot) (c : ProcCall)
  /-- A trap from user space that the kernel does not handle. -/
  | fault (p : Slot)
  | allocproc (p : Slot)
  | kstack (p : Slot) (ok : Bool)
  | copyuvm (p : Slot) (ok : Bool)
  | publish (p : Slot)
  | wait (p : Slot)
  | kill (p : Slot)
  | exit (p : Slot)
  | yield (p : Slot)
  | sleep (p : Slot) (addr : Nat)
  | wakeup (addr : Nat)
  | dispatch (p : Slot)

def Ptable.modify (s : Ptable) (i : Slot) (f : Proc → Proc) : Ptable :=
  { s with proc := Function.update s.proc i (f (s.proc i)) }

def Ptable.goto (s : Ptable) (p : Slot) (c : ProcPc) : Ptable :=
  { s with pc := Function.update s.pc p c }

def Ptable.record (s : Ptable) (e : LifeEvent) : Ptable := { s with trace := e :: s.trace }

def Proc.wake (c : Option Chan) (x : Proc) : Proc :=
  if x.state = .sleeping ∧ x.chan = c then { x with state := .runnable } else x

def Ptable.wakeup1 (s : Ptable) (c : Option Chan) : Ptable :=
  { s with proc := fun i => (s.proc i).wake c }

/-- First slot that the loop of `allocproc` finds. -/
def Ptable.findUnused (s : Ptable) : Option Slot :=
  (List.finRange NPROC).find? fun i => (s.proc i).state = .unused

/-- First slot that the loop of `kill` finds, in whatever state it is. -/
def Ptable.findPid (s : Ptable) (pid : Int) : Option Slot :=
  (List.finRange NPROC).find? fun i => (s.proc i).pid = pid

/-- The scan of `wait`: the first exited child, or else `havekids`. -/
def Ptable.scanChildren (s : Ptable) (p : Slot) : List Slot → Bool → Slot ⊕ Bool
  | [], havekids => .inr havekids
  | q :: l, havekids =>
    if (s.proc q).parent ≠ some p then s.scanChildren p l havekids
    else if (s.proc q).state = .zombie then .inl q
    else s.scanChildren p l true

/-- One round of the loop of `wait`, up to its `return` or its `sleep`. -/
def Ptable.wait (s : Ptable) (p : Slot) : Ptable :=
  match s.scanChildren p (List.finRange NPROC) false with
  | .inl q =>
    ((s.modify q fun x =>
      { x with pid := 0, parent := none, killed := false, state := .unused }).goto p .user).record
      (.waited p (s.proc q).pid)
  | .inr havekids =>
    if !havekids || (s.proc p).killed then (s.goto p .user).record (.waitFailed p)
    else (s.modify p fun x => { x with chan := some (.proc p), state := .sleeping }).goto p .waiting

/-- The loop of `exit` that passes the children of `cur` to init. -/
def passChildren (cur : Slot) : List Slot → Ptable → Ptable
  | [], s => s
  | q :: l, s =>
    if (s.proc q).parent = some cur then
      let s' := s.modify q fun x => { x with parent := some initproc }
      passChildren cur l
        (if (s.proc q).state = .zombie then s'.wakeup1 (some (.proc initproc)) else s')
    else passChildren cur l s

/-- The section of `exit` under `ptable.lock`. -/
def Ptable.exit (s : Ptable) (p : Slot) : Ptable :=
  let s' := passChildren p (List.finRange NPROC) (s.wakeup1 ((s.proc p).parent.map .proc))
  ((s'.modify p fun x => { x with state := .zombie }).goto p .exited).record
    (.exited (s.proc p).pid)

def Ptable.enterExit (s : Ptable) (p : Slot) : Outcome ProcPanic Ptable :=
  if p = initproc then .panic .initExiting else .next (s.goto p .exiting)

/-- The first step of a call.  `trap` makes a killed process exit instead of serving it. -/
def Ptable.call (s : Ptable) (p : Slot) (c : ProcCall) : Outcome ProcPanic Ptable :=
  if (s.proc p).killed then s.enterExit p
  else match c with
    | .fork => .next (s.goto p .forkAlloc)
    | .exit => s.enterExit p
    | .wait => .next (s.goto p .waitScan)
    | .kill pid => .next (s.goto p (.killScan pid))

/-- The section of `allocproc`. -/
def Ptable.allocproc (s : Ptable) (p : Slot) : Ptable :=
  match s.findUnused with
  | none => s.goto p .user
  | some np =>
    { (s.modify np fun x => { x with state := .embryo, pid := s.nextpid }).goto p (.forkStack np)
      with nextpid := wrapInt (s.nextpid + 1) }

/-- The section of `kill`. -/
def Ptable.kill (s : Ptable) (p : Slot) (pid : Int) : Ptable :=
  match s.findPid pid with
  | none => s.goto p .user
  | some i =>
    ((s.modify i fun x =>
      { x with killed := true, state := if x.state = .sleeping then .runnable else x.state }).goto
      p .user).record (.killed pid)

/-- `scheduler` picks `p`, which holds the lock until its own section ends.  A process that comes
back from `sleep` clears its `chan`, which is null already after `yield`. -/
def Ptable.dispatch (s : Ptable) (p : Slot) : Outcome ProcPanic Ptable :=
  let s' := s.modify p fun x => { x with state := .running, chan := none }
  match s.pc p with
  | .exited => .panic .zombieExit
  | .waiting => .next (s'.wait p)
  | _ => .next s'

def Ptable.step (s : Ptable) : ProcEvent → Outcome ProcPanic Ptable
  | .wakeup addr => .next (s.wakeup1 (some (.other addr)))
  | .dispatch p => if (s.proc p).state = .runnable then s.dispatch p else .blocked
  | .yield p =>
    if (s.proc p).state = .running then
      .next (s.modify p fun x => { x with state := .runnable })
    else .blocked
  | .sleep p addr =>
    if (s.proc p).state = .running ∧ (s.pc p = .user ∨ s.pc p = .exiting) then
      .next (s.modify p fun x => { x with chan := some (.other addr), state := .sleeping })
    else .blocked
  | .call p c =>
    if (s.proc p).state = .running ∧ s.pc p = .user then s.call p c else .blocked
  | .fault p =>
    if (s.proc p).state = .running ∧ s.pc p = .user then
      (s.modify p fun x => { x with killed := true }).enterExit p
    else .blocked
  | .allocproc p =>
    if (s.proc p).state = .running ∧ s.pc p = .forkAlloc then .next (s.allocproc p) else .blocked
  | .kstack p ok =>
    match (s.proc p).state, s.pc p with
    | .running, .forkStack np =>
      if ok then .next (s.goto p (.forkCopy np))
      else .next ((s.modify np fun x => { x with state := .unused }).goto p .user)
    | _, _ => .blocked
  | .copyuvm p ok =>
    match (s.proc p).state, s.pc p with
    | .running, .forkCopy np =>
      if ok then
        .next ((s.modify np fun x => { x with parent := some p }).goto p (.forkPublish np))
      else .next ((s.modify np fun x => { x with state := .unused }).goto p .user)
    | _, _ => .blocked
  | .publish p =>
    match (s.proc p).state, s.pc p with
    | .running, .forkPublish np =>
      .next ((((s.modify np fun x => { x with state := .runnable }).goto np .user).goto p
        .user).record (.forked p (s.proc np).pid))
    | _, _ => .blocked
  | .wait p =>
    if (s.proc p).state = .running ∧ s.pc p = .waitScan then .next (s.wait p) else .blocked
  | .kill p =>
    match (s.proc p).state, s.pc p with
    | .running, .killScan pid => .next (s.kill p pid)
    | _, _ => .blocked
  | .exit p =>
    if (s.proc p).state = .running ∧ s.pc p = .exiting then .next (s.exit p) else .blocked

/-- `allocproc` increments a counter that has not reached the largest `int`. -/
def Ptable.unwrapped (s : Ptable) : ProcEvent → Prop
  | .allocproc _ => s.nextpid < INT_MAX
  | _ => True

instance (s : Ptable) : (e : ProcEvent) → Decidable (s.unwrapped e)
  | .allocproc _ => inferInstanceAs (Decidable (_ < _))
  | .call _ _ | .fault _ | .kstack _ _ | .copyuvm _ _ | .publish _ | .wait _ | .kill _ | .exit _
  | .yield _ | .sleep _ _ | .wakeup _ | .dispatch _ => .isTrue trivial

/-- The table after `userinit`. -/
def Ptable.init : Ptable where
  proc i :=
    if i = initproc then { state := .runnable, pid := 1, parent := none, chan := none, killed := false }
    else { state := .unused, pid := 0, parent := none, chan := none, killed := false }
  nextpid := 2
  pc _ := .user
  trace := []

end Xv6
