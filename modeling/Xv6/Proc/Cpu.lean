import Xv6.Lib.Tenancy
import Xv6.Proc.Lifecycle

/-!
# Processes and CPUs

Any number of CPUs run `scheduler` and the processes it chooses.  `ptable.lock` is taken by one
context and released by another across `swtch`: a scheduler holds it while it looks for a process and
until that process releases it, and a process that gives up its CPU holds it until the scheduler does.
Between two switches a section under the lock is one step.  `fork` also writes to the slot of the child
without the lock, and a CPU without a process may run `wakeup` in an interrupt.
-/

namespace Xv6

/-- Where a CPU stands; what is left of the scheduler's loop is kept in its context. -/
inductive CpuPc where
  /-- `scheduler`, before `acquire(&ptable.lock)` -/
  | idle
  /-- At the head of the loop over the table -/
  | scan (rest : List Slot)
  /-- In the process after `swtch`, still with the lock -/
  | enter (rest : List Slot)
  /-- In the process -/
  | run (rest : List Slot)
  /-- In `scheduler` after `swtch`, before `c->proc = 0` -/
  | back (rest : List Slot)

structure Cpu where
  proc : Option Slot
  pc : CpuPc

structure Machine (C : Type) where
  table : Ptable
  /-- The CPU that holds `ptable.lock` -/
  lock : Option C
  cpu : C → Cpu

/-- What a process does next. -/
inductive ProcAct where
  | call (c : ProcCall)
  | fault
  | allocproc
  | kstack (ok : Bool)
  | copyuvm (ok : Bool)
  | publish
  | wait
  | kill
  | exit
  | yield
  | sleep (addr : Nat)

namespace ProcAct

/-- The step of the table.  It asks that the process is `RUNNING`, which the process of a CPU is. -/
def event (p : Slot) : ProcAct → ProcEvent
  | .call c => .call p c
  | .fault => .fault p
  | .allocproc => .allocproc p
  | .kstack ok => .kstack p ok
  | .copyuvm ok => .copyuvm p ok
  | .publish => .publish p
  | .wait => .wait p
  | .kill => .kill p
  | .exit => .exit p
  | .yield => .yield p
  | .sleep addr => .sleep p addr

/-- A section under `ptable.lock` -/
def locked : ProcAct → Bool
  | .call _ | .fault | .kstack _ | .copyuvm _ => false
  | .allocproc | .publish | .wait | .kill | .exit | .yield | .sleep _ => true

/-- The section has led to `table` and ends in `sched`. -/
def leaves (table : Ptable) (p : Slot) : ProcAct → Bool
  | .exit | .yield | .sleep _ => true
  | .wait => table.pc p = .waiting
  | .call _ | .fault | .allocproc | .kstack _ | .copyuvm _ | .publish | .kill => false

end ProcAct

namespace Machine

inductive Event (C : Type) where
  /-- `scheduler` takes the lock. -/
  | acquire (c : C)
  /-- `scheduler` looks at the next slot, or releases the lock behind the last one. -/
  | scan (c : C)
  /-- The process that was chosen goes on. -/
  | resume (c : C)
  /-- `scheduler` goes on after the process has given up the CPU. -/
  | back (c : C)
  | act (c : C) (a : ProcAct)
  | wakeup (addr : Nat)

variable {C : Type} [DecidableEq C] (s : Machine C)

def setCpu (c : C) (x : Cpu) : Machine C := { s with cpu := Function.update s.cpu c x }

/-- `sched`: with the lock, the CPU goes back to its scheduler. -/
def sched (c : C) (p : Slot) (rest : List Slot) (table : Ptable) : Machine C :=
  { s.setCpu c ⟨some p, .back rest⟩ with table := table, lock := some c }

/-- A section of the process ends with `release(&ptable.lock)`. -/
def release (c : C) (p : Slot) (rest : List Slot) (table : Ptable) : Machine C :=
  { s.setCpu c ⟨some p, .run rest⟩ with table := table, lock := none }

/-- A round of `wait`, which ends in `sleep` or with the release of the lock -/
def wait (c : C) (p : Slot) (rest : List Slot) (table : Ptable) : Machine C :=
  let table := table.wait p
  if table.pc p = .waiting then s.sched c p rest table else s.release c p rest table

/-- What follows `swtch` in a process: the rest of `exit`, of `sleep` in `wait`, of another `sleep`, of
`yield`, or `forkret`.  After `yield` and in `forkret` `chan` is null already. -/
def resume (c : C) (p : Slot) (rest : List Slot) : Outcome ProcPanic (Machine C) :=
  let table := s.table.modify p fun x => { x with chan := none }
  match table.pc p with
  | .exited => .panic .zombieExit
  | .waiting => .next (s.wait c p rest table)
  | _ => .next (s.release c p rest table)

def ofAct (c : C) (p : Slot) (rest : List Slot) (a : ProcAct) : Outcome ProcPanic (Machine C) :=
  if a.locked ∧ s.lock ≠ none then .blocked
  else
    match s.table.step (a.event p) with
    | .next table =>
      .next (if a.leaves table p then s.sched c p rest table else { s with table := table })
    | .panic e => .panic e
    | .blocked => .blocked

def step : Event C → Outcome ProcPanic (Machine C)
  | .acquire c =>
    match (s.cpu c).pc with
    | .idle =>
      if s.lock = none then
        .next { s.setCpu c ⟨(s.cpu c).proc, .scan (List.finRange NPROC)⟩ with lock := some c }
      else .blocked
    | _ => .blocked
  | .scan c =>
    match (s.cpu c).pc with
    | .scan [] => .next { s.setCpu c ⟨(s.cpu c).proc, .idle⟩ with lock := none }
    | .scan (i :: rest) =>
      if (s.table.proc i).state ≠ .runnable then
        .next (s.setCpu c ⟨(s.cpu c).proc, .scan rest⟩)
      else
        .next { s.setCpu c ⟨some i, .enter rest⟩ with
          table := s.table.modify i fun x => { x with state := .running } }
    | _ => .blocked
  | .resume c =>
    match s.cpu c with
    | ⟨some p, .enter rest⟩ => s.resume c p rest
    | _ => .blocked
  | .back c =>
    match (s.cpu c).pc with
    | .back rest => .next (s.setCpu c ⟨none, .scan rest⟩)
    | _ => .blocked
  | .act c a =>
    match s.cpu c with
    | ⟨some p, .run rest⟩ => s.ofAct c p rest a
    | _ => .blocked
  | .wakeup addr =>
    if s.lock = none then .next { s with table := s.table.wakeup1 (some (.other addr)) }
    else .blocked

/-- After `userinit`, with every CPU at the start of `scheduler` -/
def init : Machine C where
  table := .init
  lock := none
  cpu _ := ⟨none, .idle⟩

end Machine

end Xv6
