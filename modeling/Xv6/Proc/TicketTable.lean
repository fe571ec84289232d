import Mathlib.Tactic.Simps.Basic
import Xv6.Proc.Table

/-!
# Tickets and `getpinfo`

The `tickets` and `ticks` fields over the process table: `fork` hands the tickets of the parent to
the child, `settickets` changes those of the caller, and `getpinfo` copies the table out under
`ptable.lock`, one assignment at a time.  Writes that take no lock may come between two of its
assignments.
-/

namespace Xv6

/-- How far the `fork` that fills a slot has come once it has set the parent. -/
inductive ForkStage where
  | begun
  /-- `gettickets` has returned. -/
  | read (parentTickets : Int)
  /-- `np->ticks = 0` is done. -/
  | reset (parentTickets : Int)
  /-- `np->tickets` is written. -/
  | filled
  deriving DecidableEq

/-- History: successful `settickets` calls, and the tickets that a parent held when `fork` read
them for the child `pid`. -/
inductive TicketEvent where
  | set (pid n : Int)
  | inherited (pid t : Int)
  deriving DecidableEq

structure Pstat where
  inuse : Bool
  tickets : Int
  pid : Int
  ticks : Int
  state : Char

/-- The assignments of `fillpstat` for one slot, in program order. -/
inductive PstatField where
  | inuse
  | tickets
  | ticks
  | pid
  | state
  deriving DecidableEq

/-- A `fillpstat` in progress, which holds `ptable.lock`. -/
structure Scan where
  reader : Slot
  slot : Slot
  field : PstatField
  table : Slot → Pstat
  /-- The history when the lock was taken. -/
  since : List TicketEvent

structure Report where
  table : Slot → Pstat
  since : List TicketEvent

structure TicketTable where
  base : Ptable
  tickets : Slot → Int
  ticks : Slot → Int
  stage : Slot → ForkStage
  scan : Option Scan
  history : List TicketEvent
  reports : List Report

inductive TicketStep where
  | proc (e : ProcEvent)
  | gettickets (p : Slot)
  | resetTicks (p : Slot)
  | fillTickets (p : Slot)
  | settickets (p : Slot) (n : Int)
  | getpinfo (p : Slot)
  | fill

/-- The process that takes an unlocked step; the other steps hold `ptable.lock`. -/
def ProcEvent.unlocked : ProcEvent → Option Slot
  | .call p _ | .fault p | .kstack p _ | .copyuvm p _ => some p
  | _ => none

namespace TicketTable

variable (s : TicketTable)

/-- `ptable.lock` is free. -/
def lockFree : Bool := s.scan.isNone

/-- Process `p` is not inside `fillpstat`. -/
def outside (p : Slot) : Bool := s.scan.all fun c => c.reader != p

def allows (e : ProcEvent) : Bool :=
  match e.unlocked with
  | some p => s.outside p
  | none => s.lockFree

def gettickets (pid : Int) : Int :=
  match (List.finRange NPROC).find? fun i =>
      (s.base.proc i).pid = pid ∧ (s.base.proc i).state ≠ .unused with
  | some i => s.tickets i
  | none => -1

@[simps]
def setBase (b : Ptable) : TicketTable := { s with base := b }

@[simps]
def setStage (np : Slot) (g : ForkStage) : TicketTable :=
  { s with stage := Function.update s.stage np g }

@[simps]
def setTickets (i : Slot) (n : Int) : TicketTable :=
  { s with tickets := Function.update s.tickets i n }

@[simps]
def setTicks (i : Slot) (n : Int) : TicketTable :=
  { s with ticks := Function.update s.ticks i n }

@[simps]
def note (ev : TicketEvent) : TicketTable := { s with history := ev :: s.history }

/-- `sys_settickets`, with its return value.  A `kill` may come between the check in `trap` and the
call, so that a killed process can get here. -/
def settickets (p : Slot) (n : Int) : Int × TicketTable :=
  if n < 10 then (-1, s)
  else (0, (s.setTickets p n).note (.set (s.base.proc p).pid n))

/-- The letter that `fillpstat` reports for a state. -/
def stateLetter : ProcState → Char
  | .embryo => 'E'
  | .running => 'R'
  | .runnable => 'A'
  | .sleeping => 'S'
  | .zombie => 'Z'
  | .unused => '?'

/-- The next assignment of `fillpstat`. -/
def fillField (c : Scan) (x : Pstat) : Pstat :=
  match c.field with
  | .inuse => { x with inuse := (s.base.proc c.slot).state ≠ .unused }
  | .tickets => { x with tickets := s.tickets c.slot }
  | .ticks => { x with ticks := s.ticks c.slot }
  | .pid => { x with pid := (s.base.proc c.slot).pid }
  | .state => { x with state := stateLetter (s.base.proc c.slot).state }

def fillTable (c : Scan) : Slot → Pstat :=
  Function.update c.table c.slot (s.fillField c (c.table c.slot))

end TicketTable

def PstatField.next : PstatField → Option PstatField
  | .inuse => some .tickets
  | .tickets => some .ticks
  | .ticks => some .pid
  | .pid => some .state
  | .state => none

namespace TicketTable

variable (s : TicketTable)

/-- `fillpstat` before its loop; the user's buffer holds anything. -/
def startScan (p : Slot) : Scan where
  reader := p
  slot := 0
  field := .inuse
  table _ := { inuse := false, tickets := 0, pid := 0, ticks := 0, state := '?' }
  since := s.history

/-- One assignment of `fillpstat`; the last one is followed by `release`. -/
def fill (c : Scan) : TicketTable :=
  match c.field.next with
  | some f => { s with scan := some { c with field := f, table := s.fillTable c } }
  | none =>
    if h : c.slot.val + 1 < NPROC then
      { s with scan := some { c with
          slot := ⟨c.slot.val + 1, h⟩
          field := .inuse
          table := s.fillTable c } }
    else { s with scan := none, reports := ⟨s.fillTable c, c.since⟩ :: s.reports }

/-- A step of the four calls.  `fork` publishes a slot that it has filled. -/
def proc (e : ProcEvent) : Outcome ProcPanic TicketTable :=
  match s.base.step e with
  | .blocked => .blocked
  | .panic x => .panic x
  | .next b =>
    match e with
    | .publish p =>
      match s.base.pc p with
      | .forkPublish np =>
        if s.stage np = .filled then .next ((s.setBase b).setStage np .begun) else .blocked
      | _ => .blocked
    | _ => .next (s.setBase b)

/-- A step of `fork` between setting the parent and publishing the child `np`. -/
def forkStep (p : Slot) (f : Slot → ForkStage → Option TicketTable) : Outcome ProcPanic TicketTable :=
  match (s.base.proc p).state, s.base.pc p with
  | .running, .forkPublish np =>
    match f np (s.stage np) with
    | some s' => .next s'
    | none => .blocked
  | _, _ => .blocked

/-- `parent_tickets = gettickets(curproc->pid)`. -/
def readTickets (p np : Slot) : ForkStage → Option TicketTable
  | .begun =>
    some ((s.setStage np (.read (s.gettickets (s.base.proc p).pid))).note
      (.inherited (s.base.proc np).pid (s.tickets p)))
  | _ => none

/-- `np->ticks = 0`. -/
def resetTicks (np : Slot) : ForkStage → Option TicketTable
  | .read t => some ((s.setTicks np 0).setStage np (.reset t))
  | _ => none

/-- `np->tickets = parent_tickets`, but at least 10. -/
def fillTickets (np : Slot) : ForkStage → Option TicketTable
  | .reset t => some ((s.setTickets np (if t > 10 then t else 10)).setStage np .filled)
  | _ => none

def step : TicketStep → Outcome ProcPanic TicketTable
  | .proc e => if s.allows e then s.proc e else .blocked
  | .gettickets p => if s.lockFree then s.forkStep p (s.readTickets p) else .blocked
  | .resetTicks p => s.forkStep p s.resetTicks
  | .fillTickets p => s.forkStep p s.fillTickets
  | .settickets p n =>
    if (s.base.proc p).state = .running ∧ s.base.pc p = .user ∧ s.outside p then
      .next (s.settickets p n).2
    else .blocked
  | .getpinfo p =>
    if (s.base.proc p).state = .running ∧ s.base.pc p = .user ∧ s.lockFree then
      .next { s with scan := some (s.startScan p) }
    else .blocked
  | .fill =>
    match s.scan with
    | some c => .next (s.fill c)
    | none => .blocked

/-- `allocproc` increments a counter that has not reached the largest `int`. -/
def unwrapped : TicketStep → Prop
  | .proc e => s.base.unwrapped e
  | _ => True

instance : (e : TicketStep) → Decidable (s.unwrapped e)
  | .proc e => inferInstanceAs (Decidable (s.base.unwrapped e))
  | .gettickets _ | .resetTicks _ | .fillTickets _ | .settickets _ _ | .getpinfo _ | .fill =>
    .isTrue trivial

/-- After `userinit`; the fields of slots that were never used are zero. -/
def init : TicketTable where
  base := Ptable.init
  tickets i := if i = initproc then 10 else 0
  ticks _ := 0
  stage _ := .begun
  scan := none
  history := []
  reports := []

end TicketTable

end Xv6
