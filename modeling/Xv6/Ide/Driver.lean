import Xv6.Lib.Queue
import Xv6.Lib.Run
import Xv6.Log.Recovery

/-!
# The two disk drivers

`ide.c` queues requests and works them off as the drive raises interrupts; `memide.c` copies blocks to
and from memory.  Both are run by any number of processes that lock buffers, change them and call
`iderw`.  A section of `ide.c` under `idelock` is one step, and so is the completion of a command by
the drive.  The drive raises one interrupt for each command, and may raise others only while the queue
is empty.
-/

namespace Xv6

namespace Ide

abbrev Buf := Fin NBUF

/-- `struct buf`, as far as the drivers go -/
structure Entry (P : Type) where
  dev : Nat
  blockno : Nat
  /-- `B_VALID` -/
  valid : Bool
  /-- `B_DIRTY` -/
  dirty : Bool
  lock : Option P
  data : Block

/-- `(b->flags & (B_VALID|B_DIRTY)) == B_VALID` -/
def Entry.done {P : Type} (x : Entry P) : Bool := x.valid && !x.dirty

/-- The bytes that `idestart` writes to the ports `0x1f2` to `0x1f6` -/
structure Registers where
  count : Nat
  sector0 : Nat
  sector1 : Nat
  sector2 : Nat
  select : Nat

structure Command where
  registers : Registers
  /-- What a write command sends along -/
  data : Option Block

inductive Phase where
  | idle
  /-- A command has been started. -/
  | busy (c : Command)
  /-- The command is complete and the interrupt raised, with the data that a read has left. -/
  | ready (data : Option Block)

/-- Two disks behind one controller -/
structure Drive where
  disk : Nat → Nat → Block
  phase : Phase

/-- The sector that the drive makes out of its registers -/
def Registers.sector (r : Registers) : Nat :=
  r.sector0 + r.sector1 * 2 ^ 8 + r.sector2 * 2 ^ 16 + r.select % 16 * 2 ^ 24

def Registers.disk (r : Registers) : Nat := r.select / 16 % 2

/-- The drive completes its command. -/
def Drive.complete (d : Drive) : Option Drive :=
  match d.phase with
  | .busy ⟨r, some data⟩ =>
    some ⟨Function.update d.disk r.disk (Function.update (d.disk r.disk) r.sector data), .ready none⟩
  | .busy ⟨r, none⟩ => some { d with phase := .ready (some (d.disk r.disk r.sector)) }
  | _ => none

/-- Where a process stands in `iderw`. -/
inductive Pc where
  | idle
  | sleeping (b : Buf)
  /-- Woken up, before it looks at the flags again -/
  | woken (b : Buf)
  deriving DecidableEq

def Pc.buf : Pc → Option Buf
  | .idle => none
  | .sleeping b | .woken b => some b

inductive Panic where
  | notLocked
  | nothing
  | noDisk1
  | blockno
  | notDisk1
  | range
  /-- Not a panic: `iderw` does not find the end of the queue, or `idewait` waits forever. -/
  | hang
  deriving DecidableEq

end Ide

structure Ide (P : Type) where
  buf : Ide.Buf → Ide.Entry P
  /-- `idequeue` and the `qnext` of the buffers -/
  queue : Queue Ide.Buf
  havedisk1 : Bool
  drive : Ide.Drive
  pc : P → Ide.Pc
  /-- History: calls of `iderw`, and the requests that `ideintr` has finished -/
  requested : List (P × Ide.Buf)
  completed : List (P × Ide.Buf)

namespace Ide

inductive Event (P : Type) where
  | lock (p : P) (b : Buf)
  | unlock (p : P) (b : Buf)
  /-- A buffer that is not locked, or one by the process that has locked it, is changed. -/
  | change (b : Buf) (dev blockno : Nat) (valid dirty : Bool) (data : Block)
  | iderw (p : P) (b : Buf)
  /-- A process in `iderw` is woken up by `kill`. -/
  | wake (p : P)
  /-- A process that was woken up looks at the flags. -/
  | run (p : P)
  | complete
  | ideintr

section

variable {P : Type} [DecidableEq P]

def Entry.lock? (x : Entry P) (p : P) : Option (Entry P) :=
  if x.lock = none then some { x with lock := some p } else none

def Entry.unlock? (x : Entry P) (p : P) : Option (Entry P) :=
  if x.lock = some p then some { x with lock := none } else none

/-- The fields are changed, unless the holder of the lock is `busy` in `iderw`. -/
def Entry.change? (x : Entry P) (busy : P → Bool) (dev blockno : Nat) (valid dirty : Bool)
    (data : Block) : Option (Entry P) :=
  if x.lock.any busy then none
  else some { x with dev := dev, blockno := blockno, valid := valid, dirty := dirty, data := data }

variable (s : Ide P)

def modify (b : Buf) (x : Entry P) : Ide P := { s with buf := Function.update s.buf b x }

/-- `modify` with what other code may make of the buffer -/
def edit (b : Buf) : Option (Entry P) → Outcome Panic (Ide P)
  | some x => .next (s.modify b x)
  | none => .blocked

def registers (x : Entry P) : Registers where
  count := 1
  sector0 := x.blockno % 2 ^ 8
  sector1 := x.blockno / 2 ^ 8 % 2 ^ 8
  sector2 := x.blockno / 2 ^ 16 % 2 ^ 8
  select := 0xe0 ||| (x.dev % 2) * 2 ^ 4 ||| x.blockno / 2 ^ 24 % 16

/-- The command for a buffer; a block is one sector. -/
def command (x : Entry P) : Command := ⟨registers x, if x.dirty then some x.data else none⟩

/-- `idestart(b)`, which waits while the drive is busy -/
def idestart (b : Buf) : Outcome Panic (Ide P) :=
  let x := s.buf b
  if x.blockno ≥ FSSIZE then .panic .blockno
  else
    match s.drive.phase with
    | .busy _ => .panic .hang
    | .idle | .ready _ =>
      .next { s with drive.phase := .busy (command x) }

/-- `iderw(b)` up to its first `sleep` -/
def iderw (p : P) (b : Buf) : Outcome Panic (Ide P) :=
  let x := s.buf b
  if x.lock ≠ some p then .panic .notLocked
  else if x.done then .panic .nothing
  else if x.dev ≠ 0 && !s.havedisk1 then .panic .noDisk1
  else
    match s.queue.push NBUF b with
    | none => .panic .hang
    | some queue =>
      let s := { s with
        queue := queue
        pc := Function.update s.pc p (.sleeping b)
        requested := s.requested ++ [(p, b)] }
      if queue.head = some b then s.idestart b else .next s

/-- `wakeup(b)` -/
def wakeup (b : Buf) : Ide P :=
  { s with pc := fun p => if s.pc p = .sleeping b then .woken b else s.pc p }

/-- The buffer as `ideintr` leaves it, with the data that the drive has left -/
def finish (b : Buf) (data : Option Block) : Entry P :=
  let x := s.buf b
  { (if x.dirty then x else { x with data := data.getD x.data }) with valid := true, dirty := false }

/-- `ideintr` up to the start of the next request -/
def retire (b : Buf) (data : Option Block) : Ide P :=
  { (s.modify b (s.finish b data)).wakeup b with
    queue := s.queue.pop b
    drive.phase := .idle
    completed := s.completed ++ ((s.buf b).lock.map fun p => (p, b)).toList }

def ideintr : Outcome Panic (Ide P) :=
  match s.queue.head with
  | none => .next s
  | some b =>
    match s.drive.phase with
    | .ready data =>
      let s := s.retire b data
      match s.queue.head with
      | none => .next s
      | some b' => s.idestart b'
    | .idle | .busy _ => .blocked

def step : Event P → Outcome Panic (Ide P)
  | .lock p b => if s.pc p = .idle then s.edit b ((s.buf b).lock? p) else .blocked
  | .unlock p b => if s.pc p = .idle then s.edit b ((s.buf b).unlock? p) else .blocked
  | .change b dev blockno valid dirty data =>
    s.edit b ((s.buf b).change? (fun p => s.pc p ≠ .idle) dev blockno valid dirty data)
  | .iderw p b => if s.pc p = .idle then s.iderw p b else .blocked
  | .wake p =>
    match s.pc p with
    | .sleeping b => .next { s with pc := Function.update s.pc p (.woken b) }
    | _ => .blocked
  | .run p =>
    match s.pc p with
    | .woken b =>
      .next { s with
        pc := Function.update s.pc p (if (s.buf b).done then .idle else .sleeping b) }
    | _ => .blocked
  | .complete =>
    match s.drive.complete with
    | some drive => .next { s with drive := drive }
    | none => .blocked
  | .ideintr => s.ideintr

/-- `ideinit`, with both disks present -/
def init (buf : Buf → Entry P) (disk : Nat → Nat → Block) : Ide P where
  buf b := { buf b with lock := none }
  queue := ⟨none, fun _ => none⟩
  havedisk1 := true
  drive := ⟨disk, .idle⟩
  pc _ := .idle
  requested := []
  completed := []

end

end Ide

/-- Where a process stands that has called `iderw`. -/
inductive Memide.Pc where
  | idle
  | called (b : Ide.Buf)
  | finished (b : Ide.Buf)
  deriving DecidableEq

structure Memide (P : Type) where
  buf : Ide.Buf → Ide.Entry P
  memdisk : Nat → Block
  pc : P → Memide.Pc

namespace Memide

open Ide

inductive Event (P : Type) where
  | lock (p : P) (b : Buf)
  | unlock (p : P) (b : Buf)
  | change (b : Buf) (dev blockno : Nat) (valid dirty : Bool) (data : Block)
  | call (p : P) (b : Buf)
  /-- `iderw` as a whole -/
  | iderw (p : P)
  | ret (p : P)

variable {P : Type} [DecidableEq P] (m : Memide P)

def modify (b : Buf) (x : Entry P) : Memide P := { m with buf := Function.update m.buf b x }

def edit (b : Buf) : Option (Entry P) → Outcome Panic (Memide P)
  | some x => .next (m.modify b x)
  | none => .blocked

/-- `iderw(b)`; the image has the blocks that `mkfs` writes. -/
def iderw (p : P) (b : Buf) : Outcome Panic (Memide P) :=
  let x := m.buf b
  if x.lock ≠ some p then .panic .notLocked
  else if x.done then .panic .nothing
  else if x.dev ≠ 1 then .panic .notDisk1
  else if x.blockno ≥ FSSIZE then .panic .range
  else if x.dirty then
    .next { m.modify b { x with dirty := false, valid := true } with
      memdisk := Function.update m.memdisk x.blockno x.data }
  else .next (m.modify b { x with data := m.memdisk x.blockno, valid := true })

def step : Event P → Outcome Panic (Memide P)
  | .lock p b => if m.pc p = .idle then m.edit b ((m.buf b).lock? p) else .blocked
  | .unlock p b => if m.pc p = .idle then m.edit b ((m.buf b).unlock? p) else .blocked
  | .change b dev blockno valid dirty data =>
    m.edit b ((m.buf b).change? (fun p => m.pc p ≠ .idle) dev blockno valid dirty data)
  | .call p b =>
    if m.pc p = .idle then .next { m with pc := Function.update m.pc p (.called b) } else .blocked
  | .iderw p =>
    match m.pc p with
    | .called b =>
      match m.iderw p b with
      | .next m' => .next { m' with pc := Function.update m.pc p (.finished b) }
      | .panic e => .panic e
      | .blocked => .blocked
    | _ => .blocked
  | .ret p =>
    match m.pc p with
    | .finished _ => .next { m with pc := Function.update m.pc p .idle }
    | _ => .blocked

def init (buf : Buf → Entry P) (memdisk : Nat → Block) : Memide P where
  buf b := { buf b with lock := none }
  memdisk := memdisk
  pc _ := .idle

end Memide

end Xv6
