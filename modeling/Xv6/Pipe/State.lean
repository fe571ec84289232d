import Mathlib.Tactic.Ring
import Xv6.Proc.Sleep

/-!
# One pipe

`pipewrite`, `piperead` and `pipeclose` of `pipe.c`, run by the processes that hold descriptors of
the two ends.
-/

namespace Xv6.Pipe

open Sleep (Act)

abbrev PIPESIZE : Nat := 512

structure Buf where
  data : Nat → UInt8
  nread : Nat
  nwrite : Nat
  readopen : Bool
  writeopen : Bool

/-- `p->nread == p->nwrite` -/
def Buf.empty (b : Buf) : Bool := b.nread = b.nwrite

/-- `p->nwrite == p->nread + PIPESIZE`, in unsigned 32-bit arithmetic -/
def Buf.full (b : Buf) : Bool := b.nwrite = (b.nread + PIPESIZE) % 2 ^ 32

/-- `p->data[p->nwrite++ % PIPESIZE] = x` -/
def Buf.store (b : Buf) (x : UInt8) : Buf :=
  { b with
    data := Function.update b.data (b.nwrite % PIPESIZE) x
    nwrite := (b.nwrite + 1) % 2 ^ 32 }

/-- `p->data[p->nread % PIPESIZE]` -/
def Buf.head (b : Buf) : UInt8 := b.data (b.nread % PIPESIZE)

/-- `p->nread++` -/
def Buf.advance (b : Buf) : Buf := { b with nread := (b.nread + 1) % 2 ^ 32 }

/-- A byte that `pipewrite` stored: who stored it, in which of its calls. -/
structure Stored (P : Type) where
  proc : P
  call : Nat
  byte : UInt8

structure Data (P : Type) where
  buf : Buf
  /-- `ref` of the `struct file` of the read end (`false`) and of the write end (`true`) -/
  ref : Bool → Nat
  /-- Number of open descriptors of either end -/
  fds : P → Bool → Nat
  /-- History: every byte stored, and every byte delivered. -/
  log : List (Stored P)
  out : List UInt8
  /-- History: the bytes given to each call of `pipewrite` of each process. -/
  calls : P → List (List UInt8)

inductive Point (P : Type) where
  /-- Outside the three functions -/
  | user
  /-- `write`: the test of `killed` in `trap`, and the look at the descriptor -/
  | writeTrap (bytes : List UInt8)
  | writeCall (bytes : List UInt8)
  | writeAcquire (bytes : List UInt8)
  /-- At the head of the loops, for byte `i`.  `stored` says whether the process has stored a byte
  since it took the lock. -/
  | writeLoop (bytes : List UInt8) (i : Nat) (stored : Bool)
  /-- The buffer is full: `if(p->readopen == 0 || myproc()->killed)` -/
  | writeFull (bytes : List UInt8) (i : Nat) (stored : Bool)
  | writeKilled (bytes : List UInt8) (i : Nat) (stored : Bool)
  | writeWakeup (bytes : List UInt8) (i : Nat)
  | writeSleep (bytes : List UInt8) (i : Nat)
  /-- The `wakeup` after the loop -/
  | writeDone (bytes : List UInt8)
  | writeReturn (r : Int)
  /-- `read`, as above -/
  | readTrap (n : Int)
  | readCall (n : Int)
  | readAcquire (n : Int)
  | readLoop (n : Int)
  /-- The buffer is empty: `if(myproc()->killed)` -/
  | readKilled (n : Int)
  | readSleep (n : Int)
  | readCopy (n : Int) (i : Nat)
  | readWakeup (n : Int) (i : Nat)
  | readReturn (n r : Int)
  /-- `fileclose` -/
  | closeCall (writable : Bool)
  | closeAcquire (writable : Bool)
  | closeMark (writable : Bool)
  | closeWakeup (writable : Bool)
  | closeRelease
  /-- `dup`, or `fork` with `q` as the child -/
  | shareCall (q : P) (writable : Bool)
  deriving DecidableEq

variable {P : Type} [DecidableEq P]

/-- Where a call begins -/
def Point.isCall : Point P → Bool
  | .writeTrap _ | .readTrap _ | .closeCall _ | .shareCall _ _ => true
  | _ => false

/-- Store a byte, and note it in the history. -/
def Data.store (d : Data P) (p : P) (x : UInt8) : Data P :=
  { d with
    buf := d.buf.store x
    log := d.log ++ [⟨p, (d.calls p).length - 1, x⟩] }

/-- Deliver the oldest byte. -/
def Data.take (d : Data P) : Data P :=
  { d with
    buf := d.buf.advance
    out := d.out ++ [d.buf.head] }

def Data.setFds (d : Data P) (p : P) (writable : Bool) (n ref : Nat) : Data P :=
  { d with
    fds := Function.update d.fds p (Function.update (d.fds p) writable n)
    ref := Function.update d.ref writable ref }

/-- One round of the loops of `pipewrite` -/
def writeLoop (p : P) (bytes : List UInt8) (i : Nat) (stored : Bool) (d : Data P) :
    Data P × Point P :=
  match bytes[i]? with
  | none => (d, .writeDone bytes)
  | some x =>
    if d.buf.full then (d, .writeFull bytes i stored)
    else (d.store p x, .writeLoop bytes (i + 1) true)

/-- One round of the copying loop of `piperead` -/
def readCopy (n : Int) (i : Nat) (d : Data P) : Data P × Point P :=
  if i < n then
    if d.buf.empty then (d, .readWakeup n i) else (d.take, .readCopy n (i + 1))
  else (d, .readWakeup n i)

/-- The last reference to the end closes it. -/
def fileclose (p : P) (writable : Bool) (d : Data P) : Data P × Point P :=
  if 0 < d.fds p writable then
    (d.setFds p writable (d.fds p writable - 1) (d.ref writable - 1),
      if d.ref writable = 1 then .closeAcquire writable else .user)
  else (d, .user)

/-- A descriptor more, for `q` -/
def share (p q : P) (writable : Bool) (d : Data P) : Data P × Point P :=
  if 0 < d.fds p writable then
    (d.setFds q writable (d.fds q writable + 1) (d.ref writable + 1), .user)
  else (d, .user)

def Buf.close (b : Buf) (writable : Bool) : Buf :=
  if writable then { b with writeopen := false } else { b with readopen := false }

/-- The channels are `&p->nwrite` (`true`) and `&p->nread` (`false`). -/
def code (p : P) : Point P → Act (Point P) Unit Bool (Data P)
  | .user => .choose fun k => k.isCall
  | .writeTrap bytes => .killed .user (.writeCall bytes)
  | .writeCall bytes => .data fun d =>
    if 0 < d.fds p true then
      ({ d with calls := Function.update d.calls p (d.calls p ++ [bytes]) }, .writeAcquire bytes)
    else (d, .user)
  | .writeAcquire bytes => .acquire () (.writeLoop bytes 0 false)
  | .writeLoop bytes i stored => .data (writeLoop p bytes i stored)
  | .writeFull bytes i stored => .data fun d =>
    (d, if d.buf.readopen = false then .writeReturn (-1) else .writeKilled bytes i stored)
  | .writeKilled bytes i _ => .killed (.writeReturn (-1)) (.writeWakeup bytes i)
  | .writeWakeup bytes i => .wakeup false (.writeSleep bytes i)
  | .writeSleep bytes i => .sleep true () (.writeLoop bytes i false)
  | .writeDone bytes => .wakeup false (.writeReturn bytes.length)
  | .writeReturn _ => .release () .user
  | .readTrap n => .killed .user (.readCall n)
  | .readCall n => .data fun d => (d, if 0 < d.fds p false then .readAcquire n else .user)
  | .readAcquire n => .acquire () (.readLoop n)
  | .readLoop n => .data fun d =>
    (d, if d.buf.empty ∧ d.buf.writeopen then .readKilled n else .readCopy n 0)
  | .readKilled n => .killed (.readReturn n (-1)) (.readSleep n)
  | .readSleep n => .sleep false () (.readLoop n)
  | .readCopy n i => .data (readCopy n i)
  | .readWakeup n i => .wakeup true (.readReturn n i)
  | .readReturn _ _ => .release () .user
  | .closeCall writable => .data (fileclose p writable)
  | .closeAcquire writable => .acquire () (.closeMark writable)
  | .closeMark writable => .data fun d =>
    ({ d with buf := d.buf.close writable }, .closeWakeup writable)
  | .closeWakeup writable => .wakeup (!writable) .closeRelease
  | .closeRelease => .release () .user
  | .shareCall q writable => .data (share p q writable)

abbrev Sys (P : Type) := Sleep.Sys P (Point P) Unit Bool (Data P)

abbrev Event (P : Type) := Sleep.Event P (Point P)

abbrev Sys.step : Sys P → Event P → Outcome Sleep.Panic (Sys P) := Sleep.Sys.step code

/-- After `pipealloc` and two `fdalloc` by `p`.  The page of the pipe is not cleared. -/
def Sys.init (p : P) (data : Nat → UInt8) : Sys P where
  data :=
    { buf := ⟨data, 0, 0, true, true⟩
      ref _ := 1
      fds q _ := if q = p then 1 else 0
      log := []
      out := []
      calls _ := [] }
  lock _ := none
  ptlock := none
  thread _ := ⟨.code .user, false, false⟩

namespace Point

/-- The points under `p->lock` -/
def holds : Point P → Option Unit
  | .user | .writeTrap _ | .writeCall _ | .writeAcquire _ | .readTrap _ | .readCall _
  | .readAcquire _ | .closeCall _ | .closeAcquire _ | .shareCall _ _ => none
  | _ => some ()

/-- After the test of `killed` and before `sleep` -/
def deaf : Point P → Bool
  | .writeWakeup _ _ | .writeSleep _ _ | .readSleep _ => true
  | _ => false

end Point

variable {p : P}

omit [DecidableEq P] in
theorem Point.isCall.holds {k : Point P} (h : k.isCall = true) :
    k.holds = none ∧ k.deaf = false := by
  cases k with
  | writeTrap | readTrap | closeCall | shareCall => exact ⟨rfl, rfl⟩
  | _ => cases h

/-- An access to the data leads to a point under the lock if it was made under the lock, and never
behind the test of `killed`. -/
theorem holds_data {k : Point P} {f : Data P → Data P × Point P} (hact : code p k = .data f)
    (d : Data P) : (f d).2.holds = k.holds ∧ (f d).2.deaf = false := by
  cases k with
  | writeCall | closeCall | shareCall =>
    cases hact
    dsimp only [fileclose, share]
    split <;> (try split) <;> exact ⟨rfl, rfl⟩
  | writeLoop =>
    cases hact
    rw [writeLoop]
    split
    · exact ⟨rfl, rfl⟩
    · split <;> exact ⟨rfl, rfl⟩
  | writeFull | readCall | readLoop =>
    cases hact
    dsimp only
    split <;> exact ⟨rfl, rfl⟩
  | readCopy =>
    cases hact
    rw [readCopy]
    split
    · split <;> exact ⟨rfl, rfl⟩
    · exact ⟨rfl, rfl⟩
  | closeMark =>
    cases hact
    exact ⟨rfl, rfl⟩
  | _ => cases hact

theorem code_keeps (p : P) (k : Point P) : (code p k).keeps Point.holds k := by
  have hdata : ∀ {f}, code p k = .data f → ∀ d, (f d).2.holds = k.holds :=
    fun hact d => (holds_data hact d).1
  cases k with
  | user => exact fun _ hk => (Point.isCall.holds hk).1
  | writeCall | writeLoop | writeFull | readCall | readLoop | readCopy | closeCall | closeMark
  | shareCall => exact hdata rfl
  | writeWakeup | writeDone | readWakeup | closeWakeup => exact rfl
  | _ => exact ⟨rfl, rfl⟩

theorem code_heeds (p : P) (k : Point P) : (code p k).heeds Point.deaf k := by
  have hdata : ∀ {f}, code p k = .data f → ∀ d, (f d).2.deaf = false :=
    fun hact d => (holds_data hact d).2
  cases k with
  | user => exact fun _ hk => (Point.isCall.holds hk).2
  | writeCall | writeLoop | writeFull | readCall | readLoop | readCopy | closeCall | closeMark
  | shareCall => exact hdata rfl
  | writeWakeup => exact fun _ => rfl
  | writeDone | readWakeup | closeWakeup => exact nofun
  | writeSleep | readSleep => exact ⟨rfl, rfl⟩
  | _ => exact rfl

theorem locked_init (p : P) (data : Nat → UInt8) :
    Sleep.Locked code Point.holds (Sys.init p data) where
  lock _ _ := by simp [Sys.init, Sleep.Pc.holds, Point.holds]
  ptlock _ _ := by simp [Sys.init, Sleep.Pc.holdsTable]
  called _ := trivial

end Xv6.Pipe
