import Mathlib.Data.List.FinRange
import Xv6.Lib.Circle
import Xv6.Lib.Run
import Xv6.Log.Recovery

/-!
# The buffer cache

`bio.c`, with `iderw` of `ide.c`, run by any number of processes.  A section under `bcache.lock` is
one step, and so are the acquisition and the release of a buffer's sleep-lock, an access to a locked
buffer and a transfer to or from the disk.

Two marks on a buffer, the users and the table `released` are history.  A buffer is `touched` if its
data were changed since it was locked, and `changed` if they were changed and neither `log_write` nor
`bwrite` has been called since.  `released` has the data with which each block was last released.
-/

namespace Xv6.Bio

abbrev Buf := Fin NBUF

/-- A buffer, or `bcache.head` -/
abbrev Node := Option Buf

structure Entry (P : Type) where
  dev : Nat
  blockno : Nat
  refcnt : Nat
  /-- `B_VALID` -/
  valid : Bool
  /-- `B_DIRTY` -/
  dirty : Bool
  lock : Option P
  data : Block
  touched : Bool
  changed : Bool

/-- What a process does next in `bread` or `brelse`. -/
inductive Pc where
  | idle
  /-- `bget`: before `acquiresleep` -/
  | wait (b : Buf)
  /-- `bread`: before the test of `B_VALID` -/
  | load (b : Buf)
  /-- `brelse`: before the section under `bcache.lock` -/
  | drop (b : Buf)
  deriving DecidableEq

def Pc.buf : Pc → Option Buf
  | .idle => none
  | .wait b | .load b | .drop b => some b

/-- A process between `bget` and the section of `brelse` -/
structure User (P : Type) where
  proc : P
  buf : Buf
  /-- The block that it called `bget` for -/
  dev : Nat
  blockno : Nat
  deriving DecidableEq

inductive Panic where
  | bgetNoBuffers
  | bwrite
  | brelse
  | iderwNotLocked
  | iderwNothing
  /-- Not a panic: a loop over the buffers does not end. -/
  | hang
  /-- `log.c` -/
  | tooBig
  | outsideTrans
  | committing
  /-- Not a panic: `log.lh.block` has no such entry. -/
  | overrun
  deriving DecidableEq

end Bio

structure Bcache (P : Type) where
  buf : Bio.Buf → Bio.Entry P
  links : Links Bio.Node
  disk : Nat → Nat → Block
  pc : P → Bio.Pc
  users : List (Bio.User P)
  released : Nat → Nat → Block

namespace Bcache

open Bio

inductive Event (P : Type) where
  | bread (p : P) (dev blockno : Nat)
  /-- The next step of `p` in `bread` or `brelse` -/
  | run (p : P)
  | modify (p : P) (b : Buf) (data : Block)
  /-- `b->flags |= B_DIRTY`, by `log_write` -/
  | pin (p : P) (b : Buf)
  | bwrite (p : P) (b : Buf)
  /-- The release is recorded unless it is one of a home block by `install_trans`. -/
  | brelse (p : P) (b : Buf) (record : Bool)

variable {P : Type} [DecidableEq P] (c : Bcache P)

def modify (b : Buf) (f : Entry P → Entry P) : Bcache P :=
  { c with buf := Function.update c.buf b (f (c.buf b)) }

def goto (p : P) (pc : Pc) : Bcache P := { c with pc := Function.update c.pc p pc }

/-- A loop of `bget` -/
def find (next : Node → Node) (test : Entry P → Bool) : Option (Option Buf) :=
  (Links.walk next none (fun node => node.any (test <| c.buf ·)) (NBUF + 1) (next none)).map
    Option.join

/-- `b->refcnt++` -/
def hit (p : P) (b : Buf) : Bcache P :=
  { (c.modify b fun x => { x with refcnt := x.refcnt + 1 }).goto p (.wait b) with
    users := ⟨p, b, (c.buf b).dev, (c.buf b).blockno⟩ :: c.users }

def recycle (p : P) (b : Buf) (dev blockno : Nat) : Bcache P :=
  { (c.modify b fun x =>
      { x with dev := dev, blockno := blockno, valid := false, dirty := false, refcnt := 1 }).goto p
        (.wait b) with
    users := ⟨p, b, dev, blockno⟩ :: c.users }

/-- The section of `bget` -/
def bget (p : P) (dev blockno : Nat) : Outcome Panic (Buf × Bcache P) :=
  match c.find c.links.next fun x => x.dev = dev ∧ x.blockno = blockno with
  | none => .panic .hang
  | some (some b) => .next (b, c.hit p b)
  | some none =>
    match c.find c.links.prev fun x => x.refcnt = 0 ∧ x.dirty = false with
    | none => .panic .hang
    | some (some b) => .next (b, c.recycle p b dev blockno)
    | some none => .panic .bgetNoBuffers

/-- `iderw(b)` writes the buffer if it is dirty, and reads it otherwise. -/
def iderw (p : P) (b : Buf) : Outcome Panic (Bcache P) :=
  let x := c.buf b
  if x.lock ≠ some p then .panic .iderwNotLocked
  else if x.valid ∧ x.dirty = false then .panic .iderwNothing
  else if x.dirty then
    .next { c.modify b fun x => { x with dirty := false, valid := true } with
      disk := Function.update c.disk x.dev (Function.update (c.disk x.dev) x.blockno x.data) }
  else .next (c.modify b fun y => { y with valid := true, data := c.disk x.dev x.blockno })

def bwrite (p : P) (b : Buf) : Outcome Panic (Bcache P) :=
  if (c.buf b).lock = some p then
    (c.modify b fun x => { x with dirty := true, changed := false }).iderw p b
  else .panic .bwrite

/-- `brelse` up to `releasesleep` -/
def brelse (p : P) (b : Buf) (record : Bool) : Outcome Panic (Bcache P) :=
  let x := c.buf b
  if x.lock = some p then
    .next { (c.modify b fun x => { x with lock := none }).goto p (.drop b) with
      released :=
        if record then
          Function.update c.released x.dev (Function.update (c.released x.dev) x.blockno x.data)
        else c.released }
  else .panic .brelse

/-- The section of `brelse` -/
def drop (p : P) (b : Buf) : Bcache P :=
  let x := c.buf b
  { (c.modify b fun x => { x with refcnt := x.refcnt - 1 }).goto p .idle with
    users := c.users.erase ⟨p, b, x.dev, x.blockno⟩
    links :=
      if x.refcnt - 1 = 0 then (c.links.unlink (some b)).pushFront none (some b) else c.links }

def run (p : P) : Outcome Panic (Bcache P) :=
  match c.pc p with
  | .idle => .blocked
  | .wait b =>
    if (c.buf b).lock = none then
      .next ((c.modify b fun x =>
        { x with lock := some p, touched := false, changed := false }).goto p (.load b))
    else .blocked
  | .load b =>
    if (c.buf b).valid then .next (c.goto p .idle) else ((c.goto p .idle).iderw p b)
  | .drop b => .next (c.drop p b)

/-- `p` is in neither `bread` nor `brelse` and has locked the buffer. -/
def holds (p : P) (b : Buf) : Prop := c.pc p = .idle ∧ (c.buf b).lock = some p

instance (p : P) (b : Buf) : Decidable (c.holds p b) := inferInstanceAs (Decidable (_ ∧ _))

/-- A process changes and pins only buffers that it has locked. -/
def step : Event P → Outcome Panic (Bcache P)
  | .bread p dev blockno =>
    if c.pc p = .idle then
      match c.bget p dev blockno with
      | .next (_, c') => .next c'
      | .panic e => .panic e
      | .blocked => .blocked
    else .blocked
  | .run p => c.run p
  | .modify p b data =>
    if c.holds p b then
      .next (c.modify b fun x => { x with data := data, touched := true, changed := true })
    else .blocked
  | .pin p b =>
    if c.holds p b then .next (c.modify b fun x => { x with dirty := true, changed := false })
    else .blocked
  | .bwrite p b => if c.pc p = .idle then c.bwrite p b else .blocked
  | .brelse p b record => if c.pc p = .idle then c.brelse p b record else .blocked

/-- `binit` -/
def init (disk : Nat → Nat → Block) : Bcache P where
  buf _ := ⟨0, 0, 0, false, false, none, Bytes.zero, false, false⟩
  links := (List.finRange NBUF).foldl (fun k b => k.pushFront none (some b))
    ⟨fun _ => none, fun _ => none⟩
  disk := disk
  pc _ := .idle
  users := []
  released := disk

end Bcache

end Xv6
