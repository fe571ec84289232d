import Xv6.Bio.Cache

/-!
# The log over the buffer cache

`log.c`, run by any number of processes that also use the buffer cache directly.  `commit` runs in
the process whose `end_op` found no other operation outstanding, one access to the cache at a time.
-/

namespace Xv6.Bio

/-- What `commit` does next. -/
inductive Stage where
  /-- `write_log`, for one log entry: `bread(to)`, `bread(from)`, `memmove`, `bwrite(to)`,
  `brelse(from)` and `brelse(to)` -/
  | logTo (tail : Nat)
  | logFrom (tail : Nat) (tobuf : Buf)
  | logCopy (tail : Nat) (tobuf frombuf : Buf)
  | logWrite (tail : Nat) (tobuf frombuf : Buf)
  | logFromDone (tail : Nat) (tobuf frombuf : Buf)
  | logToDone (tail : Nat) (tobuf : Buf)
  /-- `write_head`; `last` is for the second call. -/
  | headRead (last : Bool)
  | headSet (last : Bool) (buf : Buf)
  | headWrite (last : Bool) (buf : Buf)
  | headDone (last : Bool) (buf : Buf)
  /-- `install_trans`, for one log entry: `bread(lbuf)`, `bread(dbuf)`, `memmove`, `bwrite(dbuf)`,
  `brelse(lbuf)` and `brelse(dbuf)` -/
  | installLog (tail : Nat)
  | installHome (tail : Nat) (lbuf : Buf)
  | installCopy (tail : Nat) (lbuf dbuf : Buf)
  | installWrite (tail : Nat) (lbuf dbuf : Buf)
  | installLogDone (tail : Nat) (lbuf dbuf : Buf)
  | installHomeDone (tail : Nat) (dbuf : Buf)
  /-- `log.lh.n = 0` -/
  | clear
  /-- The end of `end_op` -/
  | done
  deriving DecidableEq

structure Log where
  dev : Nat
  start : Nat
  size : Nat
  outstanding : Int
  /-- `lh.block[0..n)` -/
  lh : List Nat

structure Sys (P : Type) where
  cache : Bcache P
  log : Log
  /-- Between `begin_op` and `end_op` -/
  inOp : P → Bool
  /-- The buffer that a process in `log_write` has, between the checks and the section under `log.lock` -/
  writing : P → Option Buf
  /-- `log.committing`, with the process that commits -/
  commit : Option (P × Stage)

namespace Sys

inductive Event (P : Type) where
  | bread (p : P) (dev blockno : Nat)
  /-- The next step of `p` in `bread` or `brelse` -/
  | run (p : P)
  | modify (p : P) (b : Buf) (data : Block)
  /-- The checks of `log_write`, without a lock -/
  | logWrite (p : P) (b : Buf)
  /-- The section of `log_write` -/
  | logSection (p : P)
  | bwrite (p : P) (b : Buf)
  | brelse (p : P) (b : Buf)
  | beginOp (p : P)
  | endOp (p : P)
  /-- The next step of `commit` -/
  | commit

variable {P : Type} [DecidableEq P] (s : Sys P)

/-- `s` with the cache after an event and with another part of the log changed. -/
def onCache (e : Bcache.Event P) (f : Sys P → Sys P) : Outcome Panic (Sys P) :=
  match s.cache.step e with
  | .next c => .next (f { s with cache := c })
  | .panic e => .panic e
  | .blocked => .blocked

def logWrite (p : P) (b : Buf) : Outcome Panic (Sys P) :=
  if s.log.lh.length ≥ LOGSIZE ∨ s.log.lh.length ≥ s.log.size - 1 then .panic .tooBig
  else if s.log.outstanding < 1 then .panic .outsideTrans
  else .next { s with writing := Function.update s.writing p (some b) }

def logSection (p : P) (b : Buf) : Outcome Panic (Sys P) :=
  let blockno := (s.cache.buf b).blockno
  if blockno ∉ s.log.lh ∧ s.log.lh.length ≥ LOGSIZE then .panic .overrun
  else s.onCache (.pin p b) fun s => { s with
    log.lh := if blockno ∈ s.log.lh then s.log.lh else s.log.lh ++ [blockno]
    writing := Function.update s.writing p none }

def beginOp (p : P) : Outcome Panic (Sys P) :=
  if s.commit.isSome then .blocked
  else if s.log.lh.length + (s.log.outstanding + 1) * MAXOPBLOCKS > LOGSIZE then .blocked
  else .next { s with
    log.outstanding := s.log.outstanding + 1, inOp := Function.update s.inOp p true }

def endOp (p : P) : Outcome Panic (Sys P) :=
  if s.commit.isSome then .panic .committing
  else
    let outstanding := s.log.outstanding - 1
    .next { s with
      log.outstanding := outstanding, inOp := Function.update s.inOp p false
      commit :=
        if outstanding = 0 then some (p, if 0 < s.log.lh.length then .logTo 0 else .done) else none }

/-- `bread` of a block of the log's device, up to `acquiresleep` -/
def commitRead (p : P) (blockno : Nat) (next : Buf → Stage) : Outcome Panic (Sys P) :=
  match s.cache.bget p s.log.dev blockno with
  | .next (b, c) => .next { s with cache := c, commit := some (p, next b) }
  | .panic e => .panic e
  | .blocked => .blocked

def commitOn (p : P) (e : Bcache.Event P) (next : Stage) : Outcome Panic (Sys P) :=
  s.onCache e fun s => { s with commit := some (p, next) }

/-- The header block as `write_head` fills it in -/
def header (hb : Block) : Block := putBlocks (hb.putWord 0 s.log.lh.length) 0 s.log.lh

def commitStage (p : P) : Stage → Outcome Panic (Sys P)
  | .logTo tail => s.commitRead p (s.log.start + tail + 1) (.logFrom tail)
  | .logFrom tail tobuf => s.commitRead p (s.log.lh.getD tail 0) (.logCopy tail tobuf)
  | .logCopy tail tobuf frombuf =>
    s.commitOn p (.modify p tobuf (s.cache.buf frombuf).data) (.logWrite tail tobuf frombuf)
  | .logWrite tail tobuf frombuf => s.commitOn p (.bwrite p tobuf) (.logFromDone tail tobuf frombuf)
  | .logFromDone tail tobuf frombuf => s.commitOn p (.brelse p frombuf true) (.logToDone tail tobuf)
  | .logToDone tail tobuf =>
    s.commitOn p (.brelse p tobuf true)
      (if tail + 1 < s.log.lh.length then .logTo (tail + 1) else .headRead false)
  | .headRead last => s.commitRead p s.log.start (.headSet last)
  | .headSet last buf =>
    s.commitOn p (.modify p buf (s.header (s.cache.buf buf).data)) (.headWrite last buf)
  | .headWrite last buf => s.commitOn p (.bwrite p buf) (.headDone last buf)
  | .headDone last buf =>
    s.commitOn p (.brelse p buf true) (if last then .done else .installLog 0)
  | .installLog tail => s.commitRead p (s.log.start + tail + 1) (.installHome tail)
  | .installHome tail lbuf => s.commitRead p (s.log.lh.getD tail 0) (.installCopy tail lbuf)
  | .installCopy tail lbuf dbuf =>
    s.commitOn p (.modify p dbuf (s.cache.buf lbuf).data) (.installWrite tail lbuf dbuf)
  | .installWrite tail lbuf dbuf =>
    s.commitOn p (.bwrite p dbuf) (.installLogDone tail lbuf dbuf)
  | .installLogDone tail lbuf dbuf =>
    s.commitOn p (.brelse p lbuf true) (.installHomeDone tail dbuf)
  | .installHomeDone tail dbuf =>
    s.commitOn p (.brelse p dbuf false)
      (if tail + 1 < s.log.lh.length then .installLog (tail + 1) else .clear)
  | .clear => .next { s with log.lh := [], commit := some (p, .headRead true) }
  | .done => .next { s with commit := none }

/-- `p` is in neither `commit` nor `log_write`. -/
def free (p : P) : Prop := s.commit.all (·.1 ≠ p) ∧ s.writing p = none

instance (p : P) : Decidable (s.free p) := inferInstanceAs (Decidable (_ ∧ _))

/-- A process that has changed a buffer calls `log_write` or `bwrite` before it releases it. -/
def step : Event P → Outcome Panic (Sys P)
  | .bread p dev blockno => if s.free p then s.onCache (.bread p dev blockno) id else .blocked
  | .run p => s.onCache (.run p) id
  | .modify p b data => if s.free p then s.onCache (.modify p b data) id else .blocked
  | .logWrite p b => if s.free p ∧ s.cache.holds p b then s.logWrite p b else .blocked
  | .logSection p =>
    match s.writing p with
    | some b => s.logSection p b
    | none => .blocked
  | .bwrite p b => if s.free p then s.onCache (.bwrite p b) id else .blocked
  | .brelse p b =>
    if s.free p ∧ (s.cache.buf b).changed = false then s.onCache (.brelse p b true) id
    else .blocked
  | .beginOp p =>
    if s.free p ∧ s.cache.pc p = .idle ∧ s.inOp p = false then s.beginOp p else .blocked
  | .endOp p =>
    if s.free p ∧ s.cache.pc p = .idle ∧ s.inOp p = true then s.endOp p else .blocked
  | .commit =>
    match s.commit with
    | some (p, stage) => if s.cache.pc p = .idle then s.commitStage p stage else .blocked
    | none => .blocked

/-- After `binit` and `initlog`, with the log empty -/
def init (disk : Nat → Nat → Block) (dev start size : Nat) : Sys P where
  cache := .init disk
  log := ⟨dev, start, size, 0, []⟩
  inOp _ := false
  writing _ := none
  commit := none

end Sys

end Xv6.Bio
