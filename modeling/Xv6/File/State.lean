import Xv6.Dir.Calls
import Xv6.Proc.Table

/-!
# Descriptors of a growing set of processes

The file-system calls together with those that copy or create references to open files: `dup`,
`pipe`, `fork` and `exec`.  A slot of the process table is unused, being filled by `fork`, running,
or a zombie; only running processes take steps.
-/

namespace Xv6

/-- The file system with what the larger set of calls adds to it.  A file of type `FD_PIPE` is one
that has no inode and is marked in `pipe`. -/
structure Files (P : Type) where
  fs : Fs P
  pipe : FileId → Bool
  state : P → ProcState

inductive FilePanic where
  | fs (e : FsPanic)
  | filedup
  deriving DecidableEq

inductive FileAct (P : Type) where
  | fs (a : FsAct)
  /-- `curproc->ofile[fd]` -/
  | argfd (fd : Fd)
  | filedup (f : FileId)
  /-- `curproc->ofile[fd] = 0` -/
  | clearFd (fd : Fd)
  /-- `f->type = FD_PIPE`, with `f->readable` and `f->writable` -/
  | setPipe (f : FileId) (readable writable : Bool)
  /-- The section of `allocproc`, for the slot `np` -/
  | allocproc (np : P)
  /-- `np->state = UNUSED` after a failure -/
  | freeproc (np : P)
  /-- `np->ofile[fd] = f` -/
  | setOfile (np : P) (fd : Fd) (f : FileId)
  /-- `np->cwd = ip`, and the slot becomes runnable -/
  | publish (np : P) (ip : Nat)
  /-- The end of `exit` -/
  | zombie
  /-- `wait` frees the slot of the exited process `q` -/
  | reap (q : P)
  /-- Return from the call -/
  | trapret

@[reducible]
def FileAct.Res {P : Type} : FileAct P → Type
  | .fs a => a.Res
  | .argfd _ => Option FileId
  | .allocproc _ | .reap _ => Bool
  | _ => Unit

variable {P : Type} [DecidableEq P]

/-- The mark of a pipe goes with the last reference. -/
def Files.unmark (s : Files P) : FsAct → FileId → Bool
  | .fileclose f => if (s.fs.file f).ref ≤ 1 then Function.update s.pipe f false else s.pipe
  | _ => s.pipe

def Files.setState (s : Files P) (p : P) (c : ProcState) : Files P :=
  { s with state := Function.update s.state p c }

/-- What the action does if `p` is running. -/
def Files.act (p : P) : (a : FileAct P) → Files P → Outcome FilePanic (a.Res × Files P)
  | .fs a, s =>
    match s.fs.exec p a with
    | .blocked => .blocked
    | .panic e => .panic (.fs e)
    | .next (r, fs) => .next (r, { s with fs, pipe := s.unmark a })
  | .argfd fd, s => .next (s.fs.ofile p fd, s)
  | .filedup f, s =>
    let ff := s.fs.file f
    if ff.ref < 1 then .panic .filedup
    else .next ((), { s with fs := s.fs.setFile f { ff with ref := ff.ref + 1 } })
  | .clearFd fd, s => .next ((), { s with fs := s.fs.setOfile p fd none })
  | .setPipe f readable writable, s =>
    .next ((), { s with
      fs := s.fs.setFile f { s.fs.file f with readable, writable }
      pipe := Function.update s.pipe f true })
  | .allocproc np, s =>
    if s.state np = .unused then .next (true, s.setState np .embryo) else .next (false, s)
  | .freeproc np, s => .next ((), s.setState np .unused)
  | .setOfile np fd f, s => .next ((), { s with fs := s.fs.setOfile np fd (some f) })
  | .publish np ip, s =>
    .next ((), { s.setState np .runnable with
      fs := { s.fs with cwd := Function.update s.fs.cwd np (some ip) } })
  | .zombie, s => .next ((), s.setState p .zombie)
  | .reap q, s =>
    if s.state q = .zombie then .next (true, s.setState q .unused) else .next (false, s)
  | .trapret, s => .next ((), s)

def Files.exec (p : P) (a : FileAct P) (s : Files P) : Outcome FilePanic (a.Res × Files P) :=
  if s.state p = .runnable then s.act p a else .blocked

abbrev FileM (P α : Type) := Prog (FileAct P) FileAct.Res α

omit [DecidableEq P] in
/-- A program of the path-name layer. -/
def onFs {α : Type} (t : FsM α) : FileM P α := t.embed FileAct.fs fun _ r => r

def sysDup (fd : Fd) : FileM P Int := do
  match ← Prog.perform (FileAct.argfd fd) with
  | none => pure (-1)
  | some f => do
    match ← onFs (Prog.perform (FsAct.fdalloc f)) with
    | none => pure (-1)
    | some fd' => do
      Prog.perform (FileAct.filedup f)
      pure fd'.val

/-- The label `bad` of `pipealloc`. -/
def pipeallocBad (f0 f1 : Option FileId) : FileM P (Option (FileId × FileId)) := do
  match f0 with
  | some f => onFs (fileclose f)
  | none => pure ()
  match f1 with
  | some f => onFs (fileclose f)
  | none => pure ()
  pure none

/-- `pipealloc`; `mem` says whether `kalloc` finds a page. -/
def pipealloc (mem : Bool) : FileM P (Option (FileId × FileId)) := do
  match ← onFs (Prog.perform FsAct.filealloc) with
  | none => pipeallocBad none none
  | some f0 => do
    match ← onFs (Prog.perform FsAct.filealloc) with
    | none => pipeallocBad (some f0) none
    | some f1 =>
      if mem then do
        Prog.perform (FileAct.setPipe f0 true false)
        Prog.perform (FileAct.setPipe f1 false true)
        pure (some (f0, f1))
      else pipeallocBad (some f0) (some f1)

def sysPipe (mem : Bool) : FileM P Int := do
  match ← pipealloc mem with
  | none => pure (-1)
  | some (rf, wf) => do
    match ← onFs (Prog.perform (FsAct.fdalloc rf)) with
    | none => bad rf wf
    | some fd0 => do
      match ← onFs (Prog.perform (FsAct.fdalloc wf)) with
      | none => do
        Prog.perform (FileAct.clearFd fd0)
        bad rf wf
      | some _ => pure 0
where
  bad (rf wf : FileId) : FileM P Int := do
    onFs (fileclose rf)
    onFs (fileclose wf)
    pure (-1)

/-- The loop of `fork` over the parent's descriptors. -/
def forkFiles (np : P) : List Fd → FileM P Unit
  | [] => pure ()
  | fd :: rest => do
    match ← Prog.perform (FileAct.argfd fd) with
    | none => forkFiles np rest
    | some f => do
      Prog.perform (FileAct.filedup f)
      Prog.perform (FileAct.setOfile np fd f)
      forkFiles np rest

/-- `fork` into the slot `np`; `mem` says whether `kalloc` and `copyuvm` find their pages. -/
def sysFork (np : P) (mem : Bool) : FileM P Int := do
  if ← Prog.perform (FileAct.allocproc np) then
    if mem then do
      forkFiles np (List.finRange NOFILE)
      let cwd ← onFs (Prog.perform FsAct.idupCwd)
      Prog.perform (FileAct.publish np cwd)
      pure 0
    else do
      Prog.perform (FileAct.freeproc np)
      pure (-1)
  else pure (-1)

/-- The part of `exec` that uses the file system.  `loads` says whether the image can be read into
memory, `stack` whether the arguments can be copied. -/
def sysExec (path : Path) (loads stack : Bool) : FsM Int := do
  match ← namei path with
  | none => pure (-1)
  | some ip => do
    ilock ip
    let _ ← readInode ip
    if loads then do
      iunlockput ip
      pure (if stack then 0 else -1)
    else do
      iunlockput ip
      pure (-1)

inductive FileCall (P : Type) where
  | fs (c : Syscall)
  | dup (fd : Fd)
  | pipe (mem : Bool)
  | fork (np : P) (mem : Bool)
  | exec (path : Path) (loads stack : Bool)
  | wait (q : P)

def FileCall.body (ninodes : Nat) : FileCall P → FileM P Int
  | .fs c => onFs (c.prog ninodes)
  | .dup fd => sysDup fd
  | .pipe mem => sysPipe mem
  | .fork np mem => sysFork np mem
  | .exec path loads stack => onFs (sysExec path loads stack)
  | .wait q => do
    if ← Prog.perform (FileAct.reap q) then pure 0 else pure (-1)

/-- A call and its return; `exit` does not return. -/
def FileCall.prog (ninodes : Nat) (c : FileCall P) : FileM P Int := do
  let r ← c.body ninodes
  match c with
  | .fs .exit => Prog.perform FileAct.zombie
  | _ => Prog.perform FileAct.trapret
  pure r

variable (P) in
def fileKernel (ninodes : Nat) :
    Kernel P (Files P) FilePanic (FileAct P) FileAct.Res Int (FileCall P) where
  exec := Files.exec
  prog := FileCall.prog ninodes
  ready s p := s.state p = .runnable

end Xv6
