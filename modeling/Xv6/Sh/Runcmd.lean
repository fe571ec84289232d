import Xv6.Sh.Parse
import Xv6.Dir.State
import Xv6.Lib.Prog
import Mathlib.Data.Fintype.Basic

/-!
# `runcmd` and the processes it starts

`runcmd` is a program of system calls that never returns.  The processes of the shell run their copies
of it, each with a table of descriptors of its own; a call finds the lowest free descriptor.  A call of
`runcmd` is an action too, so that a run shows where in the tree a process is: a node is named by the
way that leads to it from the root.
-/

namespace Xv6

namespace Sh

inductive Side where
  | left
  | right
  /-- The `cmd` of a redirection or of a background command -/
  | sub
  deriving DecidableEq

abbrev Path := List Side

/-- The subtree at a node -/
def Cmd.at? {W : Type} : Cmd W → Path → Option (Cmd W)
  | c, [] => some c
  | .pipe l _, .left :: π | .list l _, .left :: π => l.at? π
  | .pipe _ r, .right :: π | .list _ r, .right :: π => r.at? π
  | .redir c _ _ _, .sub :: π | .back c, .sub :: π => c.at? π
  | _, _ => none

/-- What a descriptor stands for -/
inductive OpenFile (W : Type) where
  /-- Open before the run -/
  | given (n : Nat)
  | opened (file : W) (mode : Nat)
  /-- The two ends of a pipe, by its number -/
  | readEnd (k : Nat)
  | writeEnd (k : Nat)
  deriving DecidableEq

/-- `ofile` -/
abbrev Table (W : Type) := Fd → Option (OpenFile W)

namespace Table

variable {W : Type} (t : Table W)

def fdalloc (f : OpenFile W) : Option (Fd × Table W) :=
  ((List.finRange NOFILE).find? fun fd => (t fd).isNone).map fun fd =>
    (fd, Function.update t fd (some f))

def close (fd : Nat) : Table W :=
  if h : fd < NOFILE then Function.update t ⟨fd, h⟩ none else t

def dup (fd : Fd) : Option (Fd × Table W) := (t fd).bind t.fdalloc

/-- `sys_pipe` after `pipealloc` -/
def pipe (k : Nat) : Option ((Fd × Fd) × Table W) :=
  (t.fdalloc (.readEnd k)).bind fun (fd0, t') =>
    (t'.fdalloc (.writeEnd k)).map fun (fd1, t'') => ((fd0, fd1), t'')

end Table

inductive Act (W : Type) where
  | runcmd (node : Path) (cmd : Cmd W)
  | close (fd : Nat)
  | dup (fd : Fd)
  | openFile (file : W) (mode : Nat)
  /-- `pipe`, called at a node -/
  | pipe (node : Path)
  | fork
  | wait
  | exec (argv : List W)
  | exit

/-- What `fork` returns: -1, 0 or the new process -/
inductive Forked where
  | failed
  | child
  | parent

@[reducible]
def Act.Res {W : Type} : Act W → Type
  | .runcmd _ _ | .close _ | .wait => Unit
  | .dup _ | .openFile _ _ => Option Fd
  | .pipe _ => Option (Fd × Fd)
  | .fork => Forked
  -- returns only if it fails
  | .exec _ => Unit
  | .exit => Empty

abbrev ShM (W α : Type) := Prog (Act W) Act.Res α

variable {W : Type}

def call (a : Act W) : ShM W a.Res := Prog.perform a

def exit : ShM W Empty := call .exit

/-- Whether this is the child; `fork1` panics if there is none, and so does not return. -/
def fork1 (k : Bool → ShM W Empty) : ShM W Empty := do
  match ← call .fork with
  | .failed => exit
  | .child => k true
  | .parent => k false

def runcmd : Cmd W → Path → ShM W Empty
  | .exec argv, node => do
    call (.runcmd node (.exec argv))
    if argv.isEmpty then exit
    else
      call (.exec argv)
      exit
  | .redir cmd file mode fd, node => do
    call (.runcmd node (.redir cmd file mode fd))
    call (.close fd)
    match ← call (.openFile file mode) with
    | none => exit
    | some _ => runcmd cmd (node ++ [.sub])
  | .list left right, node => do
    call (.runcmd node (.list left right))
    fork1 fun child =>
      if child then runcmd left (node ++ [.left])
      else do
        call .wait
        runcmd right (node ++ [.right])
  | .pipe left right, node => do
    call (.runcmd node (.pipe left right))
    match ← call (.pipe node) with
    | none => exit
    | some (p0, p1) =>
      fork1 fun child =>
        if child then do
          call (.close 1)
          let _ ← call (.dup p1)
          call (.close p0)
          call (.close p1)
          runcmd left (node ++ [.left])
        else
          fork1 fun child =>
            if child then do
              call (.close 0)
              let _ ← call (.dup p0)
              call (.close p0)
              call (.close p1)
              runcmd right (node ++ [.right])
            else do
              call (.close p0)
              call (.close p1)
              call .wait
              call .wait
              exit
  | .back cmd, node => do
    call (.runcmd node (.back cmd))
    fork1 fun child => if child then runcmd cmd (node ++ [.sub]) else exit

/-- A call of `runcmd`, with the descriptors of the process at that time -/
structure Call (W : Type) where
  node : Path
  cmd : Cmd W
  table : Table W

inductive Code (W : Type) where
  | shell (prog : ShM W Empty)
  /-- After `exec` -/
  | program (argv : List W)
  | zombie

structure Process (P W : Type) where
  code : Code W
  ofile : Table W
  /-- None if the parent has exited, or is the shell itself -/
  parent : Option P
  /-- History: the calls of `runcmd` by the process and its ancestors, the last one first -/
  trail : List (Call W)

/-- The node that a process is at -/
def Process.node {P : Type} (x : Process P W) : Path := (x.trail.head?.map Call.node).getD []

end Sh

structure Shell (P W : Type) where
  proc : P → Option (Sh.Process P W)
  /-- History: the nodes where the pipes were made, by number -/
  made : List Sh.Path

namespace Shell

open Sh

inductive Event (P : Type) where
  /-- The process `p` takes its next action.  A call that needs memory, a file or a free slot may fail;
  `q` is the slot that `fork` finds, or the child that `wait` finds. -/
  | act (p : P) (ok : Bool) (q : P)
  /-- A program exits. -/
  | exit (p : P)

variable {P W : Type} [DecidableEq P] [Fintype P] (s : Shell P W)

def set (p : P) (x : Process P W) : Shell P W := { s with proc := Function.update s.proc p (some x) }

/-- `exit` closes all descriptors and leaves the children to `init`. -/
def exit (p : P) (x : Process P W) : Shell P W :=
  { s with
    proc := Function.update
      (fun q => (s.proc q).map fun y => if y.parent = some p then { y with parent := none } else y)
      p (some { x with code := .zombie, ofile := fun _ => none }) }

def isChild (p q : P) : Bool := (s.proc q).any fun y => y.parent = some p

def isZombie (q : P) : Bool :=
  (s.proc q).any fun y => match y.code with | .zombie => true | _ => false

/-- `wait`, which frees the slot of an exited child, or fails if there is no child at all -/
def wait (p q : P) : Option (Shell P W) :=
  if s.isChild p q && s.isZombie q then some { s with proc := Function.update s.proc q none }
  else if ∃ q, s.isChild p q then none
  else some s

def perform (p : P) (x : Process P W) (ok : Bool) (q : P) :
    (a : Act W) → (a.Res → ShM W Empty) → Outcome Empty (Shell P W)
  | .runcmd node cmd, k =>
    .next (s.set p { x with code := .shell (k ()), trail := ⟨node, cmd, x.ofile⟩ :: x.trail })
  | .close fd, k => .next (s.set p { x with code := .shell (k ()), ofile := x.ofile.close fd })
  | .dup fd, k =>
    match x.ofile.dup fd with
    | none => .next (s.set p { x with code := .shell (k none) })
    | some (fd', t) => .next (s.set p { x with code := .shell (k (some fd')), ofile := t })
  | .openFile file mode, k =>
    match if ok then x.ofile.fdalloc (.opened file mode) else none with
    | none => .next (s.set p { x with code := .shell (k none) })
    | some (fd, t) => .next (s.set p { x with code := .shell (k (some fd)), ofile := t })
  | .pipe node, k =>
    match if ok then x.ofile.pipe s.made.length else none with
    | none => .next (s.set p { x with code := .shell (k none) })
    | some (fds, t) =>
      .next { s.set p { x with code := .shell (k (some fds)), ofile := t } with
        made := s.made ++ [node] }
  | .fork, k =>
    if ok then
      if (s.proc q).isSome then .blocked
      else
        .next ((s.set p { x with code := .shell (k .parent) }).set q
          { x with code := .shell (k .child), parent := some p })
    else .next (s.set p { x with code := .shell (k .failed) })
  | .wait, k =>
    match s.wait p q with
    | none => .blocked
    | some s => .next (s.set p { x with code := .shell (k ()) })
  | .exec argv, k =>
    .next (s.set p { x with code := if ok then .program argv else .shell (k ()) })
  | .exit, _ => .next (s.exit p x)

def step : Event P → Outcome Empty (Shell P W)
  | .act p ok q =>
    match s.proc p with
    | none => .blocked
    | some x =>
      match x.code with
      | .shell (.act a k) => s.perform p x ok q a k
      | _ => .blocked
  | .exit p =>
    match s.proc p with
    | none => .blocked
    | some x =>
      match x.code with
      | .program _ => .next (s.exit p x)
      | _ => .blocked

/-- One process, about to run the tree -/
def init (cmd : Cmd W) (ofile : Table W) (p : P) : Shell P W where
  proc := Function.update (fun _ => none) p (some ⟨.shell (runcmd cmd []), ofile, none, []⟩)
  made := []

end Shell

end Xv6
