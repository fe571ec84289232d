import Mathlib.Data.List.FinRange
import Xv6.Lib.Prog
import Xv6.Param

/-!
# Inodes, directories and open files

The state that the path-name layer of `fs.c` and `sysfile.c` works on.  An inode is one record: every
change of the in-memory copy is followed by `iupdate` under the inode's lock, so the copy in the
cache and the one on the disk differ only in the fields that the disk does not have (`ref`, `valid`
and the sleep-lock).  A directory's contents are its dirents; contents of other files are left out.
Every action is one critical section or one access to an inode whose lock is held; `iput` is three.
-/

namespace Xv6

/-- A path element, cut to `DIRSIZ` bytes. -/
abbrev Name := List UInt8

def dot : Name := [46]

def dotdot : Name := [46, 46]

inductive InodeType where
  | free
  | dir
  | file
  | dev
  deriving DecidableEq

structure Dirent where
  inum : Nat
  name : Name
  deriving DecidableEq

structure Inode (P : Type) where
  type : InodeType
  major : Int
  minor : Int
  nlink : Int
  ents : List Dirent
  ref : Nat
  valid : Bool
  lock : Option P

inductive FileType where
  | none
  | inode
  deriving DecidableEq

structure File where
  ref : Nat
  type : FileType
  ip : Nat
  readable : Bool
  writable : Bool

abbrev FileId := Fin NFILE

abbrev Fd := Fin NOFILE

structure Fs (P : Type) where
  ninodes : Nat
  inode : Nat → Inode P
  file : FileId → File
  ofile : P → Fd → Option FileId
  /-- Null once the process has exited. -/
  cwd : P → Option Nat

inductive FsPanic where
  | igetNoInodes
  | ilock
  | ilockNoType
  | iunlock
  | iallocNoInodes
  | dirlookupNotDir
  | dirlink
  | unlinkNlink
  | unlinkWritei
  | createDots
  | createDirlink
  | fileclose
  deriving DecidableEq

/-- What a caller reads of an inode that it has locked. -/
structure Fields where
  type : InodeType
  nlink : Int
  ents : List Dirent

inductive FsAct where
  | iget (i : Nat)
  /-- `idup(myproc()->cwd)` -/
  | idupCwd
  | ilock (i : Nat)
  | iunlock (i : Nat)
  /-- The first part of `iput`, up to its test of `ref` -/
  | iputTest (i : Nat)
  /-- The inode is truncated and freed. -/
  | iputFree (i : Nat)
  /-- `ip->ref--` -/
  | iputDrop (i : Nat)
  | read (i : Nat)
  /-- `ip->nlink++; iupdate(ip)` -/
  | incLink (i : Nat)
  /-- `ip->nlink--; iupdate(ip)` -/
  | decLink (i : Nat)
  /-- `ip->major`, `ip->minor` and `ip->nlink = 1` of a new inode, with `iupdate(ip)` -/
  | initNode (i : Nat) (major minor : Int)
  /-- `writei` of one dirent at a slot of the directory -/
  | writeDirent (d slot : Nat) (de : Dirent)
  /-- The test of `ialloc` for one dinode, and its claim if it is free -/
  | claim (i : Nat) (type : InodeType)
  | filealloc
  | fdalloc (f : FileId)
  | fileclose (f : FileId)
  /-- `argfd` followed by `ofile[fd] = 0` -/
  | takeFd (fd : Fd)
  /-- `f->type = FD_INODE; f->ip = ip`, with `f->readable` and `f->writable` -/
  | setFile (f : FileId) (i : Nat) (readable writable : Bool)
  /-- The inode of `curproc->cwd`, to be put -/
  | readCwd
  | setCwd (i : Option Nat)
  | panic (e : FsPanic)

@[reducible]
def FsAct.Res : FsAct → Type
  | .idupCwd | .readCwd => Nat
  | .read _ => Fields
  | .iputTest _ | .writeDirent _ _ _ | .claim _ _ => Bool
  | .filealloc => Option FileId
  | .fdalloc _ => Option Fd
  | .fileclose _ => Option Nat
  | .takeFd _ => Option FileId
  | .panic _ => Empty
  | _ => Unit

variable {P : Type} [DecidableEq P]

/-- A value stored in a `short`. -/
def short (x : Int) : Int := (x + 32768) % 65536 - 32768

/-- `sizeof(struct dirent)` -/
abbrev DIRENTSIZE : Nat := 16

/-- Dirents after one is written at `slot`, which is at most one past the last. -/
def putSlot (ents : List Dirent) (slot : Nat) (de : Dirent) : List Dirent :=
  if slot < ents.length then ents.set slot de else ents ++ [de]

def Fs.setInode (s : Fs P) (i : Nat) (n : Inode P) : Fs P :=
  { s with inode := Function.update s.inode i n }

def Fs.setFile (s : Fs P) (f : FileId) (ff : File) : Fs P :=
  { s with file := Function.update s.file f ff }

def Fs.setOfile (s : Fs P) (p : P) (fd : Fd) (f : Option FileId) : Fs P :=
  { s with ofile := Function.update s.ofile p (Function.update (s.ofile p) fd f) }

/-- Entries of the inode cache in use. -/
def Fs.cached (s : Fs P) : Nat := (List.range s.ninodes).countP fun i => 0 < (s.inode i).ref

def Inode.free (n : Inode P) : Inode P :=
  { n with type := .free, ents := [], valid := false }

/-- The last reference to an inode without links. -/
def Inode.dying (n : Inode P) : Bool := n.valid && n.nlink == 0 && n.ref == 1

def Fs.iget (s : Fs P) (i : Nat) : Outcome FsPanic (Unit × Fs P) :=
  let n := s.inode i
  if 0 < n.ref then .next ((), s.setInode i { n with ref := n.ref + 1 })
  else if s.cached ≥ NINODE then .panic .igetNoInodes
  else .next ((), s.setInode i { n with ref := 1, valid := false })

def Fs.ilock (p : P) (s : Fs P) (i : Nat) : Outcome FsPanic (Unit × Fs P) :=
  let n := s.inode i
  if n.ref < 1 then .panic .ilock
  else match n.lock with
    | some _ => .blocked
    | none =>
      if n.valid = false ∧ n.type = .free then .panic .ilockNoType
      else .next ((), s.setInode i { n with lock := some p, valid := true })

def Fs.iunlock (p : P) (s : Fs P) (i : Nat) : Outcome FsPanic (Unit × Fs P) :=
  let n := s.inode i
  if n.lock ≠ some p ∨ n.ref < 1 then .panic .iunlock
  else .next ((), s.setInode i { n with lock := none })

/-- Whether `iput` is to free the inode, which it has locked then.  The lock is held over the whole
test; an inode that is kept is unlocked at once. -/
def Fs.iputTest (p : P) (s : Fs P) (i : Nat) : Outcome FsPanic (Bool × Fs P) :=
  let n := s.inode i
  match n.lock with
  | some _ => .blocked
  | none => .next (n.dying, if n.dying then s.setInode i { n with lock := some p } else s)

/-- `itrunc`, the dinode without a type, `ip->valid = 0` and `releasesleep` -/
def Fs.iputFree (s : Fs P) (i : Nat) : Fs P := s.setInode i { (s.inode i).free with lock := none }

def Fs.iputDrop (s : Fs P) (i : Nat) : Fs P :=
  s.setInode i { s.inode i with ref := (s.inode i).ref - 1 }

def Fs.writeDirent (s : Fs P) (d slot : Nat) (de : Dirent) : Bool × Fs P :=
  let n := s.inode d
  if slot > n.ents.length ∨ (slot + 1) * DIRENTSIZE > MAXFILE * BSIZE then (false, s)
  else (true, s.setInode d { n with ents := putSlot n.ents slot de })

def Fs.claim (s : Fs P) (i : Nat) (type : InodeType) : Bool × Fs P :=
  let n := s.inode i
  if n.type = .free then
    (true, s.setInode i { n with type, major := 0, minor := 0, nlink := 0, ents := [] })
  else (false, s)

def Fs.filealloc (s : Fs P) : Option FileId × Fs P :=
  match (List.finRange NFILE).find? fun f => (s.file f).ref = 0 with
  | none => (none, s)
  | some f => (some f, { s with file := Function.update s.file f { s.file f with ref := 1 } })

def Fs.fdalloc (p : P) (s : Fs P) (f : FileId) : Option Fd × Fs P :=
  match (List.finRange NOFILE).find? fun fd => (s.ofile p fd).isNone with
  | none => (none, s)
  | some fd =>
    (some fd, { s with
      ofile := Function.update s.ofile p (Function.update (s.ofile p) fd (some f)) })

/-- The section of `fileclose`, with the inode that is left to be put. -/
def Fs.fileclose (s : Fs P) (f : FileId) : Outcome FsPanic (Option Nat × Fs P) :=
  let ff := s.file f
  if ff.ref < 1 then .panic .fileclose
  else if ff.ref - 1 > 0 then
    .next (none, { s with file := Function.update s.file f { ff with ref := ff.ref - 1 } })
  else
    .next (if ff.type = .inode then some ff.ip else none,
      { s with file := Function.update s.file f { ff with ref := 0, type := .none } })

def Fs.takeFd (p : P) (s : Fs P) (fd : Fd) : Option FileId × Fs P :=
  match s.ofile p fd with
  | none => (none, s)
  | some f =>
    (some f, { s with
      ofile := Function.update s.ofile p (Function.update (s.ofile p) fd none) })

def Fs.exec (p : P) : (a : FsAct) → Fs P → Outcome FsPanic (a.Res × Fs P)
  | .iget i, s => s.iget i
  | .idupCwd, s =>
    match s.cwd p with
    | none => .blocked
    | some i => .next (i, s.setInode i { s.inode i with ref := (s.inode i).ref + 1 })
  | .ilock i, s => s.ilock p i
  | .iunlock i, s => s.iunlock p i
  | .iputTest i, s => s.iputTest p i
  | .iputFree i, s => .next ((), s.iputFree i)
  | .iputDrop i, s => .next ((), s.iputDrop i)
  | .read i, s => .next (⟨(s.inode i).type, (s.inode i).nlink, (s.inode i).ents⟩, s)
  | .incLink i, s =>
    .next ((), s.setInode i { s.inode i with nlink := short ((s.inode i).nlink + 1) })
  | .decLink i, s =>
    .next ((), s.setInode i { s.inode i with nlink := short ((s.inode i).nlink - 1) })
  | .initNode i major minor, s => .next ((), s.setInode i { s.inode i with major, minor, nlink := 1 })
  | .writeDirent d slot de, s => .next (s.writeDirent d slot de)
  | .claim i type, s => .next (s.claim i type)
  | .filealloc, s => .next s.filealloc
  | .fdalloc f, s => .next (s.fdalloc p f)
  | .fileclose f, s => s.fileclose f
  | .takeFd fd, s => .next (s.takeFd p fd)
  | .setFile f i readable writable, s =>
    .next ((), { s with
      file := Function.update s.file f ⟨(s.file f).ref, .inode, i, readable, writable⟩ })
  | .readCwd, s =>
    match s.cwd p with
    | none => .blocked
    | some i => .next (i, s)
  | .setCwd i, s => .next ((), { s with cwd := Function.update s.cwd p i })
  | .panic e, _ => .panic e

end Xv6
