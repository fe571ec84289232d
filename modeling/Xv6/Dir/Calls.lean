import Mathlib.Data.List.TakeDrop
import Xv6.Dir.State

/-!
# Path names and the system calls on them

The functions of `fs.c` from `ialloc` to `namex` and the system calls of `sysfile.c` that look up,
create and remove names, as programs over the actions of `Xv6.Dir.State`.
-/

namespace Xv6

abbrev FsM (α : Type) := Prog FsAct FsAct.Res α

/-- A C string without its terminating zero. -/
abbrev Path := List UInt8

def slash : UInt8 := 47

def iget (i : Nat) : FsM Unit := Prog.perform (FsAct.iget i)

def ilock (i : Nat) : FsM Unit := Prog.perform (FsAct.ilock i)

def iunlock (i : Nat) : FsM Unit := Prog.perform (FsAct.iunlock i)

def iput (i : Nat) : FsM Unit := do
  if ← Prog.perform (FsAct.iputTest i) then Prog.perform (FsAct.iputFree i)
  Prog.perform (FsAct.iputDrop i)

def readInode (i : Nat) : FsM Fields := Prog.perform (FsAct.read i)

def kpanic {α : Type} (e : FsPanic) : FsM α := .act (.panic e) nofun

def iunlockput (i : Nat) : FsM Unit := do
  iunlock i
  iput i

/-- The next element of a path and what follows it, without leading slashes. -/
def skipelem (path : Path) : Option (Name × Path) :=
  let s := path.dropWhile (· == slash)
  if s = [] then none
  else some ((s.takeWhile (· != slash)).take DIRSIZ,
    (s.dropWhile (· != slash)).dropWhile (· == slash))

def pathElemsFrom : Nat → Path → List Name
  | 0, _ => []
  | fuel + 1, path =>
    match skipelem path with
    | none => []
    | some (name, rest) => name :: pathElemsFrom fuel rest

/-- The elements that repeated calls of `skipelem` find. -/
def pathElems (path : Path) : List Name := pathElemsFrom path.length path

theorem skipelem_length {path rest : Path} {name : Name} (h : skipelem path = some (name, rest)) :
    rest.length < path.length := by
  simp only [skipelem] at h
  split_ifs at h with hs
  obtain ⟨-, rfl⟩ := Prod.mk.inj (Option.some.inj h)
  have hpath := (path.dropWhile_suffix (· == slash)).length_le
  have hrest := ((path.dropWhile (· == slash)).dropWhile (· != slash)).dropWhile_suffix (· == slash)
    |>.length_le
  obtain ⟨c, s, hc⟩ := List.exists_cons_of_ne_nil hs
  have hfirst : c ≠ slash := by
    intro he
    have hhead := List.head?_dropWhile_not (· == slash) path
    simp [hc, he] at hhead
  have helem : ((path.dropWhile (· == slash)).dropWhile (· != slash)).length ≤ s.length := by
    rw [hc, List.dropWhile_cons_of_pos (by simpa using hfirst)]
    exact (s.dropWhile_suffix (· != slash)).length_le
  have hlen : (path.dropWhile (· == slash)).length = s.length + 1 := by rw [hc]; rfl
  omega

theorem pathElemsFrom_eq {fuel fuel' : Nat} {path : Path} (h : path.length ≤ fuel)
    (h' : path.length ≤ fuel') : pathElemsFrom fuel path = pathElemsFrom fuel' path := by
  induction fuel generalizing path fuel' with
  | zero =>
    obtain rfl := List.length_eq_zero_iff.mp (Nat.le_zero.mp h)
    cases fuel' <;> rfl
  | succ fuel ih =>
    cases fuel' with
    | zero =>
      obtain rfl := List.length_eq_zero_iff.mp (Nat.le_zero.mp h')
      rfl
    | succ fuel' =>
      simp only [pathElemsFrom]
      cases hs : skipelem path with
      | none => rfl
      | some e =>
        have hlen : e.2.length < path.length := skipelem_length hs
        simp only [List.cons.injEq, true_and]
        exact ih (by omega) (by omega)

/-- `pathElems` is the loop of `namex`: it stops exactly where `skipelem` finds nothing more. -/
theorem pathElems_eq (path : Path) :
    pathElems path =
      match skipelem path with
      | none => []
      | some (name, rest) => name :: pathElems rest := by
  unfold pathElems
  rw [pathElemsFrom_eq (Nat.le_refl _) (Nat.le_succ _), pathElemsFrom]
  cases hs : skipelem path with
  | none => rfl
  | some e =>
    have hlen : e.2.length < path.length := skipelem_length hs
    simp only [List.cons.injEq, true_and]
    exact pathElemsFrom_eq (by omega) (Nat.le_refl _)

/-- The loop of `dirlookup`: inode number and slot of the first entry with the name. -/
def dirSearch (name : Name) : List Dirent → Nat → Option (Nat × Nat)
  | [], _ => none
  | de :: ents, off =>
    if de.inum = 0 then dirSearch name ents (off + 1)
    else if name = de.name then some (de.inum, off)
    else dirSearch name ents (off + 1)

def dirlookup (dp : Nat) (name : Name) : FsM (Option (Nat × Nat)) := do
  let d ← readInode dp
  if d.type ≠ .dir then kpanic .dirlookupNotDir
  else match dirSearch name d.ents 0 with
    | none => pure none
    | some (inum, off) => do
      iget inum
      pure (some (inum, off))

/-- The loop of `dirlink` that looks for an empty dirent. -/
def emptySlot (ents : List Dirent) : Nat := ents.findIdx fun de => de.inum == 0

def dirlink (dp : Nat) (name : Name) (inum : Nat) : FsM Int := do
  match ← dirlookup dp name with
  | some (ip, _) => do
    iput ip
    pure (-1)
  | none => do
    let d ← readInode dp
    -- `de.inum` is a `ushort`.
    let ok ← Prog.perform (FsAct.writeDirent dp (emptySlot d.ents) ⟨inum % 65536, name⟩)
    if ok then pure 0 else kpanic .dirlink

/-- The loop of `isdirempty`, which starts at the third dirent. -/
def isdirempty (ents : List Dirent) : Bool := (ents.drop 2).all fun de => de.inum == 0

/-- The loop of `namex`, with the name that the last `skipelem` has copied. -/
def namexFrom (nameiparent : Bool) : List Name → Nat → Name → FsM (Option (Nat × Name))
  | [], ip, name =>
    if nameiparent then do
      iput ip
      pure none
    else pure (some (ip, name))
  | name :: rest, ip, _ => do
    ilock ip
    let d ← readInode ip
    if d.type ≠ .dir then do
      iunlockput ip
      pure none
    else if nameiparent && rest.isEmpty then do
      iunlock ip
      pure (some (ip, name))
    else match ← dirlookup ip name with
      | none => do
        iunlockput ip
        pure none
      | some (next, _) => do
        iunlockput ip
        namexFrom nameiparent rest next name

def namex (path : Path) (nameiparent : Bool) : FsM (Option (Nat × Name)) := do
  if path.head? = some slash then do
    iget ROOTINO
    namexFrom nameiparent (pathElems path) ROOTINO []
  else do
    let ip ← Prog.perform FsAct.idupCwd
    namexFrom nameiparent (pathElems path) ip []

def namei (path : Path) : FsM (Option Nat) := do
  match ← namex path false with
  | none => pure none
  | some (ip, _) => pure (some ip)

def nameiparent (path : Path) : FsM (Option (Nat × Name)) := namex path true

def iallocFrom (type : InodeType) : List Nat → FsM Nat
  | [] => kpanic .iallocNoInodes
  | inum :: rest => do
    let ok ← Prog.perform (FsAct.claim inum type)
    if ok then do
      iget inum
      pure inum
    else iallocFrom type rest

def ialloc (ninodes : Nat) (type : InodeType) : FsM Nat :=
  iallocFrom type (List.range' 1 (ninodes - 1))

def sysLink (old new : Path) : FsM Int := do
  match ← namei old with
  | none => pure (-1)
  | some ip => do
    ilock ip
    let n ← readInode ip
    if n.type = .dir then do
      iunlockput ip
      pure (-1)
    else do
      Prog.perform (FsAct.incLink ip)
      iunlock ip
      match ← nameiparent new with
      | none => bad ip
      | some (dp, name) => do
        ilock dp
        if (← dirlink dp name ip) < 0 then do
          iunlockput dp
          bad ip
        else do
          iunlockput dp
          iput ip
          pure 0
where
  /-- The label `bad` of `sys_link`. -/
  bad (ip : Nat) : FsM Int := do
    ilock ip
    Prog.perform (FsAct.decLink ip)
    iunlockput ip
    pure (-1)

def sysUnlink (path : Path) : FsM Int := do
  match ← nameiparent path with
  | none => pure (-1)
  | some (dp, name) => do
    ilock dp
    if name = dot ∨ name = dotdot then bad dp
    else match ← dirlookup dp name with
      | none => bad dp
      | some (ip, off) => do
        ilock ip
        let n ← readInode ip
        if n.nlink < 1 then kpanic .unlinkNlink
        else if n.type = .dir ∧ isdirempty n.ents = false then do
          iunlockput ip
          bad dp
        else do
          let ok ← Prog.perform (FsAct.writeDirent dp off ⟨0, []⟩)
          if ok then do
            if n.type = .dir then Prog.perform (FsAct.decLink dp)
            iunlockput dp
            Prog.perform (FsAct.decLink ip)
            iunlockput ip
            pure 0
          else kpanic .unlinkWritei
where
  /-- The label `bad` of `sys_unlink`. -/
  bad (dp : Nat) : FsM Int := do
    iunlockput dp
    pure (-1)

/-- The `.` and `..` entries that `create` gives a new directory. -/
def createDots (dp ip : Nat) : FsM Unit := do
  Prog.perform (FsAct.incLink dp)
  if (← dirlink ip dot ip) < 0 then kpanic .createDots
  else if (← dirlink ip dotdot dp) < 0 then kpanic .createDots
  else pure ()

def create (ninodes : Nat) (path : Path) (type : InodeType) (major minor : Int) :
    FsM (Option Nat) := do
  match ← nameiparent path with
  | none => pure none
  | some (dp, name) => do
    ilock dp
    match ← dirlookup dp name with
    | some (ip, _) => do
      iunlockput dp
      ilock ip
      let n ← readInode ip
      if type = .file ∧ n.type = .file then pure (some ip)
      else do
        iunlockput ip
        pure none
    | none => do
      let ip ← ialloc ninodes type
      ilock ip
      Prog.perform (FsAct.initNode ip major minor)
      if type = .dir then createDots dp ip
      if (← dirlink dp name ip) < 0 then kpanic .createDirlink
      else do
        iunlockput dp
        pure (some ip)

def O_RDONLY : Nat := 0

def O_WRONLY : Nat := 1

def O_RDWR : Nat := 2

def O_CREATE : Nat := 0x200

/-- `fileclose` with the `iput` of the last reference. -/
def fileclose (f : FileId) : FsM Unit := do
  match ← Prog.perform (FsAct.fileclose f) with
  | none => pure ()
  | some ip => iput ip

/-- The part of `sys_open` that follows the lookup, with `ip` locked. -/
def openFile (ip omode : Nat) : FsM Int := do
  match ← Prog.perform FsAct.filealloc with
  | none => do
    iunlockput ip
    pure (-1)
  | some f => do
    match ← Prog.perform (FsAct.fdalloc f) with
    | none => do
      fileclose f
      iunlockput ip
      pure (-1)
    | some fd => do
      iunlock ip
      Prog.perform (FsAct.setFile f ip (omode &&& O_WRONLY == 0)
        (omode &&& O_WRONLY != 0 || omode &&& O_RDWR != 0))
      pure fd.val

def sysOpen (ninodes : Nat) (path : Path) (omode : Nat) : FsM Int := do
  if omode &&& O_CREATE ≠ 0 then do
    match ← create ninodes path .file 0 0 with
    | none => pure (-1)
    | some ip => openFile ip omode
  else do
    match ← namei path with
    | none => pure (-1)
    | some ip => do
      ilock ip
      let n ← readInode ip
      if n.type = .dir ∧ omode ≠ O_RDONLY then do
        iunlockput ip
        pure (-1)
      else openFile ip omode

def sysMkdir (ninodes : Nat) (path : Path) : FsM Int := do
  match ← create ninodes path .dir 0 0 with
  | none => pure (-1)
  | some ip => do
    iunlockput ip
    pure 0

def sysMknod (ninodes : Nat) (path : Path) (major minor : Int) : FsM Int := do
  match ← create ninodes path .dev (short major) (short minor) with
  | none => pure (-1)
  | some ip => do
    iunlockput ip
    pure 0

def sysChdir (path : Path) : FsM Int := do
  match ← namei path with
  | none => pure (-1)
  | some ip => do
    ilock ip
    let n ← readInode ip
    if n.type ≠ .dir then do
      iunlockput ip
      pure (-1)
    else do
      iunlock ip
      let cwd ← Prog.perform FsAct.readCwd
      iput cwd
      Prog.perform (FsAct.setCwd (some ip))
      pure 0

def sysClose (fd : Fd) : FsM Int := do
  match ← Prog.perform (FsAct.takeFd fd) with
  | none => pure (-1)
  | some f => do
    fileclose f
    pure 0

/-- The loop of `exit` over its open files. -/
def closeAll : List Fd → FsM Unit
  | [] => pure ()
  | fd :: rest => do
    match ← Prog.perform (FsAct.takeFd fd) with
    | none => closeAll rest
    | some f => do
      fileclose f
      closeAll rest

/-- The part of `exit` that gives back files and the working directory. -/
def sysExit : FsM Int := do
  closeAll (List.finRange NOFILE)
  let cwd ← Prog.perform FsAct.readCwd
  iput cwd
  Prog.perform (FsAct.setCwd none)
  pure 0

inductive Syscall where
  | open (path : Path) (omode : Nat)
  | mkdir (path : Path)
  | mknod (path : Path) (major minor : Int)
  | link (old new : Path)
  | unlink (path : Path)
  | chdir (path : Path)
  | close (fd : Fd)
  | exit

def Syscall.prog (ninodes : Nat) : Syscall → FsM Int
  | .open path omode => sysOpen ninodes path omode
  | .mkdir path => sysMkdir ninodes path
  | .mknod path major minor => sysMknod ninodes path major minor
  | .link old new => sysLink old new
  | .unlink path => sysUnlink path
  | .chdir path => sysChdir path
  | .close fd => sysClose fd
  | .exit => sysExit

variable (P : Type) [DecidableEq P]

/-- The kernel on a disk with `ninodes` inodes; a process that has exited makes no more calls. -/
def fsKernel (ninodes : Nat) : Kernel P (Fs P) FsPanic FsAct FsAct.Res Int Syscall where
  exec := Fs.exec
  prog := Syscall.prog ninodes
  ready s p := (s.cwd p).isSome

end Xv6
