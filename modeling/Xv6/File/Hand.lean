import Xv6.Dir.Refs
import Xv6.File.State

/-!
# References in the hands of a call

The rules of `Xv6.Dir.Refs` for the larger set of calls: every call gives back or stores what it takes.
-/

namespace Xv6

open Rules (wp_bind wp_mono)

variable {P : Type}

namespace Hand

/-- Nothing is left to store or give back. -/
structure Clear (l : Hand P) : Prop where
  refs : l.refs = 0
  cwd : l.cwd = false
  files : l.files = 0
  fresh : l.fresh = 0
  debt : l.debt = none
  child : l.child = none

theorem Clear.idle : (Hand.idle : Hand P).Clear := ⟨rfl, rfl, rfl, rfl, rfl, rfl⟩

@[simp]
theorem cwd_addRef (l : Hand P) (i : Nat) : (l.addRef i).cwd = l.cwd := rfl

@[simp]
theorem files_addRef (l : Hand P) (i : Nat) : (l.addRef i).files = l.files := rfl

@[simp]
theorem fresh_addRef (l : Hand P) (i : Nat) : (l.addRef i).fresh = l.fresh := rfl

end Hand

def handRules (P : Type) : Rules (FileAct P) FileAct.Res (Hand P) where
  pre
    | .fs a, l => (handFsRules P).pre a l
    | .argfd _, _ => True
    | .filedup f, l => ∃ fd, l.slot = some (fd, f)
    | .clearFd fd, l => l.debt = none ∧ ∃ f, l.slot = some (fd, f)
    | .setPipe f _ _, l => f ∈ l.fresh
    | .allocproc _, l | .reap _, l => l.child = none
    | .freeproc np, l => l.child = some np ∧ ∀ fd, fd ∈ l.todo
    | .setOfile np fd f, l => l.child = some np ∧ fd ∈ l.todo ∧ f ∈ l.files ∧ l.fresh = 0
    | .publish np ip, l => l.child = some np ∧ ip ∈ l.refs
    | .zombie, l => l.Clear ∧ l.gone = true ∧ ∀ fd, fd ∈ l.closed
    | .trapret, l => l.Clear ∧ l.gone = false
  post
    | .fs a, l, r, l' => (handFsRules P).post a l r l'
    | .argfd fd, l, r, l' => l' = match r with
        | none => l
        | some f => { l with slot := some (fd, f) }
    | .filedup f, l, _, l' =>
      l' = if l.debt = some f then { l with debt := none } else l.addFile f
    | .clearFd fd, l, _, l' => ∀ f, l.slot = some (fd, f) → l' = { l.addFile f with slot := none }
    | .setPipe f _ _, l, _, l' => l' = { l with fresh := l.fresh.erase f }
    | .allocproc np, l, r, l' =>
      l' = if r then { l with child := some np, todo := List.finRange NOFILE } else l
    | .freeproc _, l, _, l' => l' = { l with child := none, todo := [] }
    | .setOfile _ fd f, l, _, l' => l' = { l.dropFile f with todo := l.todo.filter (· ≠ fd) }
    | .publish _ ip, l, _, l' => l' = { l.dropRef ip with child := none, todo := [] }
    | .zombie, _, _, l' | .trapret, _, _, l' => l' = .idle
    | .reap _, l, _, l' => l' = l

theorem wp_onFs {α : Type} {t : FsM α} {Q : α → Hand P → Prop} {l : Hand P}
    (h : (handFsRules P).wp t Q l) : (handRules P).wp (onFs t) Q l := by
  unfold onFs
  exact Rules.wp_embed (handFsRules P) (T := handRules P) (fun _ _ => id) (fun _ _ _ _ => id) h

namespace Hand

variable {l : Hand P} {α : Type}

theorem wp_kpanic {e : FsPanic} (he : e ≠ .fileclose) (Q : α → Hand P → Prop) (l : Hand P) :
    (handFsRules P).wp (kpanic e) Q l :=
  ⟨he, fun r => r.elim⟩

theorem wp_act {a : FsAct} (hpre : (handFsRules P).pre a l) {Q : a.Res → Hand P → Prop}
    (hQ : ∀ r l', (handFsRules P).post a l r l' → Q r l') :
    (handFsRules P).wp (Prog.perform a) Q l :=
  ⟨hpre, hQ⟩

theorem wp_readInode (i : Nat) {Q : Fields → Hand P → Prop} (hQ : ∀ n, Q n l) :
    (handFsRules P).wp (readInode i) Q l := by
  refine ⟨trivial, ?_⟩
  rintro n l' rfl
  exact hQ n

variable {Q : Unit → Hand P → Prop}

theorem wp_ilock (i : Nat) (hQ : Q () l) :
    (handFsRules P).wp (ilock i) Q l := by
  refine ⟨trivial, ?_⟩
  rintro _ l' rfl
  exact hQ

theorem wp_iunlock (i : Nat) (hQ : Q () l) :
    (handFsRules P).wp (iunlock i) Q l := by
  refine ⟨trivial, ?_⟩
  rintro _ l' rfl
  exact hQ

theorem wp_iput {i : Nat} (hi : i ∈ l.refs) (hQ : Q () (l.dropRef i)) :
    (handFsRules P).wp (iput i) Q l := by
  have hdrop : (handFsRules P).wp (Prog.perform (FsAct.iputDrop i)) Q l :=
    ⟨hi, fun _ _ hl => hl ▸ hQ⟩
  refine ⟨trivial, ?_⟩
  rintro (_ | _) l' rfl
  · exact hdrop
  · exact ⟨trivial, fun _ _ hl => hl ▸ hdrop⟩

theorem wp_iunlockput {i : Nat} (hi : i ∈ l.refs)
    (hQ : Q () (l.dropRef i)) : (handFsRules P).wp (iunlockput i) Q l := by
  rw [iunlockput, wp_bind]
  exact wp_iunlock i (wp_iput hi hQ)

theorem wp_iunlockput_self (i : Nat) (hQ : Q () l) :
    (handFsRules P).wp (iunlockput i) Q (l.addRef i) :=
  wp_iunlockput (by simp) (by simpa using hQ)

theorem wp_dirlookup (dp : Nat) (name : Name) {Q : Option (Nat × Nat) → Hand P → Prop}
    (hnone : Q none l) (hsome : ∀ i k, Q (some (i, k)) (l.addRef i)) :
    (handFsRules P).wp (dirlookup dp name) Q l := by
  rw [dirlookup, wp_bind]
  refine wp_readInode dp fun d => ?_
  split_ifs
  · exact wp_kpanic (by decide) _ _
  · split
    · exact hnone
    · rename_i i k _
      refine ⟨trivial, ?_⟩
      rintro _ l' rfl
      exact hsome i k

theorem wp_dirlink (dp : Nat) (name : Name) (inum : Nat) {Q : Int → Hand P → Prop}
    (hQ : ∀ r, Q r l) : (handFsRules P).wp (dirlink dp name inum) Q l := by
  rw [dirlink, wp_bind]
  refine wp_dirlookup dp name ?_ fun i k => ?_
  · simp only [wp_bind]
    refine wp_readInode dp fun d => wp_act ?_ ?_
    · trivial
    rintro ok l' rfl
    split_ifs
    · exact hQ 0
    · exact wp_kpanic (by decide) _ _
  · simp only [wp_bind]
    exact wp_iput (by simp) (by simpa using hQ (-1))

theorem wp_namexFrom (parent : Bool) (elems : List Name) (ip : Nat) (name : Name)
    {Q : Option (Nat × Name) → Hand P → Prop} (hnone : Q none l)
    (hsome : ∀ ip' name', Q (some (ip', name')) (l.addRef ip')) :
    (handFsRules P).wp (namexFrom parent elems ip name) Q (l.addRef ip) := by
  induction elems generalizing ip name with
  | nil =>
    rw [namexFrom]
    split_ifs
    · rw [wp_bind]
      exact wp_iput (by simp) (by simpa using hnone)
    · exact hsome ip name
  | cons elem rest ih =>
    rw [namexFrom, wp_bind]
    refine wp_ilock ip ?_
    rw [wp_bind]
    refine wp_readInode ip fun d => ?_
    split_ifs
    · rw [wp_bind]
      exact wp_iunlockput_self ip hnone
    · rw [wp_bind]
      exact wp_iunlock ip (hsome ip elem)
    · rw [wp_bind]
      refine wp_dirlookup ip elem ?_ fun next k => ?_
      · rw [wp_bind]
        exact wp_iunlockput_self ip hnone
      · rw [wp_bind]
        exact wp_iunlockput (by simp) (by simpa using ih next elem)

theorem wp_namex (hcwd : l.cwd = false) (path : Path) (parent : Bool)
    {Q : Option (Nat × Name) → Hand P → Prop} (hnone : Q none l)
    (hsome : ∀ ip name, Q (some (ip, name)) (l.addRef ip)) :
    (handFsRules P).wp (namex path parent) Q l := by
  rw [namex]
  split_ifs
  · rw [wp_bind]
    refine ⟨trivial, ?_⟩
    rintro _ l' rfl
    exact wp_namexFrom parent _ _ _ hnone hsome
  · rw [wp_bind]
    refine ⟨hcwd, ?_⟩
    rintro ip l' rfl
    exact wp_namexFrom parent _ _ _ hnone hsome

theorem wp_namei (hcwd : l.cwd = false) (path : Path) {Q : Option Nat → Hand P → Prop}
    (hnone : Q none l) (hsome : ∀ ip, Q (some ip) (l.addRef ip)) :
    (handFsRules P).wp (namei path) Q l := by
  rw [namei, wp_bind]
  exact wp_namex hcwd path false hnone fun ip _ => hsome ip

theorem wp_iallocFrom (type : InodeType) (inums : List Nat) {Q : Nat → Hand P → Prop}
    (hQ : ∀ i, Q i (l.addRef i)) : (handFsRules P).wp (iallocFrom type inums) Q l := by
  induction inums with
  | nil => exact wp_kpanic (by decide) _ _
  | cons i rest ih =>
    rw [iallocFrom, wp_bind]
    refine wp_act ?_ ?_
    · trivial
    rintro ok l' rfl
    split_ifs
    · refine ⟨trivial, ?_⟩
      rintro _ l' rfl
      exact hQ i
    · exact ih

theorem wp_createDots (dp ip : Nat) (hQ : Q () l) :
    (handFsRules P).wp (createDots dp ip) Q l := by
  simp only [createDots, wp_bind]
  refine ⟨trivial, ?_⟩
  rintro _ l' rfl
  refine wp_dirlink _ _ _ fun r => ?_
  split_ifs
  · exact wp_kpanic (by decide) _ _
  · rw [wp_bind]
    refine wp_dirlink _ _ _ fun r => ?_
    split_ifs
    · exact wp_kpanic (by decide) _ _
    · exact hQ

theorem wp_create (hcwd : l.cwd = false) (N : Nat) (path : Path) (type : InodeType)
    (major minor : Int) {Q : Option Nat → Hand P → Prop} (hnone : Q none l)
    (hsome : ∀ ip, Q (some ip) (l.addRef ip)) :
    (handFsRules P).wp (create N path type major minor) Q l := by
  rw [create, wp_bind]
  refine wp_namex hcwd path true hnone fun dp name => ?_
  simp only [wp_bind]
  refine wp_ilock dp (wp_dirlookup dp name ?_ fun ip k => ?_)
  · rw [wp_bind]
    refine wp_iallocFrom _ _ fun ip => ?_
    simp only [wp_bind]
    refine wp_ilock ip ⟨trivial, ?_⟩
    rintro _ l' rfl
    have hlink : (handFsRules P).wp (do
        if (← dirlink dp name ip) < 0 then kpanic .createDirlink
        else do
          iunlockput dp
          pure (some ip)) Q ((l.addRef dp).addRef ip) := by
      rw [wp_bind]
      refine wp_dirlink _ _ _ fun r => ?_
      split_ifs
      · exact wp_kpanic (by decide) _ _
      · rw [wp_bind]
        exact wp_iunlockput (by simp) (by simpa using hsome ip)
    split_ifs
    · rw [wp_bind]
      exact wp_createDots dp ip hlink
    · exact hlink
  · simp only [wp_bind]
    refine wp_iunlockput (by simp) ?_
    rw [dropRef_addRef_addRef]
    refine wp_ilock ip (wp_readInode ip fun n => ?_)
    split_ifs
    · exact hsome ip
    · rw [wp_bind]
      exact wp_iunlockput_self ip hnone

theorem wp_fileclose {f : FileId} (hf : f ∈ l.files)
    (hQ : Q () { l.dropFile f with fresh := l.fresh.erase f }) :
    (handFsRules P).wp (fileclose f) Q l := by
  rw [fileclose, wp_bind]
  refine ⟨hf, ?_⟩
  rintro (_ | i) l' rfl
  · exact hQ
  · refine wp_iput (i := i) ?_ ?_
    · simp [addRef]
    · simpa [addRef, dropRef, dropFile] using hQ

theorem wp_sysLink (old new : Path) :
    (handFsRules P).wp (sysLink old new) (fun _ l => l = .idle) .idle := by
  have hbad (ip : Nat) : (handFsRules P).wp (sysLink.bad ip) (fun _ l => l = .idle)
      (idle.addRef ip) := by
    simp only [sysLink.bad, wp_bind]
    refine wp_ilock ip ⟨trivial, ?_⟩
    rintro _ l' rfl
    exact wp_iunlockput_self ip rfl
  rw [sysLink, wp_bind]
  refine wp_namei rfl old rfl fun ip => ?_
  simp only [wp_bind]
  refine wp_ilock ip (wp_readInode ip fun n => ?_)
  split_ifs
  · rw [wp_bind]
    exact wp_iunlockput_self ip rfl
  · simp only [wp_bind]
    refine ⟨trivial, ?_⟩
    rintro _ l' rfl
    refine wp_iunlock ip (wp_namex rfl new true (hbad ip) fun dp name => ?_)
    simp only [wp_bind]
    refine wp_ilock dp (wp_dirlink dp name ip fun r => ?_)
    split_ifs
    · rw [wp_bind]
      exact wp_iunlockput_self dp (hbad ip)
    · simp only [wp_bind]
      exact wp_iunlockput_self dp (wp_iput (by simp) (by simp))

theorem wp_sysUnlink (path : Path) :
    (handFsRules P).wp (sysUnlink path) (fun _ l => l = .idle) .idle := by
  rw [sysUnlink, wp_bind]
  refine wp_namex rfl path true rfl fun dp name => ?_
  rw [wp_bind]
  refine wp_ilock dp ?_
  have hbad : (handFsRules P).wp (sysUnlink.bad dp) (fun _ l => l = .idle) (idle.addRef dp) := by
    rw [sysUnlink.bad, wp_bind]
    exact wp_iunlockput_self dp rfl
  split_ifs
  · exact hbad
  · rw [wp_bind]
    refine wp_dirlookup dp name hbad fun ip off => ?_
    simp only [wp_bind]
    refine wp_ilock ip (wp_readInode ip fun n => ?_)
    have htail : (handFsRules P).wp (do
        iunlockput dp
        Prog.perform (FsAct.decLink ip)
        iunlockput ip
        pure (0 : Int)) (fun _ l => l = .idle) ((idle.addRef dp).addRef ip) := by
      simp only [wp_bind]
      refine wp_iunlockput (by simp) ⟨trivial, ?_⟩
      rintro _ l' rfl
      rw [dropRef_addRef_addRef]
      exact wp_iunlockput_self ip rfl
    split_ifs
    · exact wp_kpanic (by decide) _ _
    · rw [wp_bind]
      exact wp_iunlockput_self ip hbad
    all_goals
      rw [wp_bind]
      refine ⟨trivial, ?_⟩
      rintro ok l' rfl
      cases ok with
      | false => exact wp_kpanic (by decide) _ _
      | true => _
    · refine ⟨trivial, ?_⟩
      rintro _ l' rfl
      exact htail
    · exact htail

theorem wp_openFile (ip omode : Nat) :
    (handFsRules P).wp (openFile ip omode) (fun _ l => l.Clear ∧ l.gone = false)
      (idle.addRef ip) := by
  rw [openFile, wp_bind]
  refine wp_act ?_ ?_
  · trivial
  rintro (_ | f) l1 rfl
  · simp only [wp_bind]
    exact wp_iunlockput_self ip ⟨.idle, rfl⟩
  · simp only [wp_bind]
    refine wp_act ?_ ?_
    · exact .inl (by simp [addFile])
    rintro (_ | fd) l2 rfl
    · simp only [wp_bind]
      refine wp_fileclose (by simp [addFile]) (wp_iunlockput (by simp [addFile, dropFile]) ?_)
      refine ⟨⟨?_, rfl, ?_, ?_, rfl, rfl⟩, rfl⟩ <;>
        simp [addFile, dropFile, dropRef, addRef, idle]
    · simp only [wp_bind]
      rw [if_pos (by simp [addFile])]
      refine wp_iunlock ip (wp_act ?_ ?_)
      · simp [addFile, dropFile, addRef, handFsRules]
      rintro _ l3 rfl
      refine ⟨⟨?_, rfl, ?_, ?_, rfl, rfl⟩, rfl⟩ <;>
        simp [addFile, dropFile, dropRef, addRef, idle]

theorem wp_sysChdir (path : Path) :
    (handFsRules P).wp (sysChdir path) (fun _ l => l = .idle) .idle := by
  rw [sysChdir, wp_bind]
  refine wp_namei rfl path rfl fun ip => ?_
  simp only [wp_bind]
  refine wp_ilock ip (wp_readInode ip fun n => ?_)
  split_ifs
  · rw [wp_bind]
    exact wp_iunlockput_self ip rfl
  · simp only [wp_bind]
    refine wp_iunlock ip ⟨rfl, ?_⟩
    rintro c l1 rfl
    refine wp_iput (by simp) (wp_act ?_ ?_)
    · refine ⟨rfl, ?_⟩
      rintro j ⟨rfl⟩
      simp [dropRef, addRef]
    · rintro _ l2 rfl
      simp [dropRef, addRef, idle]

theorem wp_closeFd (fd : Fd) {β : Type} {k : Option FileId → FsM β} {Q : β → Hand P → Prop}
    (hdebt : l.debt = none) (hnone : (handFsRules P).wp (k none) Q { l with closed := fd :: l.closed })
    (hsome : ∀ f, (handFsRules P).wp (k (some f)) Q
      { l.addFile f with slot := none, closed := fd :: l.closed }) :
    (handFsRules P).wp (Prog.perform (FsAct.takeFd fd) >>= k) Q l := by
  rw [wp_bind]
  refine ⟨hdebt, ?_⟩
  rintro (_ | f) l' rfl
  · exact hnone
  · exact hsome f

theorem wp_sysClose (fd : Fd) :
    (handFsRules P).wp (sysClose fd) (fun _ l => l.Clear ∧ l.gone = false) .idle := by
  refine wp_closeFd fd rfl ⟨⟨rfl, rfl, rfl, rfl, rfl, rfl⟩, rfl⟩ fun f => ?_
  simp only [wp_bind]
  refine wp_fileclose (by simp [addFile]) ⟨⟨rfl, rfl, ?_, ?_, rfl, rfl⟩, rfl⟩ <;>
    simp [addFile, dropFile, idle]

theorem wp_closeAll (fds : List Fd) (hl : l.Clear)
    (hQ : ∀ l', l'.Clear → (∀ fd ∈ fds, fd ∈ l'.closed) → (∀ fd ∈ l.closed, fd ∈ l'.closed) →
      Q () l') : (handFsRules P).wp (closeAll fds) Q l := by
  induction fds generalizing l with
  | nil => exact hQ l hl (by simp) fun _ => id
  | cons fd rest ih =>
    have hrest (l1 : Hand P) (h1 : l1.Clear) (hfd : l1.closed = fd :: l.closed) :
        (handFsRules P).wp (closeAll rest) Q l1 := by
      refine ih h1 fun l' hl' hfds hkeep => hQ l' hl' ?_ ?_
      · intro x hx
        rcases List.mem_cons.mp hx with rfl | hx
        · exact hkeep x (by simp [hfd])
        · exact hfds x hx
      · intro x hx
        exact hkeep x (by simp [hfd, hx])
    refine wp_closeFd fd hl.debt (hrest _ ⟨hl.refs, hl.cwd, hl.files, hl.fresh, hl.debt, hl.child⟩ rfl)
      fun f => ?_
    rw [wp_bind]
    refine wp_fileclose (by simp [addFile]) (hrest _ ⟨hl.refs, hl.cwd, ?_, ?_, hl.debt, hl.child⟩ rfl)
    · simpa [addFile, dropFile] using hl.files
    · simp [addFile, hl.fresh]

theorem wp_sysExit : (handFsRules P).wp sysExit
    (fun _ l => l.Clear ∧ l.gone = true ∧ ∀ fd, fd ∈ l.closed) .idle := by
  simp only [sysExit, wp_bind]
  refine wp_closeAll _ .idle fun l hl hfds _ => ⟨hl.cwd, ?_⟩
  rintro c l1 rfl
  refine wp_iput (by simp) ⟨⟨rfl, by simp⟩, ?_⟩
  rintro _ l2 rfl
  exact ⟨⟨by simpa [dropRef, addRef] using hl.refs, rfl, hl.files, hl.fresh, hl.debt, hl.child⟩, rfl,
    fun fd => hfds fd (List.mem_finRange fd)⟩

theorem wp_sysExec (path : Path) (loads stack : Bool) :
    (handFsRules P).wp (sysExec path loads stack) (fun _ l => l = .idle) .idle := by
  rw [sysExec, wp_bind]
  refine wp_namei rfl path rfl fun ip => ?_
  simp only [wp_bind]
  refine wp_ilock ip (wp_readInode ip fun n => ?_)
  split_ifs <;>
  · rw [wp_bind]
    exact wp_iunlockput_self ip rfl

/-- A call gives back everything and is still there. -/
def Done (l : Hand P) : Prop := l.Clear ∧ l.gone = false

theorem Done.idle : (Hand.idle : Hand P).Done := ⟨.idle, rfl⟩

theorem wp_syscall (N : Nat) {c : Syscall} (hc : c ≠ .exit) :
    (handFsRules P).wp (c.prog N) (fun _ l => l.Done) .idle := by
  have hidle {t : FsM Int} (ht : (handFsRules P).wp t (fun _ l => l = .idle) .idle) :
      (handFsRules P).wp t (fun _ l => l.Done) .idle :=
    wp_mono _ ht fun _ l hl => hl ▸ .idle
  cases c with
  | «open» path omode =>
    simp only [Syscall.prog, sysOpen]
    split_ifs
    · rw [wp_bind]
      exact wp_create rfl N path .file 0 0 .idle fun ip => wp_openFile ip omode
    · rw [wp_bind]
      refine wp_namei rfl path .idle fun ip => ?_
      simp only [wp_bind]
      refine wp_ilock ip (wp_readInode ip fun n => ?_)
      split_ifs
      · rw [wp_bind]
        exact wp_iunlockput_self ip .idle
      · exact wp_openFile ip omode
  | mkdir path =>
    simp only [Syscall.prog, sysMkdir, wp_bind]
    refine wp_create rfl N path .dir 0 0 .idle fun ip => ?_
    rw [wp_bind]
    exact wp_iunlockput_self ip .idle
  | mknod path major minor =>
    simp only [Syscall.prog, sysMknod, wp_bind]
    refine wp_create rfl N path .dev _ _ .idle fun ip => ?_
    rw [wp_bind]
    exact wp_iunlockput_self ip .idle
  | link old new => exact hidle (wp_sysLink old new)
  | unlink path => exact hidle (wp_sysUnlink path)
  | chdir path => exact hidle (wp_sysChdir path)
  | close fd => exact wp_sysClose fd
  | exit => exact absurd rfl hc

theorem wp_perform {a : FileAct P} (hpre : (handRules P).pre a l) {Q : a.Res → Hand P → Prop}
    (hQ : ∀ r l', (handRules P).post a l r l' → Q r l') :
    (handRules P).wp (Prog.perform a) Q l :=
  ⟨hpre, hQ⟩

theorem wp_fdalloc {f : FileId} (hf : f ∈ l.files) {Q : Option Fd → Hand P → Prop}
    (hnone : Q none l)
    (hsome : ∀ fd, Q (some fd) { l.dropFile f with slot := some (fd, f), closed := [] }) :
    (handRules P).wp (onFs (Prog.perform (FsAct.fdalloc f))) Q l := by
  refine wp_onFs (wp_act ?_ ?_)
  · exact .inl hf
  rintro (_ | fd) l' rfl
  · exact hnone
  · dsimp only
    rw [if_pos hf]
    exact hsome fd

theorem wp_sysDup (fd : Fd) : (handRules P).wp (sysDup fd) (fun _ l => l.Done) .idle := by
  rw [sysDup, wp_bind]
  refine wp_perform ?_ ?_
  · trivial
  rintro (_ | f) l1 rfl
  · exact .idle
  · simp only [wp_bind]
    refine wp_onFs (wp_act ?_ ?_)
    · exact .inr ⟨rfl, fd, rfl⟩
    rintro (_ | fd') l2 rfl
    · exact ⟨⟨rfl, rfl, rfl, rfl, rfl, rfl⟩, rfl⟩
    · -- The new descriptor is not counted until `filedup`.
      simp only [wp_bind, idle, Multiset.notMem_zero, if_false]
      refine wp_perform ?_ ?_
      · exact ⟨fd, rfl⟩
      rintro _ l3 rfl
      rw [if_pos rfl]
      exact ⟨⟨rfl, rfl, rfl, rfl, rfl, rfl⟩, rfl⟩

/-- Nothing but some files is in the hands of the call. -/
structure Carries (l : Hand P) (files fresh : Multiset FileId) : Prop where
  refs : l.refs = 0
  cwd : l.cwd = false
  files : l.files = files
  fresh : l.fresh = fresh
  debt : l.debt = none
  child : l.child = none
  gone : l.gone = false

theorem Carries.done (h : l.Carries 0 0) : l.Done :=
  ⟨⟨h.refs, h.cwd, h.files, h.fresh, h.debt, h.child⟩, h.gone⟩

theorem Carries.close {files fresh : Multiset FileId} (h : l.Carries files fresh) (f : FileId) :
    Carries { l.dropFile f with fresh := l.fresh.erase f } (files.erase f) (fresh.erase f) :=
  ⟨h.refs, h.cwd, congrArg (Multiset.erase · f) h.files, congrArg (Multiset.erase · f) h.fresh,
    h.debt, h.child, h.gone⟩

theorem erase_pair (a b : FileId) : ({b, a} : Multiset FileId).erase a = {b} := by
  rw [Multiset.insert_eq_cons, Multiset.erase_cons_tail_of_mem (by simp)]
  simp

theorem wp_pipeClose {rf wf : FileId} (fresh : Multiset FileId) (h : l.Carries {wf, rf} fresh)
    (hfresh : (fresh.erase rf).erase wf = 0) (hQ : ∀ l', l'.Done → Q () l') :
    (handRules P).wp (onFs (fileclose rf))
      (fun _ => (handRules P).wp (onFs (fileclose wf)) Q) l := by
  have hclose := h.close rf
  rw [erase_pair] at hclose
  refine wp_onFs (wp_fileclose (by simp [h.files]) (wp_onFs (wp_fileclose ?_ (hQ _ ?_))))
  · change wf ∈ (l.dropFile rf).files
    have hfiles : (l.dropFile rf).files = {wf} := hclose.files
    simp [hfiles]
  · have hdone := hclose.close wf
    rw [hfresh, Multiset.erase_singleton] at hdone
    exact hdone.done

theorem wp_pipealloc (mem : Bool) {Q : Option (FileId × FileId) → Hand P → Prop}
    (hnone : ∀ l, l.Done → Q none l)
    (hsome : ∀ f0 f1 l, l.Carries {f1, f0} 0 → Q (some (f0, f1)) l) :
    (handRules P).wp (pipealloc mem) Q .idle := by
  rw [pipealloc, wp_bind]
  refine wp_onFs (wp_act ?_ ?_)
  · trivial
  rintro (_ | f0) l1 rfl
  · exact hnone _ .idle
  have h1 : Carries { (idle : Hand P).addFile f0 with fresh := f0 ::ₘ 0 } {f0} {f0} :=
    ⟨rfl, rfl, rfl, rfl, rfl, rfl, rfl⟩
  simp only [wp_bind]
  refine wp_onFs (wp_act ?_ ?_)
  · trivial
  rintro (_ | f1) l2 rfl
  · simp only [pipeallocBad, wp_bind]
    have hdone := h1.close f0
    rw [Multiset.erase_singleton] at hdone
    exact wp_onFs (wp_fileclose (by simp [addFile]) (hnone _ hdone.done))
  · split_ifs
    · simp only [wp_bind]
      refine wp_perform ?_ ?_
      · exact Multiset.mem_cons_of_mem (Multiset.mem_singleton_self f0)
      rintro _ l3 rfl
      have hfresh : (f1 ::ₘ f0 ::ₘ (0 : Multiset FileId)).erase f0 = {f1} := erase_pair f0 f1
      refine wp_perform ?_ ?_
      · change f1 ∈ (f1 ::ₘ f0 ::ₘ (0 : Multiset FileId)).erase f0
        rw [hfresh]
        exact Multiset.mem_singleton_self f1
      rintro _ l4 rfl
      refine hsome f0 f1 _ ⟨rfl, rfl, rfl, ?_, rfl, rfl, rfl⟩
      change ((f1 ::ₘ f0 ::ₘ (0 : Multiset FileId)).erase f0).erase f1 = 0
      rw [hfresh, Multiset.erase_singleton]
    · simp only [pipeallocBad, wp_bind]
      refine wp_pipeClose {f1, f0} ⟨rfl, rfl, rfl, rfl, rfl, rfl, rfl⟩ ?_ hnone
      rw [erase_pair, Multiset.erase_singleton]

theorem wp_sysPipe (mem : Bool) : (handRules P).wp (sysPipe mem) (fun _ l => l.Done) .idle := by
  have hbad (rf wf : FileId) (l : Hand P) (hl : l.Carries {wf, rf} 0) :
      (handRules P).wp (sysPipe.bad rf wf) (fun _ l => l.Done) l := by
    simp only [sysPipe.bad, wp_bind]
    exact wp_pipeClose _ hl (by simp) fun l' hl' => hl'
  rw [sysPipe, wp_bind]
  refine wp_pipealloc mem (fun l hl => hl) fun rf wf l hl => ?_
  simp only [wp_bind]
  refine wp_fdalloc (by simp [hl.files]) (hbad rf wf l hl) fun fd0 => ?_
  have hrf : (l.dropFile rf).files = {wf} := by
    change l.files.erase rf = {wf}
    rw [hl.files, erase_pair]
  simp only [wp_bind]
  refine wp_fdalloc (by simp [hrf]) ?_ fun fd1 => ?_
  · simp only [wp_bind]
    refine wp_perform ?_ ?_
    · exact ⟨hl.debt, rf, rfl⟩
    intro _ l3 hl3
    obtain rfl := hl3 rf rfl
    refine hbad rf wf _ ⟨hl.refs, hl.cwd, ?_, hl.fresh, hl.debt, hl.child, hl.gone⟩
    change rf ::ₘ (l.dropFile rf).files = {wf, rf}
    rw [hrf]
    exact Multiset.pair_comm rf wf
  · refine ⟨⟨hl.refs, hl.cwd, ?_, hl.fresh, hl.debt, hl.child⟩, hl.gone⟩
    change (l.dropFile rf).files.erase wf = 0
    rw [hrf, Multiset.erase_singleton]

/-- `fork` in the middle of copying descriptors to the child `np`. -/
structure Forking (l : Hand P) (np : P) : Prop where
  refs : l.refs = 0
  cwd : l.cwd = false
  files : l.files = 0
  fresh : l.fresh = 0
  debt : l.debt = none
  child : l.child = some np
  gone : l.gone = false

theorem wp_forkFiles (np : P) {fds : List Fd} (hl : l.Forking np) (hnodup : fds.Nodup)
    (htodo : ∀ fd ∈ fds, fd ∈ l.todo)
    (hQ : ∀ l', l'.Forking np → Q () l') : (handRules P).wp (forkFiles np fds) Q l := by
  induction fds generalizing l with
  | nil => exact hQ l hl
  | cons fd rest ih =>
    obtain ⟨hfd, hrest⟩ := List.nodup_cons.mp hnodup
    rw [forkFiles, wp_bind]
    refine wp_perform ?_ ?_
    · trivial
    rintro (_ | f) l1 rfl
    · exact ih hl hrest fun x hx => htodo x (List.mem_cons_of_mem _ hx)
    · simp only [wp_bind]
      refine wp_perform ?_ ?_
      · exact ⟨fd, rfl⟩
      rintro _ l2 rfl
      rw [if_neg (by simp [hl.debt])]
      refine wp_perform ?_ ?_
      · exact ⟨hl.child, htodo fd List.mem_cons_self, by simp [addFile], hl.fresh⟩
      rintro _ l3 rfl
      refine ih ⟨hl.refs, hl.cwd, ?_, hl.fresh, hl.debt, hl.child, hl.gone⟩ hrest fun x hx => ?_
      · simp [dropFile, addFile, hl.files]
      · have hne : x ≠ fd := by
          rintro rfl
          exact hfd hx
        exact List.mem_filter.mpr ⟨htodo x (List.mem_cons_of_mem _ hx), by simpa using hne⟩

theorem wp_sysFork (np : P) (mem : Bool) :
    (handRules P).wp (sysFork np mem) (fun _ l => l.Done) .idle := by
  rw [sysFork, wp_bind]
  refine wp_perform ?_ ?_
  · rfl
  rintro (_ | _) l1 rfl
  · exact .idle
  · rw [if_pos rfl, if_pos rfl]
    split_ifs
    · simp only [wp_bind]
      refine wp_forkFiles np ⟨rfl, rfl, rfl, rfl, rfl, rfl, rfl⟩ (List.nodup_finRange _)
        (fun _ => id) fun l hl => ?_
      refine wp_onFs (wp_act ?_ ?_)
      · exact hl.cwd
      rintro cwd l2 rfl
      refine wp_perform ?_ ?_
      · exact ⟨hl.child, by simp⟩
      rintro _ l3 rfl
      exact ⟨⟨by simp [hl.refs], hl.cwd, hl.files, hl.fresh, hl.debt, rfl⟩, hl.gone⟩
    · rw [wp_bind]
      refine wp_perform ?_ ?_
      · exact ⟨rfl, List.mem_finRange⟩
      rintro _ l2 rfl
      exact ⟨⟨rfl, rfl, rfl, rfl, rfl, rfl⟩, rfl⟩

theorem wp_prog (N : Nat) (c : FileCall P) :
    (handRules P).wp (c.prog N) (fun _ l => l = .idle) .idle := by
  have hret {t : FileM P Int} (ht : (handRules P).wp t (fun _ l => l.Done) .idle) :
      (handRules P).wp t (fun r => (handRules P).wp (do
        Prog.perform FileAct.trapret
        pure r) fun _ l => l = .idle) .idle :=
    wp_mono _ ht fun r l hl => ⟨hl, fun _ l' hl' => hl'⟩
  rw [FileCall.prog, wp_bind]
  cases c with
  | fs c =>
    by_cases hc : c = .exit
    · subst hc
      refine wp_mono _ (wp_onFs wp_sysExit) fun r l hl => ?_
      exact ⟨hl, fun _ l' hl' => hl'⟩
    · have hcall := hret (wp_onFs (wp_syscall N hc))
      cases c <;> first | exact hcall | exact absurd rfl hc
  | dup fd => exact hret (wp_sysDup fd)
  | pipe mem => exact hret (wp_sysPipe mem)
  | fork np mem => exact hret (wp_sysFork np mem)
  | exec path loads stack =>
    refine hret (wp_onFs ?_)
    exact wp_mono _ (wp_sysExec path loads stack) fun _ l hl => hl ▸ .idle
  | wait q =>
    refine hret ?_
    simp only [FileCall.body, wp_bind]
    refine wp_perform ?_ ?_
    · trivial
    rintro r l' rfl
    split_ifs <;> exact .idle

end Hand

end Xv6
