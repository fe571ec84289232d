import Xv6.Dir.State

/-!
# What the actions do

Each way in which an action of the path-name layer can succeed, with the state it leaves, and each way
in which one can panic.
-/

namespace Xv6

/-- A file after its count and type change. -/
abbrev File.set (ff : File) (ref : Nat) (type : FileType) : File :=
  ⟨ref, type, ff.ip, ff.readable, ff.writable⟩

namespace Fs

variable {P : Type} {s s' : Fs P} {i : Nat} {n : Inode P}

@[simp]
theorem cwd_setInode (s : Fs P) (i : Nat) (n : Inode P) : (s.setInode i n).cwd = s.cwd := rfl

@[simp]
theorem inode_setInode_self (s : Fs P) (i : Nat) (n : Inode P) : (s.setInode i n).inode i = n := by
  simp [setInode]

@[simp]
theorem inode_setInode_ne (s : Fs P) {i j : Nat} (n : Inode P) (h : j ≠ i) :
    (s.setInode i n).inode j = s.inode j := by
  simp [setInode, h]

@[simp]
theorem setInode_self (s : Fs P) (i : Nat) : s.setInode i (s.inode i) = s := by
  simp [setInode]

theorem field_setInode {α : Type} (f : Inode P → α) (h : f n = f (s.inode i)) (j : Nat) :
    f ((s.setInode i n).inode j) = f (s.inode j) := by
  by_cases hj : j = i
  · rw [hj, inode_setInode_self, h]
  · rw [inode_setInode_ne s n hj]

/-- How an action of `p` ends, with its result and the state it leaves. -/
inductive Step [DecidableEq P] (p : P) (s : Fs P) : (a : FsAct) → a.Res → Fs P → Prop where
  | iget (i : Nat) : Step p s (.iget i) () (s.setInode i { s.inode i with
      ref := (s.inode i).ref + 1, valid := (s.inode i).valid && decide (0 < (s.inode i).ref) })
  | idupCwd {i : Nat} (hcwd : s.cwd p = some i) : Step p s .idupCwd i
      (s.setInode i { s.inode i with ref := (s.inode i).ref + 1 })
  | ilock {i : Nat} (href : 0 < (s.inode i).ref) (hlock : (s.inode i).lock = none)
      (htype : (s.inode i).valid = true ∨ (s.inode i).type ≠ .free) : Step p s (.ilock i) ()
      (s.setInode i { s.inode i with lock := some p, valid := true })
  | iunlock (i : Nat) : Step p s (.iunlock i) () (s.setInode i { s.inode i with lock := none })
  | iputKeep {i : Nat} (hlock : (s.inode i).lock = none) (hdying : (s.inode i).dying = false) :
      Step p s (.iputTest i) false s
  | iputDoom {i : Nat} (hlock : (s.inode i).lock = none) (hdying : (s.inode i).dying = true) :
      Step p s (.iputTest i) true (s.setInode i { s.inode i with lock := some p })
  | iputFree (i : Nat) : Step p s (.iputFree i) () (s.iputFree i)
  | iputDrop (i : Nat) : Step p s (.iputDrop i) () (s.iputDrop i)
  | read (i : Nat) :
      Step p s (.read i) ⟨(s.inode i).type, (s.inode i).nlink, (s.inode i).ents⟩ s
  | incLink (i : Nat) : Step p s (.incLink i) ()
      (s.setInode i { s.inode i with nlink := short ((s.inode i).nlink + 1) })
  | decLink (i : Nat) : Step p s (.decLink i) ()
      (s.setInode i { s.inode i with nlink := short ((s.inode i).nlink - 1) })
  | initNode (i : Nat) (major minor : Int) : Step p s (.initNode i major minor) ()
      (s.setInode i { s.inode i with major, minor, nlink := 1 })
  | writeDirent (d slot : Nat) (de : Dirent) : Step p s (.writeDirent d slot de) true
      (s.setInode d { s.inode d with ents := putSlot (s.inode d).ents slot de })
  | unwritten (d slot : Nat) (de : Dirent) : Step p s (.writeDirent d slot de) false s
  | claim {i : Nat} (type : InodeType) (hfree : (s.inode i).type = .free) :
      Step p s (.claim i type) true
        (s.setInode i { s.inode i with type, major := 0, minor := 0, nlink := 0, ents := [] })
  | unclaimed (i : Nat) (type : InodeType) : Step p s (.claim i type) false s
  | filealloc {f : FileId} (hzero : (s.file f).ref = 0) : Step p s .filealloc (some f)
      (s.setFile f ((s.file f).set 1 (s.file f).type))
  | noFile (hfull : ∀ f, (s.file f).ref ≠ 0) : Step p s .filealloc none s
  | fdalloc (f : FileId) {fd : Fd} (hnone : s.ofile p fd = none) : Step p s (.fdalloc f) (some fd)
      (s.setOfile p fd (some f))
  | noFd (f : FileId) (hfull : ∀ fd, s.ofile p fd ≠ none) : Step p s (.fdalloc f) none s
  | closeShared {f : FileId} (href : 1 < (s.file f).ref) : Step p s (.fileclose f) none
      (s.setFile f ((s.file f).set ((s.file f).ref - 1) (s.file f).type))
  | closeInode {f : FileId} (href : (s.file f).ref = 1) (htype : (s.file f).type = .inode) :
      Step p s (.fileclose f) (some (s.file f).ip) (s.setFile f ((s.file f).set 0 .none))
  | closeOther {f : FileId} (href : (s.file f).ref = 1) (htype : (s.file f).type ≠ .inode) :
      Step p s (.fileclose f) none (s.setFile f ((s.file f).set 0 .none))
  | takeFd {fd : Fd} {f : FileId} (hfd : s.ofile p fd = some f) : Step p s (.takeFd fd) (some f)
      (s.setOfile p fd none)
  | closedFd {fd : Fd} (hfd : s.ofile p fd = none) : Step p s (.takeFd fd) none s
  | setFile (f : FileId) (i : Nat) (rd wr : Bool) : Step p s (.setFile f i rd wr) ()
      (s.setFile f ⟨(s.file f).ref, .inode, i, rd, wr⟩)
  | readCwd {i : Nat} (hcwd : s.cwd p = some i) : Step p s .readCwd i s
  | setCwd (i : Option Nat) : Step p s (.setCwd i) () { s with cwd := Function.update s.cwd p i }

theorem exec_step [DecidableEq P] {p : P} {a : FsAct} {r : a.Res}
    (h : s.exec p a = .next (r, s')) : s.Step p a r s' := by
  cases a with
  | iget i =>
    simp only [exec, Fs.iget] at h
    split at h
    · rename_i hpos
      cases h
      simpa [hpos] using Step.iget (p := p) (s := s) i
    · rename_i hpos
      split at h <;> cases h
      simpa [Nat.eq_zero_of_not_pos hpos] using Step.iget (p := p) (s := s) i
  | ilock i =>
    simp only [exec, Fs.ilock] at h
    split at h
    · cases h
    rename_i href
    split at h
    · cases h
    · rename_i hlock
      split at h <;> cases h
      rename_i htype
      refine .ilock (by omega) hlock ?_
      by_cases hv : (s.inode i).valid = true
      · exact .inl hv
      · exact .inr fun hfree => htype ⟨by simpa using hv, hfree⟩
  | iunlock i =>
    simp only [exec, Fs.iunlock] at h
    split_ifs at h
    cases h
    exact .iunlock i
  | iputTest i =>
    simp only [exec, Fs.iputTest] at h
    split at h <;> cases h
    rename_i hlock
    cases hdying : (s.inode i).dying with
    | false => exact .iputKeep hlock hdying
    | true => exact .iputDoom hlock hdying
  | writeDirent d slot de =>
    simp only [exec, Fs.writeDirent] at h
    split_ifs at h <;> cases h
    · exact .unwritten d slot de
    · exact .writeDirent d slot de
  | claim i type =>
    simp only [exec, Fs.claim] at h
    split_ifs at h with hfree <;> cases h
    · exact .claim type hfree
    · exact .unclaimed i type
  | filealloc =>
    simp only [exec, Fs.filealloc] at h
    split at h <;> cases h
    · rename_i hfind
      exact .noFile fun f => by simpa using List.find?_eq_none.mp hfind f (List.mem_finRange f)
    · rename_i f hfind
      exact .filealloc (by simpa using List.find?_some hfind)
  | fdalloc f =>
    simp only [exec, Fs.fdalloc] at h
    split at h <;> cases h
    · rename_i hfind
      exact .noFd f fun fd => by simpa using List.find?_eq_none.mp hfind fd (List.mem_finRange fd)
    · rename_i fd hfind
      exact .fdalloc f (by simpa using List.find?_some hfind)
  | fileclose f =>
    simp only [exec, Fs.fileclose] at h
    split_ifs at h with hzero hshared htype <;> cases h
    · exact .closeShared (by omega)
    · exact .closeInode (by omega) htype
    · exact .closeOther (by omega) htype
  | takeFd fd =>
    simp only [exec, Fs.takeFd] at h
    split at h <;> cases h
    · exact .closedFd ‹_›
    · exact .takeFd ‹_›
  | idupCwd =>
    simp only [exec] at h
    split at h <;> cases h
    exact .idupCwd ‹_›
  | readCwd =>
    simp only [exec] at h
    split at h <;> cases h
    exact .readCwd ‹_›
  | panic e => cases h
  | _ =>
    cases h
    constructor

/-- The actions that panic. -/
inductive Panics (s : Fs P) : FsAct → FsPanic → Prop where
  | called (e : FsPanic) : Panics s (.panic e) e
  | iget (i : Nat) : Panics s (.iget i) .igetNoInodes
  | ilock (i : Nat) : Panics s (.ilock i) .ilock
  | noType {i : Nat} (h : (s.inode i).type = .free) : Panics s (.ilock i) .ilockNoType
  | iunlock (i : Nat) : Panics s (.iunlock i) .iunlock
  | fileclose {f : FileId} (h : (s.file f).ref = 0) : Panics s (.fileclose f) .fileclose

theorem exec_panic [DecidableEq P] {p : P} {a : FsAct} {e : FsPanic}
    (h : s.exec p a = .panic e) : s.Panics a e := by
  cases a with
  | panic e' =>
    cases h
    exact .called e
  | iget i =>
    simp only [exec, Fs.iget] at h
    split at h
    · cases h
    · split at h <;> cases h
      exact .iget i
  | ilock i =>
    simp only [exec, Fs.ilock] at h
    split at h
    · cases h
      exact .ilock i
    split at h
    · cases h
    split at h <;> cases h
    rename_i hfree
    exact .noType hfree.2
  | iunlock i =>
    simp only [exec, Fs.iunlock] at h
    split at h <;> cases h
    exact .iunlock i
  | fileclose f =>
    simp only [exec, Fs.fileclose] at h
    split at h
    · rename_i hzero
      cases h
      exact .fileclose (Nat.lt_one_iff.mp hzero)
    · split at h <;> cases h
  | iputTest i =>
    simp only [exec, Fs.iputTest] at h
    split at h <;> cases h
  | idupCwd | readCwd =>
    simp only [exec] at h
    split at h <;> cases h
  | _ => cases h

end Fs

end Xv6
