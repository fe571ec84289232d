import Xv6.Dir.Bytes
import Xv6.Dir.Ledger

/-!
# What a call knows of names and types

Rules beside those of `Xv6.Dir.Ledger`: names that are written to directories are path elements, a
file is opened for writing only if its inode was seen not to be a directory, and between `ialloc`
and `ilock` of a new inode a call does nothing but take its reference.
-/

namespace Xv6

open Rules (wp_bind)

structure Note where
  /-- Types of referenced inodes. -/
  known : List (Nat × InodeType)
  /-- An inode that `ialloc` has claimed and that is not locked yet, with its type. -/
  claimed : Option (Nat × InodeType)

/-- The path arguments are C strings: the terminating zero is not part of them. -/
def Syscall.CStrings : Syscall → Prop
  | .open path _ | .mkdir path | .mknod path _ _ | .unlink path | .chdir path => 0 ∉ path
  | .link old new => 0 ∉ old ∧ 0 ∉ new
  | .close _ | .exit => True

instance : (c : Syscall) → Decidable c.CStrings
  | .open path _ | .mkdir path | .mknod path _ _ | .unlink path | .chdir path =>
    inferInstanceAs (Decidable (0 ∉ path))
  | .link old new => inferInstanceAs (Decidable (0 ∉ old ∧ 0 ∉ new))
  | .close _ | .exit => .isTrue trivial

namespace Note

def see (m : Note) (i : Nat) (t : InodeType) : Note := { m with known := (i, t) :: m.known }

def forget (m : Note) (i : Nat) : Note := { m with known := m.known.filter fun x => x.1 ≠ i }

/-- The inode is known not to be a directory. -/
def NotDir (m : Note) (i : Nat) : Prop := ∃ t, (i, t) ∈ m.known ∧ t ≠ .dir

/-- No knowledge is lost and nothing is claimed. -/
structure Grows (m m' : Note) : Prop where
  known : m.known ⊆ m'.known
  claimed : m'.claimed = none

end Note

def noteRules : Rules FsAct FsAct.Res Note where
  pre
    | .iget i, m | .ilock i, m => ∀ x, m.claimed = some x → x.1 = i
    | .writeDirent _ _ de, m =>
      m.claimed = none ∧ de.inum < 65536 ∧ (de.inum ≠ 0 → validName de.name)
    | .setFile _ i _ writable, m => m.claimed = none ∧ (writable = true → m.NotDir i)
    | _, m => m.claimed = none
  post
    | .ilock _, m, _, m' => m' = match m.claimed with
        | none => m
        | some x => ⟨x :: m.known, none⟩
    | .read i, m, r, m' => m' = m.see i r.type
    | .iputTest i, m, _, m' | .iputFree i, m, _, m' | .setFile _ i _ _, m, _, m' => m' = m.forget i
    | .setCwd i, m, _, m' => m' = match i with
        | none => m
        | some j => m.forget j
    | .claim i type, m, r, m' =>
      if r then (∀ x ∈ m.known, x.1 ≠ i) ∧ m' = { m with claimed := some (i, type) } else m' = m
    | _, m, _, m' => m' = m

namespace Note

variable {m : Note} {α : Type}

theorem Grows.refl (h : m.claimed = none) : m.Grows m := ⟨fun _ => id, h⟩

theorem Grows.trans {m' m'' : Note} (h : m.Grows m') (h' : m'.Grows m'') : m.Grows m'' :=
  ⟨fun _ hx => h'.known (h.known hx), h'.claimed⟩

theorem Grows.see {m' : Note} (h : m.Grows m') (i : Nat) (t : InodeType) : m.Grows (m'.see i t) :=
  ⟨fun _ hx => List.mem_cons_of_mem _ (h.known hx), h.claimed⟩

theorem forget_forget (m : Note) (i : Nat) : (m.forget i).forget i = m.forget i := by
  simp [forget, List.filter_filter]

theorem wp_kpanic (e : FsPanic) (Q : α → Note → Prop) (hm : m.claimed = none) :
    noteRules.wp (kpanic e) Q m :=
  ⟨hm, fun r => r.elim⟩

theorem wp_act {a : FsAct} (hpre : noteRules.pre a m) {Q : a.Res → Note → Prop}
    (hQ : ∀ r m', noteRules.post a m r m' → Q r m') : noteRules.wp (Prog.perform a) Q m :=
  ⟨hpre, hQ⟩

theorem wp_readInode (i : Nat) (hm : m.claimed = none) {Q : Fields → Note → Prop}
    (hQ : ∀ n, Q n (m.see i n.type)) :
    noteRules.wp (readInode i) Q m := by
  refine ⟨hm, ?_⟩
  rintro n m' rfl
  exact hQ n

variable {Q : Unit → Note → Prop}

section

variable (i : Nat) (hm : m.claimed = none)
include i hm

theorem wp_ilock (hQ : Q () m) :
    noteRules.wp (ilock i) Q m := by
  refine ⟨fun x hx => by simp [hm] at hx, ?_⟩
  rintro _ m' rfl
  rw [hm]
  exact hQ

theorem wp_iget (hQ : Q () m) :
    noteRules.wp (iget i) Q m := by
  refine ⟨fun x hx => by simp [hm] at hx, ?_⟩
  rintro _ m' rfl
  exact hQ

theorem wp_iunlock (hQ : Q () m) :
    noteRules.wp (iunlock i) Q m := by
  refine ⟨hm, ?_⟩
  rintro _ m' rfl
  exact hQ

theorem wp_iput (hQ : Q () (m.forget i)) :
    noteRules.wp (iput i) Q m := by
  have hdrop : noteRules.wp (Prog.perform (FsAct.iputDrop i)) Q (m.forget i) :=
    ⟨hm, fun _ _ hm' => hm' ▸ hQ⟩
  refine ⟨hm, ?_⟩
  rintro (_ | _) m' rfl
  · exact hdrop
  · refine ⟨hm, ?_⟩
    rintro _ m' rfl
    rwa [forget_forget]

theorem wp_iunlockput (hQ : Q () (m.forget i)) : noteRules.wp (iunlockput i) Q m := by
  rw [iunlockput, wp_bind]
  exact wp_iunlock i (by exact hm) (wp_iput i (by exact hm) hQ)

end

theorem wp_dirlookup (dp : Nat) (name : Name) (hm : m.claimed = none)
    {Q : Option (Nat × Nat) → Note → Prop}
    (hQ : ∀ r m', m.Grows m' → (dp, .dir) ∈ m'.known → Q r m') :
    noteRules.wp (dirlookup dp name) Q m := by
  rw [dirlookup, wp_bind]
  refine wp_readInode dp (by exact hm) fun d => ?_
  have hgrows : m.Grows (m.see dp d.type) := (Grows.refl hm).see dp d.type
  split_ifs with hdir
  · exact wp_kpanic _ _ hm
  · have hknown : (dp, InodeType.dir) ∈ (dp, d.type) :: m.known := by
      rw [not_not.mp hdir]
      exact List.mem_cons_self
    split
    · exact hQ none _ hgrows hknown
    · rw [wp_bind]
      exact wp_iget _ (by exact hm) (hQ _ _ hgrows hknown)

theorem wp_dirlink (dp : Nat) {name : Name} (hname : validName name) (inum : Nat)
    (hm : m.claimed = none) {Q : Int → Note → Prop}
    (hQ : ∀ r m', m'.claimed = none → (0 ≤ r → m.Grows m') → Q r m') :
    noteRules.wp (dirlink dp name inum) Q m := by
  rw [dirlink, wp_bind]
  refine wp_dirlookup dp name (by exact hm) fun r m1 hgrows _ => ?_
  cases r with
  | none =>
    simp only [wp_bind]
    refine wp_readInode dp (by exact hgrows.claimed) fun d => wp_act ?_ ?_
    · exact ⟨hgrows.claimed, Nat.mod_lt _ (by decide), fun _ => hname⟩
    rintro ok m2 rfl
    have hgrows' := hgrows.see dp d.type
    split_ifs
    · exact hQ 0 _ hgrows'.claimed fun _ => hgrows'
    · exact wp_kpanic _ _ hgrows'.claimed
  | some x =>
    simp only [wp_bind]
    exact wp_iput _ (by exact hgrows.claimed) (hQ (-1) _ hgrows.claimed fun h => absurd h (by decide))

theorem wp_namexFrom (parent : Bool) {elems : List Name} (helems : ∀ e ∈ elems, validName e)
    (ip : Nat) (name : Name) (hm : m.claimed = none) {Q : Option (Nat × Name) → Note → Prop}
    (hQ : ∀ r m', m'.claimed = none →
      (parent = true → ∀ x, r = some x → validName x.2) → Q r m') :
    noteRules.wp (namexFrom parent elems ip name) Q m := by
  have hfail {m' : Note} (hm' : m'.claimed = none) : Q none m' :=
    hQ none m' hm' fun _ x hx => by cases hx
  induction elems generalizing ip name m with
  | nil =>
    rw [namexFrom]
    split_ifs with hparent
    · rw [wp_bind]
      exact wp_iput ip (by exact hm) (hfail hm)
    · exact hQ _ m hm fun h => absurd h hparent
  | cons elem rest ih =>
    rw [namexFrom, wp_bind]
    refine wp_ilock ip (by exact hm) ?_
    rw [wp_bind]
    refine wp_readInode ip (by exact hm) fun d => ?_
    split_ifs
    · rw [wp_bind]
      exact wp_iunlockput ip (by exact hm) (hfail hm)
    · rw [wp_bind]
      refine wp_iunlock ip (by exact hm) (hQ _ _ hm fun _ x hx => ?_)
      cases hx
      exact helems elem List.mem_cons_self
    · rw [wp_bind]
      refine wp_dirlookup ip elem (by exact hm) fun r m1 hgrows _ => ?_
      cases r with
      | none =>
        rw [wp_bind]
        exact wp_iunlockput ip (by exact hgrows.claimed) (hfail hgrows.claimed)
      | some x =>
        rw [wp_bind]
        exact wp_iunlockput ip (by exact hgrows.claimed)
          (ih (fun e he => helems e (List.mem_cons_of_mem _ he)) x.1 elem hgrows.claimed)

variable {path : Path}

theorem wp_namex (hpath : 0 ∉ path) (parent : Bool) (hm : m.claimed = none)
    {Q : Option (Nat × Name) → Note → Prop}
    (hQ : ∀ r m', m'.claimed = none →
      (parent = true → ∀ x, r = some x → validName x.2) → Q r m') :
    noteRules.wp (namex path parent) Q m := by
  have helems := fun e (he : e ∈ pathElems path) => pathElems_valid hpath he
  rw [namex]
  split_ifs
  · rw [wp_bind]
    exact wp_iget _ (by exact hm) (wp_namexFrom parent helems _ _ (by exact hm) hQ)
  · rw [wp_bind]
    refine wp_act (by exact hm) ?_
    rintro ip m' rfl
    exact wp_namexFrom parent helems _ _ (by exact hm) hQ

theorem wp_namei (hpath : 0 ∉ path) (hm : m.claimed = none) {Q : Option Nat → Note → Prop}
    (hQ : ∀ r m', m'.claimed = none → Q r m') :
    noteRules.wp (namei path) Q m := by
  rw [namei, wp_bind]
  refine wp_namex hpath false (by exact hm) fun r m' hm' _ => ?_
  cases r with
  | none => exact hQ none m' hm'
  | some x => exact hQ (some x.1) m' hm'

theorem wp_iallocFrom (type : InodeType) (inums : List Nat) (hm : m.claimed = none)
    {Q : Nat → Note → Prop}
    (hQ : ∀ i, (∀ x ∈ m.known, x.1 ≠ i) → Q i { m with claimed := some (i, type) }) :
    noteRules.wp (iallocFrom type inums) Q m := by
  induction inums with
  | nil => exact wp_kpanic _ _ hm
  | cons i rest ih =>
    rw [iallocFrom, wp_bind]
    refine wp_act (by exact hm) ?_
    intro ok m' hpost
    cases ok with
    | true =>
      obtain ⟨hnew, rfl⟩ := hpost
      rw [if_pos rfl, wp_bind]
      refine ⟨fun x hx => ?_, ?_⟩
      · cases hx
        rfl
      · rintro _ m'' rfl
        exact hQ i hnew
    | false =>
      obtain rfl := hpost
      exact ih

theorem wp_createDots (dp ip : Nat) (hm : m.claimed = none)
    (hQ : ∀ m', m.Grows m' → Q () m') : noteRules.wp (createDots dp ip) Q m := by
  have hdot : validName dot := by simp [validName, dot, slash, DIRSIZ]
  have hdotdot : validName dotdot := by simp [validName, dotdot, slash, DIRSIZ]
  simp only [createDots, wp_bind]
  refine wp_act (by exact hm) ?_
  rintro _ m' rfl
  refine wp_dirlink _ hdot _ (by exact hm) fun r m1 hm1 hgrows => ?_
  split_ifs with hneg
  · exact wp_kpanic _ _ hm1
  · rw [wp_bind]
    refine wp_dirlink _ hdotdot _ (by exact hm1) fun r' m2 hm2 hgrows' => ?_
    split_ifs with hneg'
    · exact wp_kpanic _ _ hm2
    · exact hQ m2 ((hgrows (by omega)).trans (hgrows' (by omega)))

theorem wp_create (N : Nat) (hpath : 0 ∉ path) (type : InodeType) (major minor : Int)
    (hm : m.claimed = none) {Q : Option Nat → Note → Prop}
    (hnone : ∀ m', m'.claimed = none → Q none m')
    (hsome : ∀ ip m', m'.claimed = none → (type ≠ .dir → m'.NotDir ip) → Q (some ip) m') :
    noteRules.wp (create N path type major minor) Q m := by
  rw [create, wp_bind]
  refine wp_namex hpath true (by exact hm) fun r m1 hm1 hname => ?_
  cases r with
  | none => exact hnone m1 hm1
  | some x =>
    obtain ⟨dp, name⟩ := x
    have hvalid := hname rfl _ rfl
    simp only [wp_bind]
    refine wp_ilock dp (by exact hm1) (wp_dirlookup dp name (by exact hm1) fun r m2 hgrows hdp => ?_)
    have hm2 := hgrows.claimed
    cases r with
    | some x =>
      simp only [wp_bind]
      refine wp_iunlockput dp (by exact hm2) (wp_ilock x.1 (by exact hm2) (wp_readInode x.1 (by exact hm2) fun n => ?_))
      split_ifs with htype
      · refine hsome x.1 _ hm2 fun _ => ⟨n.type, List.mem_cons_self, ?_⟩
        simp [htype.2]
      · rw [wp_bind]
        exact wp_iunlockput _ (by exact hm2) (hnone _ hm2)
    | none =>
      rw [wp_bind]
      refine wp_iallocFrom _ _ (by exact hm2) fun ip hnew => ?_
      simp only [wp_bind]
      refine ⟨fun x hx => ?_, ?_⟩
      · cases hx
        rfl
      rintro _ m3 rfl
      refine wp_act (by rfl) ?_
      rintro _ m3 rfl
      -- `dp` was a directory when `ip` was free, so the `iput` of `dp` is not one of `ip`.
      have hne : ip ≠ dp := (hnew (dp, .dir) hdp).symm
      have hlink {m4 : Note} (hm4 : m4.claimed = none) (hip : (ip, type) ∈ m4.known) :
          noteRules.wp (do
            if (← dirlink dp name ip) < 0 then kpanic .createDirlink
            else do
              iunlockput dp
              pure (some ip)) Q m4 := by
        rw [wp_bind]
        refine wp_dirlink dp hvalid ip (by exact hm4) fun r m5 hm5 hgrows5 => ?_
        split_ifs with hneg
        · exact wp_kpanic _ _ hm5
        · rw [wp_bind]
          refine wp_iunlockput dp (by exact hm5) (hsome ip _ hm5 fun hdir => ⟨type, ?_, hdir⟩)
          exact List.mem_filter.mpr ⟨(hgrows5 (by omega)).known hip, by simpa using hne⟩
      split_ifs
      · rw [wp_bind]
        exact wp_createDots dp ip rfl fun m4 hgrows4 =>
          hlink hgrows4.claimed (hgrows4.known List.mem_cons_self)
      · exact hlink rfl List.mem_cons_self

theorem wp_fileclose (f : FileId) (hm : m.claimed = none)
    (hQ : ∀ m', m'.claimed = none → Q () m') : noteRules.wp (fileclose f) Q m := by
  rw [fileclose, wp_bind]
  refine wp_act (by exact hm) ?_
  rintro (_ | i) m' rfl
  · exact hQ _ hm
  · exact wp_iput i hm (hQ _ hm)

theorem wp_sysLink {old new : Path} (hold : 0 ∉ old) (hnew : 0 ∉ new) (hm : m.claimed = none) :
    noteRules.wp (sysLink old new) (fun _ m => m.claimed = none) m := by
  have hbad (ip : Nat) {m : Note} (hm : m.claimed = none) :
      noteRules.wp (sysLink.bad ip) (fun _ m => m.claimed = none) m := by
    simp only [sysLink.bad, wp_bind]
    refine wp_ilock ip hm (wp_act (by exact hm) ?_)
    rintro _ m' rfl
    exact wp_iunlockput ip hm hm
  rw [sysLink, wp_bind]
  refine wp_namei hold hm fun r m1 hm1 => ?_
  cases r with
  | none => exact hm1
  | some ip =>
    simp only [wp_bind]
    refine wp_ilock ip hm1 (wp_readInode ip hm1 fun n => ?_)
    split_ifs
    · rw [wp_bind]
      exact wp_iunlockput ip (by exact hm1) hm1
    · simp only [wp_bind]
      refine wp_act (by exact hm1) ?_
      rintro _ m2 rfl
      refine wp_iunlock ip (by exact hm1)
        (wp_namex hnew true (by exact hm1) fun r m3 hm3 hname => ?_)
      cases r with
      | none => exact hbad ip hm3
      | some x =>
        simp only [wp_bind]
        refine wp_ilock x.1 hm3 (wp_dirlink x.1 (hname rfl x rfl) ip hm3 fun r m4 hm4 _ => ?_)
        split_ifs
        · rw [wp_bind]
          exact wp_iunlockput x.1 hm4 (hbad ip hm4)
        · simp only [wp_bind]
          exact wp_iunlockput x.1 hm4 (wp_iput ip (by exact hm4) hm4)

theorem wp_sysUnlink (hpath : 0 ∉ path) (hm : m.claimed = none) :
    noteRules.wp (sysUnlink path) (fun _ m => m.claimed = none) m := by
  have hbad (dp : Nat) {m : Note} (hm : m.claimed = none) :
      noteRules.wp (sysUnlink.bad dp) (fun _ m => m.claimed = none) m := by
    rw [sysUnlink.bad, wp_bind]
    exact wp_iunlockput dp hm hm
  rw [sysUnlink, wp_bind]
  refine wp_namex hpath true hm fun r m1 hm1 _ => ?_
  cases r with
  | none => exact hm1
  | some x =>
    obtain ⟨dp, name⟩ := x
    rw [wp_bind]
    refine wp_ilock dp hm1 ?_
    split_ifs
    · exact hbad dp hm1
    rw [wp_bind]
    refine wp_dirlookup dp name hm1 fun r m2 hgrows _ => ?_
    have hm2 := hgrows.claimed
    cases r with
    | none => exact hbad dp hm2
    | some x =>
      obtain ⟨ip, off⟩ := x
      simp only [wp_bind]
      refine wp_ilock ip hm2 (wp_readInode ip hm2 fun n => ?_)
      have htail : noteRules.wp (do
          iunlockput dp
          Prog.perform (FsAct.decLink ip)
          iunlockput ip
          pure (0 : Int)) (fun _ m => m.claimed = none) (m2.see ip n.type) := by
        simp only [wp_bind]
        refine wp_iunlockput dp (by exact hm2) (wp_act (by exact hm2) ?_)
        rintro _ m3 rfl
        exact wp_iunlockput ip (by exact hm2) hm2
      split_ifs
      · exact wp_kpanic _ _ (by exact hm2)
      · rw [wp_bind]
        exact wp_iunlockput ip (by exact hm2) (hbad dp (by exact hm2))
      all_goals
        rw [wp_bind]
        refine wp_act ?_ ?_
        · exact ⟨hm2, by decide, fun h => absurd rfl h⟩
        rintro ok m3 rfl
        cases ok with
        | false => exact wp_kpanic _ _ (by exact hm2)
        | true => _
      · refine wp_act (by exact hm2) ?_
        rintro _ m3 rfl
        exact htail
      · exact htail

theorem wp_openFile (ip omode : Nat) (hm : m.claimed = none)
    (hdir : (omode &&& O_WRONLY != 0 || omode &&& O_RDWR != 0) = true → m.NotDir ip) :
    noteRules.wp (openFile ip omode) (fun _ m => m.claimed = none) m := by
  rw [openFile, wp_bind]
  refine wp_act (by exact hm) ?_
  rintro (_ | f) m1 rfl
  · simp only [wp_bind]
    exact wp_iunlockput ip hm hm
  · simp only [wp_bind]
    refine wp_act (by exact hm) ?_
    rintro (_ | fd) m2 rfl
    · simp only [wp_bind]
      exact wp_fileclose f hm fun m3 hm3 => wp_iunlockput ip hm3 hm3
    · simp only [wp_bind]
      refine wp_iunlock ip hm (wp_act ?_ ?_)
      · exact ⟨hm, hdir⟩
      rintro _ m3 rfl
      exact hm

theorem wp_sysOpen (N : Nat) (hpath : 0 ∉ path) (omode : Nat) (hm : m.claimed = none) :
    noteRules.wp (sysOpen N path omode) (fun _ m => m.claimed = none) m := by
  rw [sysOpen]
  split_ifs
  · rw [wp_bind]
    exact wp_create N hpath _ _ _ hm (fun m' hm' => hm') fun ip m' hm' hdir =>
      wp_openFile ip omode hm' fun _ => hdir (by decide)
  · rw [wp_bind]
    refine wp_namei hpath hm fun r m1 hm1 => ?_
    cases r with
    | none => exact hm1
    | some ip =>
      simp only [wp_bind]
      refine wp_ilock ip hm1 (wp_readInode ip hm1 fun n => ?_)
      split_ifs with hro
      · rw [wp_bind]
        exact wp_iunlockput ip (by exact hm1) hm1
      · refine wp_openFile ip omode (by exact hm1) fun hwr =>
          ⟨n.type, List.mem_cons_self, fun hdir => hro ⟨hdir, ?_⟩⟩
        rintro rfl
        simp [O_RDONLY, O_WRONLY, O_RDWR] at hwr

theorem wp_sysMkdir (N : Nat) (hpath : 0 ∉ path) (hm : m.claimed = none) :
    noteRules.wp (sysMkdir N path) (fun _ m => m.claimed = none) m := by
  rw [sysMkdir, wp_bind]
  refine wp_create N hpath _ _ _ hm (fun m' hm' => hm') fun ip m' hm' _ => ?_
  rw [wp_bind]
  exact wp_iunlockput ip hm' hm'

theorem wp_sysMknod (N : Nat) (hpath : 0 ∉ path) (major minor : Int) (hm : m.claimed = none) :
    noteRules.wp (sysMknod N path major minor) (fun _ m => m.claimed = none) m := by
  rw [sysMknod, wp_bind]
  refine wp_create N hpath _ _ _ hm (fun m' hm' => hm') fun ip m' hm' _ => ?_
  rw [wp_bind]
  exact wp_iunlockput ip hm' hm'

theorem wp_sysChdir (hpath : 0 ∉ path) (hm : m.claimed = none) :
    noteRules.wp (sysChdir path) (fun _ m => m.claimed = none) m := by
  rw [sysChdir, wp_bind]
  refine wp_namei hpath hm fun r m1 hm1 => ?_
  cases r with
  | none => exact hm1
  | some ip =>
    simp only [wp_bind]
    refine wp_ilock ip hm1 (wp_readInode ip hm1 fun n => ?_)
    split_ifs
    · rw [wp_bind]
      exact wp_iunlockput ip (by exact hm1) hm1
    · simp only [wp_bind]
      refine wp_iunlock ip (by exact hm1) (wp_act (by exact hm1) ?_)
      rintro cwd m2 rfl
      refine wp_iput cwd (by exact hm1) (wp_act (by exact hm1) ?_)
      rintro _ m3 rfl
      exact hm1

theorem wp_closeAll (fds : List Fd) (hm : m.claimed = none)
    (hQ : ∀ m', m'.claimed = none → Q () m') : noteRules.wp (closeAll fds) Q m := by
  induction fds generalizing m with
  | nil => exact hQ m hm
  | cons fd rest ih =>
    rw [closeAll, wp_bind]
    refine wp_act (by exact hm) ?_
    rintro (_ | f) m' rfl
    · exact ih hm
    · rw [wp_bind]
      exact wp_fileclose f hm fun m' hm' => ih hm'

theorem wp_syscall (N : Nat) {c : Syscall} (hc : c.CStrings) (hm : m.claimed = none) :
    noteRules.wp (c.prog N) (fun _ m => m.claimed = none) m := by
  cases c with
  | «open» path omode => exact wp_sysOpen N hc omode hm
  | mkdir path => exact wp_sysMkdir N hc hm
  | mknod path major minor => exact wp_sysMknod N hc major minor hm
  | link old new => exact wp_sysLink hc.1 hc.2 hm
  | unlink path => exact wp_sysUnlink hc hm
  | chdir path => exact wp_sysChdir hc hm
  | close fd =>
    rw [Syscall.prog, sysClose, wp_bind]
    refine wp_act (by exact hm) ?_
    rintro (_ | f) m' rfl
    · exact hm
    · rw [wp_bind]
      exact wp_fileclose f hm fun m' hm' => hm'
  | exit =>
    rw [Syscall.prog, sysExit, wp_bind]
    refine wp_closeAll _ hm fun m1 hm1 => ?_
    simp only [wp_bind]
    refine wp_act (by exact hm1) ?_
    rintro cwd m2 rfl
    refine wp_iput cwd hm1 (wp_act (by exact hm1) ?_)
    rintro _ m3 rfl
    exact hm1

end Note

end Xv6
