import Mathlib.Data.Multiset.Count
import Xv6.Dir.Image

/-!
# Calls on their own

A system call that runs while no other process does.  A call that fails gives back every reference it
has taken and leaves inodes, directories and tables as it found them.
-/

namespace Xv6

open Rules (wp_bind wp_mono)

variable {P : Type}

/-- The parts of the state that a failed call has to leave alone. -/
structure Fs.Same (s s' : Fs P) : Prop where
  type : ∀ i, (s'.inode i).type = (s.inode i).type
  major : ∀ i, (s'.inode i).major = (s.inode i).major
  minor : ∀ i, (s'.inode i).minor = (s.inode i).minor
  nlink : ∀ i, (s'.inode i).nlink = (s.inode i).nlink
  ents : ∀ i, (s'.inode i).ents = (s.inode i).ents
  file : s'.file = s.file
  ofile : s'.ofile = s.ofile
  cwd : s'.cwd = s.cwd

/-- The state differs from `s` by the references that a call holds, and by locks and valid bits. -/
structure Near (s : Fs P) (refs : Multiset Nat) (s' : Fs P) : Prop extends s.Same s' where
  ref : ∀ i, (s'.inode i).ref = (s.inode i).ref + refs.count i

/-- An inode that is allocated has a link or a reference; one that is not has no contents. -/
structure Fs.Held (s : Fs P) : Prop where
  linked : ∀ {i}, (s.inode i).type ≠ .free → (s.inode i).nlink = 0 → 0 < (s.inode i).ref
  leaf : ∀ {i}, (s.inode i).type = .free → (s.inode i).ents = []

/-- Link counts are of type `short`, and entries of the file table that are free have no type. -/
structure Fs.Consistent (s : Fs P) : Prop extends s.Held where
  links : ∀ i, short (s.inode i).nlink = (s.inode i).nlink
  closed : ∀ f, (s.file f).ref = 0 → (s.file f).type = .none

/-- Where a path starts -/
def Fs.start (s : Fs P) (p : P) (path : Path) : Option Nat :=
  if path.head? = some slash then some ROOTINO else s.cwd p

/-- What the loop of `namex` computes -/
def Fs.resolve (s : Fs P) (parent : Bool) : List Name → Nat → Name → Option (Nat × Name)
  | [], i, name => if parent then none else some (i, name)
  | name :: rest, i, _ =>
    if (s.inode i).type ≠ .dir then none
    else if parent && rest.isEmpty then some (i, name)
    else (dirSearch name (s.inode i).ents 0).bind fun e => s.resolve parent rest e.1 name

/-- The path has a parent directory, and no entry there. -/
def Fs.Missing (s : Fs P) (p : P) (path : Path) : Prop :=
  ∃ i d name, s.start p path = some i ∧ s.resolve true (pathElems path) i [] = some (d, name) ∧
    dirSearch name (s.inode d).ents 0 = none

/-- Another file can be opened. -/
def Fs.Room (s : Fs P) (p : P) : Prop := (∃ f, (s.file f).ref = 0) ∧ ∃ fd, s.ofile p fd = none

namespace Near

variable {s s' s'' : Fs P} {refs : Multiset Nat} {i : Nat}

theorem refl (s : Fs P) : Near s 0 s where
  type _ := rfl
  major _ := rfl
  minor _ := rfl
  nlink _ := rfl
  ents _ := rfl
  file := rfl
  ofile := rfl
  cwd := rfl
  ref _ := by simp

section

variable (h : Near s refs s')
include h

theorem setInode_both {refs' : Multiset Nat} {n n' : Inode P} (htype : n'.type = n.type)
    (hmajor : n'.major = n.major) (hminor : n'.minor = n.minor) (hnlink : n'.nlink = n.nlink)
    (hents : n'.ents = n.ents) (href : n'.ref = n.ref + refs'.count i)
    (hothers : ∀ j, j ≠ i → refs'.count j = refs.count j) :
    Near (s.setInode i n) refs' (s'.setInode i n') := by
  have hfield {β : Type} (f : Inode P → β) (hf : f n' = f n)
      (hrest : ∀ j, f (s'.inode j) = f (s.inode j)) (j : Nat) :
      f ((s'.setInode i n').inode j) = f ((s.setInode i n).inode j) := by
    by_cases hj : j = i
    · rw [hj, Fs.inode_setInode_self, Fs.inode_setInode_self, hf]
    · rw [Fs.inode_setInode_ne s' n' hj, Fs.inode_setInode_ne s n hj, hrest]
  refine ⟨⟨hfield Inode.type htype h.type, hfield Inode.major hmajor h.major,
    hfield Inode.minor hminor h.minor, hfield Inode.nlink hnlink h.nlink,
    hfield Inode.ents hents h.ents, h.file, h.ofile, h.cwd⟩, fun j => ?_⟩
  by_cases hj : j = i
  · rw [hj, Fs.inode_setInode_self, Fs.inode_setInode_self, href]
  · rw [Fs.inode_setInode_ne s' n' hj, Fs.inode_setInode_ne s n hj, h.ref, hothers j hj]

theorem setInode {n : Inode P} {refs' : Multiset Nat} (htype : n.type = (s'.inode i).type)
    (hmajor : n.major = (s'.inode i).major) (hminor : n.minor = (s'.inode i).minor)
    (hnlink : n.nlink = (s'.inode i).nlink) (hents : n.ents = (s'.inode i).ents)
    (href : n.ref = (s.inode i).ref + refs'.count i)
    (hothers : ∀ j, j ≠ i → refs'.count j = refs.count j) : Near s refs' (s'.setInode i n) := by
  rw [← Fs.setInode_self s i]
  exact h.setInode_both (htype.trans (h.type i)) (hmajor.trans (h.major i))
    (hminor.trans (h.minor i)) (hnlink.trans (h.nlink i)) (hents.trans (h.ents i)) href hothers

theorem addRef {n : Inode P} (hn : n.ref = (s'.inode i).ref + 1)
    (htype : n.type = (s'.inode i).type) (hmajor : n.major = (s'.inode i).major)
    (hminor : n.minor = (s'.inode i).minor) (hnlink : n.nlink = (s'.inode i).nlink)
    (hents : n.ents = (s'.inode i).ents) : Near s (i ::ₘ refs) (s'.setInode i n) := by
  refine h.setInode htype hmajor hminor hnlink hents ?_ fun j hj => Multiset.count_cons_of_ne hj _
  rw [hn, h.ref, Multiset.count_cons_self]
  exact Nat.add_assoc _ _ _

theorem relock {lock : Option P} {valid : Bool} :
    Near s refs (s'.setInode i { s'.inode i with lock, valid }) :=
  h.setInode rfl rfl rfl rfl rfl (h.ref i) fun _ _ => rfl

end

/-- `iput` decides to free nothing: the inode has a link or another reference. -/
theorem free_of_dying (hs : s.Held) (h : Near s refs s') (hi : i ∈ refs)
    (hdying : (s'.inode i).dying = true) : (s.inode i).type = .free := by
  simp only [Inode.dying, Bool.and_eq_true, beq_iff_eq] at hdying
  obtain ⟨⟨_, hzero⟩, hone⟩ := hdying
  by_contra halloc
  have hpos := hs.linked halloc ((h.nlink i).symm.trans hzero)
  have hcount := Multiset.count_pos.mpr hi
  rw [h.ref] at hone
  omega

theorem of_iputFree (hs : s.Held) (h : Near s refs s') (hfree : (s.inode i).type = .free) :
    Near s refs (s'.iputFree i) := by
  refine h.setInode ?_ rfl rfl rfl ?_ (h.ref i) fun _ _ => rfl
  · exact ((h.type i).trans hfree).symm
  · exact ((h.ents i).trans (hs.leaf hfree)).symm

theorem of_iputDrop (h : Near s refs s') (hi : i ∈ refs) : Near s (refs.erase i) (s'.iputDrop i) := by
  refine h.setInode rfl rfl rfl rfl rfl ?_ fun j hj => Multiset.count_erase_of_ne hj _
  have hcount := Multiset.count_pos.mpr hi
  simp only [h.ref, Multiset.count_erase_self]
  omega

/-- The state with the link and the reference that `sys_link` adds to its inode at first. -/
def bump (s : Fs P) (i : Nat) : Fs P :=
  s.setInode i { s.inode i with
    nlink := short ((s.inode i).nlink + 1), ref := (s.inode i).ref + 1 }

theorem held_bump (hs : s.Held) (i : Nat) : (bump s i).Held where
  linked {j} halloc hzero := by
    by_cases hj : j = i
    · rw [hj, bump, Fs.inode_setInode_self]
      exact Nat.succ_pos _
    · rw [bump, Fs.inode_setInode_ne s _ hj] at halloc hzero ⊢
      exact hs.linked halloc hzero
  leaf {j} hfree := by
    by_cases hj : j = i
    · rw [hj, bump, Fs.inode_setInode_self] at hfree ⊢
      exact hs.leaf hfree
    · rw [bump, Fs.inode_setInode_ne s _ hj] at hfree ⊢
      exact hs.leaf hfree

theorem of_incLink (h : Near s {i} s') : Near (bump s i) 0
    (s'.setInode i { s'.inode i with nlink := short ((s'.inode i).nlink + 1) }) := by
  refine h.setInode_both (h.type i) (h.major i) (h.minor i) ?_ (h.ents i) ?_ ?_
  · rw [h.nlink]
  · simp [h.ref]
  · exact fun j hj => by simp [hj]

/-- The label `bad` takes back the link that `sys_link` has added. -/
theorem of_decLink (hlink : short (s.inode i).nlink = (s.inode i).nlink) (h : Near (bump s i) 0 s') :
    Near s {i} (s'.setInode i { s'.inode i with nlink := short ((s'.inode i).nlink - 1) }) := by
  have hi : (bump s i).inode i = { s.inode i with
      nlink := short ((s.inode i).nlink + 1), ref := (s.inode i).ref + 1 } :=
    Fs.inode_setInode_self s i _
  have hback : (bump s i).setInode i (s.inode i) = s := by
    simp [bump, Fs.setInode]
  rw [← hback]
  refine h.setInode_both ((h.type i).trans ?_) ((h.major i).trans ?_) ((h.minor i).trans ?_) ?_
    ((h.ents i).trans ?_) ((h.ref i).trans ?_) fun j hj => ?_
  · rw [hi]
  · rw [hi]
  · rw [hi]
  · rw [h.nlink, hi]
    simp only [short] at hlink ⊢
    omega
  · rw [hi]
  · rw [hi]
    simp
  · simp [hj]

/-- The file table and the descriptors are those of `s`, and inode `i` is allocated and has a link. -/
structure Made (s : Fs P) (i : Nat) (s' : Fs P) : Prop where
  file : s'.file = s.file
  ofile : s'.ofile = s.ofile
  type : (s'.inode i).type ≠ .free
  nlink : (s'.inode i).nlink ≠ 0

theorem Made.setInode {j : Nat} {n : Inode P} (h : Made s i s')
    (htype : n.type = (s'.inode j).type)
    (hnlink : n.nlink = (s'.inode j).nlink) : Made s i (s'.setInode j n) := by
  refine ⟨h.file, h.ofile, ?_, ?_⟩
  all_goals
    by_cases hj : i = j
    · rw [hj, Fs.inode_setInode_self]
      first | exact htype ▸ hj ▸ h.type | exact hnlink ▸ hj ▸ h.nlink
    · rw [Fs.inode_setInode_ne s' n hj]
      first | exact h.type | exact h.nlink

end Near

variable [DecidableEq P] {p : P} {s s' : Fs P} {refs : Multiset Nat} {α : Type}

/-- Programs of one process while the others rest. -/
abbrev aloneRules (p : P) : Rules FsAct FsAct.Res (Fs P) := Rules.alone (Fs.exec p)

namespace Near

theorem wp_any {t : FsM α} {Q : α → Fs P → Prop} (hQ : ∀ x s'', Q x s'') :
    (aloneRules p).wp t Q s' := by
  induction t generalizing s' with
  | ret x => exact hQ x s'
  | act a k ih => exact ⟨trivial, fun r _ _ => ih r⟩

theorem wp_act {a : FsAct} {Q : a.Res → Fs P → Prop}
    (hQ : ∀ r s'', s'.Step p a r s'' → Q r s'') :
    (aloneRules p).wp (Prog.perform a) Q s' :=
  ⟨trivial, fun r s'' he => hQ r s'' (Fs.exec_step he)⟩

theorem wp_kpanic {e : FsPanic} {Q : α → Fs P → Prop} : (aloneRules p).wp (kpanic e) Q s' :=
  ⟨trivial, fun r => r.elim⟩

variable {Q : Unit → Fs P → Prop} {i : Nat}

theorem wp_iget (h : Near s refs s')
    (hQ : ∀ s'', Near s (i ::ₘ refs) s'' → Q () s'') : (aloneRules p).wp (iget i) Q s' :=
  wp_act fun _ _ hstep => by
    cases hstep
    exact hQ _ (h.addRef rfl rfl rfl rfl rfl rfl)

theorem wp_ilock (h : Near s refs s')
    (hQ : ∀ s'', Near s refs s'' → Q () s'') : (aloneRules p).wp (ilock i) Q s' :=
  wp_act fun _ _ hstep => by
    cases hstep
    exact hQ _ h.relock

theorem wp_iunlock (h : Near s refs s')
    (hQ : ∀ s'', Near s refs s'' → Q () s'') : (aloneRules p).wp (iunlock i) Q s' :=
  wp_act fun _ _ hstep => by
    cases hstep
    exact hQ _ h.relock

theorem wp_iput (hs : s.Held) (h : Near s refs s') (hi : i ∈ refs)
    (hQ : ∀ s'', Near s (refs.erase i) s'' → Q () s'') :
    (aloneRules p).wp (iput i) Q s' := by
  have hdrop (t : Fs P) (ht : Near s refs t) :
      (aloneRules p).wp (Prog.perform (FsAct.iputDrop i)) Q t := wp_act fun _ _ hstep => by
    cases hstep
    exact hQ _ (ht.of_iputDrop hi)
  rw [iput, wp_bind]
  refine wp_act fun r s1 hstep => ?_
  cases hstep with
  | iputKeep => exact hdrop s' h
  | iputDoom _ hdying =>
    simp only [if_true, wp_bind]
    refine wp_act fun _ s2 hstep => ?_
    cases hstep
    exact hdrop _ (of_iputFree hs h.relock (free_of_dying hs h hi hdying))

theorem wp_readInode (h : Near s refs s') {Q : Fields → Fs P → Prop}
    (hQ : Q ⟨(s.inode i).type, (s.inode i).nlink, (s.inode i).ents⟩ s') :
    (aloneRules p).wp (readInode i) Q s' := by
  refine wp_act fun r s'' hstep => ?_
  cases hstep
  rw [h.type, h.nlink, h.ents]
  exact hQ

theorem wp_iunlockput (hs : s.Held) (h : Near s refs s') (hi : i ∈ refs)
    (hQ : ∀ s'', Near s (refs.erase i) s'' → Q () s'') :
    (aloneRules p).wp (iunlockput i) Q s' := by
  rw [iunlockput, wp_bind]
  exact h.wp_iunlock fun s1 h1 => wp_iput hs h1 hi hQ

theorem wp_dirlookup (h : Near s refs s') {dp : Nat} {name : Name}
    {Q : Option (Nat × Nat) → Fs P → Prop}
    (hnone : dirSearch name (s.inode dp).ents 0 = none → Q none s')
    (hsome : ∀ i off s'', dirSearch name (s.inode dp).ents 0 = some (i, off) →
      Near s (i ::ₘ refs) s'' → Q (some (i, off)) s'') :
    (aloneRules p).wp (dirlookup dp name) Q s' := by
  rw [dirlookup, wp_bind]
  refine h.wp_readInode ?_
  split_ifs
  · exact wp_kpanic
  · split
    · exact hnone ‹_›
    · rw [wp_bind]
      exact h.wp_iget fun s'' h'' => hsome _ _ s'' ‹_› h''

theorem wp_namexFrom (hs : s.Held) {parent : Bool} {names : List Name} {ip : Nat} {name : Name}
    (h : Near s (ip ::ₘ refs) s') {Q : Option (Nat × Name) → Fs P → Prop}
    (hnone : s.resolve parent names ip name = none → ∀ s'', Near s refs s'' → Q none s'')
    (hsome : ∀ i e s'', s.resolve parent names ip name = some (i, e) →
      Near s (i ::ₘ refs) s'' → Q (some (i, e)) s'') :
    (aloneRules p).wp (namexFrom parent names ip name) Q s' := by
  have hdrop : ∀ {t : Fs P}, Near s ((ip ::ₘ refs).erase ip) t → Near s refs t := fun ht => by
    rwa [Multiset.erase_cons_head] at ht
  induction names generalizing ip name s' with
  | nil =>
    rw [namexFrom]
    split_ifs with hparent
    · rw [wp_bind]
      exact wp_iput hs h (Multiset.mem_cons_self ip refs) fun s1 h1 =>
        hnone (by simp [Fs.resolve, hparent]) s1 (hdrop h1)
    · exact hsome ip name s' (by simp [Fs.resolve, hparent]) h
  | cons e rest ih =>
    have hput (t : Fs P) (ht : Near s (ip ::ₘ refs) t)
        (hr : s.resolve parent (e :: rest) ip name = none) : (aloneRules p).wp
        (do iunlockput ip; pure (none : Option (Nat × Name))) Q t := by
      rw [wp_bind]
      exact wp_iunlockput hs ht (Multiset.mem_cons_self ip refs) fun s1 h1 => hnone hr s1 (hdrop h1)
    rw [namexFrom, wp_bind]
    refine h.wp_ilock fun s1 h1 => ?_
    rw [wp_bind]
    refine h1.wp_readInode ?_
    split_ifs with hdir hlast
    · exact hput s1 h1 (by simp [Fs.resolve, hdir])
    · rw [wp_bind]
      exact h1.wp_iunlock fun s2 h2 => hsome ip e s2 (by simp [Fs.resolve, hdir, hlast]) h2
    · have hnext : s.resolve parent (e :: rest) ip name =
          (dirSearch e (s.inode ip).ents 0).bind fun e' => s.resolve parent rest e'.1 e := by
        rw [Fs.resolve, if_neg hdir, if_neg hlast]
      rw [wp_bind]
      refine h1.wp_dirlookup (fun hs => hput s1 h1 (by simp [hnext, hs])) fun next off s2 hsearch h2 => ?_
      rw [wp_bind]
      refine wp_iunlockput hs h2 (Multiset.mem_cons_of_mem (Multiset.mem_cons_self ip refs))
        fun s3 h3 => ?_
      rw [Multiset.cons_swap, Multiset.erase_cons_head] at h3
      rw [hnext, hsearch] at hnone hsome
      exact ih h3 hnone hsome fun ht => by rwa [Multiset.erase_cons_head] at ht

variable {path : Path}

theorem wp_namex (hs : s.Held) (h : Near s refs s') {parent : Bool}
    {Q : Option (Nat × Name) → Fs P → Prop}
    (hnone : ∀ i, s.start p path = some i → s.resolve parent (pathElems path) i [] = none →
      ∀ s'', Near s refs s'' → Q none s'')
    (hsome : ∀ i d e s'', s.start p path = some i →
      s.resolve parent (pathElems path) i [] = some (d, e) → Near s (d ::ₘ refs) s'' → Q (some (d, e)) s'') :
    (aloneRules p).wp (namex path parent) Q s' := by
  rw [namex]
  split_ifs with hroot
  · have hstart : s.start p path = some ROOTINO := if_pos hroot
    rw [wp_bind]
    exact h.wp_iget fun s1 h1 => wp_namexFrom hs h1 (hnone _ hstart) fun d e s2 => hsome _ d e s2 hstart
  · rw [wp_bind]
    refine wp_act fun i s1 hstep => ?_
    cases hstep with
    | idupCwd hcwd =>
      rw [h.cwd] at hcwd
      have hstart : s.start p path = some i := (if_neg hroot).trans hcwd
      refine wp_namexFrom hs ?_ (hnone i hstart) fun d e s2 => hsome i d e s2 hstart
      exact h.addRef rfl rfl rfl rfl rfl rfl

theorem wp_namei (hs : s.Held) (h : Near s refs s') {Q : Option Nat → Fs P → Prop}
    (hnone : ∀ s'', Near s refs s'' → Q none s'')
    (hsome : ∀ i s'', Near s (i ::ₘ refs) s'' → Q (some i) s'') :
    (aloneRules p).wp (namei path) Q s' := by
  rw [namei, wp_bind]
  exact wp_namex hs h (fun _ _ _ => hnone) fun _ i _ s2 _ _ => hsome i s2

theorem wp_dirlink (hs : s.Held) (h : Near s refs s') {dp inum : Nat} {name : Name}
    {Q : Int → Fs P → Prop} (hfail : ∀ s'', Near s refs s'' → Q (-1) s'')
    (hok : ∀ s'', Q 0 s'') : (aloneRules p).wp (dirlink dp name inum) Q s' := by
  rw [dirlink, wp_bind]
  refine h.wp_dirlookup (fun _ => ?_) fun i off s1 _ h1 => ?_
  · rw [wp_bind]
    refine h.wp_readInode ?_
    rw [wp_bind]
    refine wp_act fun ok s1 _ => ?_
    split_ifs
    · exact hok s1
    · exact wp_kpanic
  · rw [wp_bind]
    refine wp_iput hs h1 (Multiset.mem_cons_self i refs) fun s2 h2 => ?_
    rw [Multiset.erase_cons_head] at h2
    exact hfail s2 h2

/-- What a call promises: a result of `-1` comes with the state that the call has found. -/
def Spares (s : Fs P) (x : Int) (s' : Fs P) : Prop := x = -1 → s.Same s'

theorem wp_zero {t : FsM α} : (aloneRules p).wp (do let _ ← t; pure 0) (Spares s) s' := by
  rw [wp_bind]
  exact wp_any fun _ _ => nofun

theorem wp_fail (hs : s.Held) (h : Near s {i} s') :
    (aloneRules p).wp (do iunlockput i; pure (-1)) (Spares s) s' := by
  rw [wp_bind]
  exact wp_iunlockput hs h (Multiset.mem_singleton_self i) fun s1 h1 _ => by
    rw [Multiset.erase_singleton] at h1
    exact h1.toSame

theorem wp_sysChdir (hs : s.Held) :
    (aloneRules p).wp (sysChdir path) (Spares s) s := by
  rw [sysChdir, wp_bind]
  refine wp_namei hs (refl s) (fun s1 h1 _ => h1.toSame) fun ip s1 h1 => ?_
  rw [wp_bind]
  refine h1.wp_ilock fun s2 h2 => ?_
  rw [wp_bind]
  refine h2.wp_readInode ?_
  split_ifs
  · exact wp_fail hs h2
  · simp only [wp_bind]
    exact wp_any fun _ s3 => wp_any fun _ s4 => wp_any fun _ s5 => wp_any fun _ _ => by rintro ⟨⟩

theorem wp_sysUnlink (hs : s.Held) :
    (aloneRules p).wp (sysUnlink path) (Spares s) s := by
  rw [sysUnlink, wp_bind]
  refine wp_namex hs (refl s) (fun _ _ _ s1 h1 _ => h1.toSame) fun _ dp name s1 _ _ h1 => ?_
  rw [wp_bind]
  refine h1.wp_ilock fun s2 h2 => ?_
  split_ifs
  · exact wp_fail hs h2
  rw [wp_bind]
  refine h2.wp_dirlookup (fun _ => wp_fail hs h2) fun ip off s3 _ h3 => ?_
  rw [wp_bind]
  refine h3.wp_ilock fun s4 h4 => ?_
  rw [wp_bind]
  refine h4.wp_readInode ?_
  split
  · exact wp_kpanic
  split
  · rw [wp_bind]
    refine wp_iunlockput hs h4 (Multiset.mem_cons_self ip _) fun s5 h5 => ?_
    rw [Multiset.erase_cons_head] at h5
    exact wp_fail hs h5
  · rw [wp_bind]
    refine wp_act fun ok s5 _ => ?_
    split_ifs <;> first | exact wp_kpanic | simp only [wp_bind]
    · exact wp_any fun _ _ => wp_any fun _ _ => wp_any fun _ _ => wp_any fun _ _ => by rintro ⟨⟩
    · exact wp_any fun _ _ => wp_any fun _ _ => wp_any fun _ _ => by rintro ⟨⟩

theorem wp_sysLink (hs : s.Consistent) {old new : Path} :
    (aloneRules p).wp (sysLink old new) (Spares s) s := by
  rw [sysLink, wp_bind]
  refine wp_namei hs.toHeld (refl s) (fun s1 h1 _ => h1.toSame) fun ip s1 h1 => ?_
  have hbad : ∀ t : Fs P, Near (bump s ip) 0 t →
      (aloneRules p).wp (sysLink.bad ip) (Spares s) t := by
    intro t ht
    rw [sysLink.bad, wp_bind]
    refine ht.wp_ilock fun t1 ht1 => ?_
    rw [wp_bind]
    refine wp_act fun _ t2 hstep => ?_
    cases hstep
    exact wp_fail hs.toHeld (of_decLink (hs.links ip) ht1)
  rw [wp_bind]
  refine h1.wp_ilock fun s2 h2 => ?_
  rw [wp_bind]
  refine h2.wp_readInode ?_
  split
  · exact wp_fail hs.toHeld h2
  rw [wp_bind]
  refine wp_act fun _ s3 hstep => ?_
  cases hstep
  have hheld := held_bump hs.toHeld ip
  rw [wp_bind]
  refine (of_incLink h2).wp_iunlock fun s4 h4 => ?_
  rw [wp_bind]
  refine wp_namex hheld h4 (fun _ _ _ => hbad) fun _ dp name s5 _ _ h5 => ?_
  rw [wp_bind]
  refine h5.wp_ilock fun s6 h6 => ?_
  rw [wp_bind]
  refine wp_dirlink hheld h6 (fun s7 h7 => ?_) fun s7 => ?_
  · rw [if_pos (by decide), wp_bind]
    refine wp_iunlockput hheld h7 (Multiset.mem_cons_self dp 0) fun s8 h8 => ?_
    rw [Multiset.erase_cons_head] at h8
    exact hbad s8 h8
  · rw [if_neg (by decide), wp_bind]
    exact wp_any fun _ _ => wp_zero

section

variable {j : Nat} (h : Made s i s')
include h

/-- An inode that has a link is not the one that `iput` frees. -/
theorem Made.wp_iput (hQ : ∀ s'', Made s i s'' → Q () s'') : (aloneRules p).wp (iput j) Q s' := by
  have hdrop (t : Fs P) (ht : Made s i t) :
      (aloneRules p).wp (Prog.perform (FsAct.iputDrop j)) Q t := wp_act fun _ _ hstep => by
    cases hstep
    exact hQ _ (ht.setInode rfl rfl)
  rw [iput, wp_bind]
  refine wp_act fun r s1 hstep => ?_
  cases hstep with
  | iputKeep => exact hdrop _ h
  | iputDoom _ hdying =>
    have hij : i ≠ j := by
      rintro rfl
      simp only [Inode.dying, Bool.and_eq_true, beq_iff_eq] at hdying
      exact h.nlink hdying.1.2
    simp only [if_true, wp_bind]
    refine wp_act fun _ s2 hstep => ?_
    cases hstep
    refine hdrop _ ⟨h.file, h.ofile, ?_, ?_⟩
    all_goals
      simp only [Fs.iputFree, Fs.inode_setInode_ne _ _ hij]
      first | exact h.type | exact h.nlink

theorem Made.wp_iunlockput (hQ : ∀ s'', Made s i s'' → Q () s'') :
    (aloneRules p).wp (iunlockput j) Q s' := by
  rw [iunlockput, wp_bind]
  refine wp_act fun _ s1 hstep => ?_
  cases hstep
  refine Made.wp_iput ?_ hQ
  exact h.setInode rfl rfl

theorem Made.wp_dirlink {dp inum : Nat} {name : Name} {Q : Int → Fs P → Prop}
    (hQ : ∀ x s'', Made s i s'' → Q x s'') : (aloneRules p).wp (dirlink dp name inum) Q s' := by
  simp only [dirlink, dirlookup, wp_bind]
  refine wp_act fun d s1 hstep => ?_
  cases hstep
  split
  · exact wp_kpanic
  split
  · refine wp_act fun d s1 hstep => ?_
    cases hstep
    refine wp_act fun ok s1 hstep => ?_
    cases hstep with
    | unwritten => exact wp_kpanic
    | writeDirent => exact hQ 0 _ (h.setInode rfl rfl)
  · refine wp_act fun _ s1 hstep => ?_
    cases hstep
    dsimp only
    rw [wp_bind]
    refine Made.wp_iput ?_ (hQ (-1))
    exact h.setInode rfl rfl

end

theorem wp_iallocFrom {type : InodeType} {inums : List Nat} {Q : Nat → Fs P → Prop}
    (hQ : ∀ ip s'', (s.inode ip).type = .free → s''.file = s.file → s''.ofile = s.ofile →
      (s''.inode ip).type = type → Q ip s'') : (aloneRules p).wp (iallocFrom type inums) Q s := by
  induction inums with
  | nil => exact wp_kpanic
  | cons inum rest ih =>
    rw [iallocFrom, wp_bind]
    refine wp_act fun ok s1 hstep => ?_
    cases hstep with
    | claim _ hfree =>
      simp only [if_true, wp_bind]
      refine wp_act fun _ s2 hstep => ?_
      cases hstep
      exact hQ inum _ hfree rfl rfl (by simp [Fs.setInode])
    | unclaimed => exact ih

variable {N : Nat} {type : InodeType} {major minor : Int}

/-- `create` finds a file, fails, or makes an inode with a link. -/
theorem wp_create (hs : s.Held) {Q : Option Nat → Fs P → Prop}
    (hnone : ∀ s'', ¬s.Missing p path → s.Same s'' → Q none s'')
    (hfound : ∀ ip s'', ¬s.Missing p path → Near s {ip} s'' → Q (some ip) s'')
    (hnew : ∀ ip s'', (type = .file → s.Missing p path ∧ (s.inode ip).type = .free ∧ Made s ip s'') →
      Q (some ip) s'') :
    (aloneRules p).wp (create N path type major minor) Q s := by
  rw [create, wp_bind]
  refine wp_namex hs (refl s) (fun i hstart hparent s1 h1 => hnone s1 ?_ h1.toSame)
    fun i dp name s1 hstart hparent h1 => ?_
  · rintro ⟨j, d, e, hj, hd, _⟩
    cases hstart.symm.trans hj
    cases hparent.symm.trans hd
  have hmissing : s.Missing p path → dirSearch name (s.inode dp).ents 0 = none := by
    rintro ⟨j, d, e, hj, hd, he⟩
    cases hstart.symm.trans hj
    cases hparent.symm.trans hd
    exact he
  rw [wp_bind]
  refine h1.wp_ilock fun s2 h2 => ?_
  rw [wp_bind]
  refine h2.wp_dirlookup (fun hsearch => ?_) fun ip off s3 hsearch h3 => ?_
  · -- A new inode: `create` does not fail any more.
    rw [wp_bind]
    refine wp_iallocFrom fun ip s3 hfree hfile hofile htype => ?_
    rw [wp_bind]
    refine wp_act fun _ s4 hstep => ?_
    cases hstep
    rw [wp_bind]
    refine wp_act fun _ s5 hstep => ?_
    cases hstep
    by_cases hf : type = .file
    · subst hf
      have hmade : Made s ip (((s3.setInode ip { s3.inode ip with lock := some p, valid := true })).setInode
          ip { ((s3.setInode ip { s3.inode ip with lock := some p, valid := true }).inode ip) with
            major, minor, nlink := 1 }) :=
        ⟨hfile.trans h2.file, hofile.trans h2.ofile, by simp [htype], by simp⟩
      rw [if_neg (by decide), wp_bind]
      refine hmade.wp_dirlink fun x s6 h6 => ?_
      split
      · exact wp_kpanic
      · rw [wp_bind]
        exact h6.wp_iunlockput fun s7 h7 => hnew ip s7 fun _ =>
          ⟨⟨i, dp, name, hstart, hparent, hsearch⟩, (h2.type ip).symm.trans hfree, h7⟩
    · have hentry (t : Fs P) : (aloneRules p).wp (do
          if (← dirlink dp name ip) < 0 then kpanic .createDirlink
          else do
            iunlockput dp
            pure (some ip)) Q t := by
        rw [wp_bind]
        refine wp_any fun x t1 => ?_
        split
        · exact wp_kpanic
        · rw [wp_bind]
          exact wp_any fun _ t2 => hnew ip t2 fun h => absurd h hf
      split
      · rw [wp_bind]
        exact wp_any fun _ t => hentry t
      · exact hentry _
  · have hfile : ¬s.Missing p path := fun h => by cases (hmissing h).symm.trans hsearch
    rw [wp_bind]
    refine wp_iunlockput hs h3 (Multiset.mem_cons_of_mem (Multiset.mem_cons_self dp 0))
      fun s4 h4 => ?_
    rw [Multiset.cons_swap, Multiset.erase_cons_head] at h4
    rw [wp_bind]
    refine h4.wp_ilock fun s5 h5 => ?_
    rw [wp_bind]
    refine h5.wp_readInode ?_
    split
    · exact hfound ip s5 hfile h5
    · rw [wp_bind]
      refine wp_iunlockput hs h5 (Multiset.mem_cons_self ip 0) fun s6 h6 => ?_
      rw [Multiset.erase_cons_head] at h6
      exact hnone s6 hfile h6.toSame

theorem wp_opened {ip : Nat} {f : FileId} {fd : Fd} {rd wr : Bool} {R : Fs P → Prop} :
    (aloneRules p).wp (do
      iunlock ip
      Prog.perform (FsAct.setFile f ip rd wr)
      pure (fd.val : Int)) (fun x s'' => x = -1 → R s'') s' := by
  simp only [wp_bind]
  refine wp_any fun _ _ => wp_any fun _ _ hfd => ?_
  have hpos := Int.natCast_nonneg fd.val
  omega

theorem wp_openFile (hs : s.Consistent) {ip omode : Nat} (h : Near s {ip} s') :
    (aloneRules p).wp (openFile ip omode) (Spares s) s' := by
  rw [openFile, wp_bind]
  refine wp_act fun r s1 hstep => ?_
  cases hstep with
  | noFile => exact wp_fail hs.toHeld h
  | @filealloc f hzero =>
    have htype : (s'.file f).type = .none := by
      rw [h.file] at hzero ⊢
      exact hs.closed f hzero
    dsimp only
    rw [wp_bind]
    refine wp_act fun r s2 hstep => ?_
    cases hstep with
    | fdalloc => exact wp_opened
    | noFd =>
      dsimp only
      rw [wp_bind, fileclose, wp_bind]
      refine wp_act fun r s3 hstep => ?_
      cases hstep with
      | closeShared href => simp [Fs.setFile] at href
      | closeInode _ hinode => simp [Fs.setFile, htype] at hinode
      | closeOther =>
        have hback : (s'.file f).set 0 .none = s'.file f := by
          rw [← hzero, ← htype]
        simp only [Fs.setFile, Function.update_self, Function.update_idem]
        rw [hback, Function.update_eq_self]
        exact wp_fail hs.toHeld h

/-- With a file that has just been made, the call fails without a free entry of the file table or a free
descriptor only, and leaves the file. -/
theorem wp_openFile_made {ip omode : Nat} (h : Made s i s') :
    (aloneRules p).wp (openFile ip omode)
      (fun x s'' => x = -1 → ¬s.Room p ∧ (s''.inode i).type ≠ .free) s' := by
  have hfail (hroom : ¬s.Room p) (t : Fs P) (ht : Made t i t) :
      (aloneRules p).wp (do iunlockput ip; pure (-1 : Int))
        (fun x s'' => x = -1 → ¬s.Room p ∧ (s''.inode i).type ≠ .free) t := by
    rw [wp_bind]
    exact ht.wp_iunlockput fun s2 h2 _ => ⟨hroom, h2.type⟩
  have hself : Made s' i s' := ⟨rfl, rfl, h.type, h.nlink⟩
  rw [openFile, wp_bind]
  refine wp_act fun r s1 hstep => ?_
  cases hstep with
  | noFile hfull =>
    refine hfail (fun hroom => ?_) s' hself
    obtain ⟨f, hf⟩ := hroom.1
    exact hfull f (h.file ▸ hf)
  | filealloc =>
    dsimp only
    rw [wp_bind]
    refine wp_act fun r s2 hstep => ?_
    cases hstep with
    | fdalloc => exact wp_opened
    | noFd _ hfull =>
      have hroom : ¬s.Room p := by
        rintro ⟨_, fd, hfd⟩
        exact hfull fd (h.ofile ▸ hfd)
      dsimp only
      rw [wp_bind, fileclose, wp_bind]
      refine wp_act fun r s3 hstep => ?_
      have h3 : Made s3 i s3 := by
        cases hstep <;> exact ⟨rfl, rfl, h.type, h.nlink⟩
      split
      · exact hfail hroom s3 h3
      · exact h3.wp_iput fun s4 h4 => hfail hroom s4 ⟨rfl, rfl, h4.type, h4.nlink⟩

theorem wp_sysOpen (hs : s.Consistent) {omode : Nat} :
    (aloneRules p).wp (sysOpen N path omode) (fun x s' => x = -1 →
      (s.Same s' ↔ (omode &&& O_CREATE ≠ 0 → s.Missing p path → s.Room p))) s := by
  have hspares {R : Prop} (hR : R) (x : Int) (s' : Fs P) (h : Spares s x s') :
      x = -1 → (s.Same s' ↔ R) := fun hx => ⟨fun _ => hR, fun _ => h hx⟩
  rw [sysOpen]
  split
  · rename_i hcreate
    rw [wp_bind]
    refine wp_create hs.toHeld (fun s1 hfound h1 => ?_) (fun ip s1 hfound h1 => ?_) fun ip s1 h1 => ?_
    · exact hspares (fun _ hm => absurd hm hfound) _ _ fun _ => h1
    · exact wp_mono _ (wp_openFile hs h1) (hspares fun _ hm => absurd hm hfound)
    · obtain ⟨hmissing, hfree, hmade⟩ := h1 rfl
      refine wp_mono _ (wp_openFile_made hmade) fun x s2 h2 hx => ?_
      obtain ⟨hroom, htype⟩ := h2 hx
      exact ⟨fun hsame => absurd ((hsame.type ip).trans hfree) htype,
        fun h => absurd (h hcreate hmissing) hroom⟩
  · rename_i hcreate
    refine wp_mono _ ?_ (hspares fun h => absurd h hcreate)
    rw [wp_bind]
    refine wp_namei hs.toHeld (refl s) (fun s1 h1 _ => h1.toSame) fun ip s1 h1 => ?_
    rw [wp_bind]
    refine h1.wp_ilock fun s2 h2 => ?_
    rw [wp_bind]
    refine h2.wp_readInode ?_
    split
    · exact wp_fail hs.toHeld h2
    · exact wp_openFile hs h2

theorem wp_made (hs : s.Held) :
    (aloneRules p).wp (do
      match ← create N path type major minor with
      | none => pure (-1)
      | some ip => do
        iunlockput ip
        pure 0) (Spares s) s := by
  rw [wp_bind]
  exact wp_create hs (fun s1 _ h1 _ => h1) (fun _ _ _ _ => wp_zero) fun _ _ _ => wp_zero

theorem wp_sysClose {fd : Fd} : (aloneRules p).wp (sysClose fd) (Spares s) s := by
  rw [sysClose, wp_bind]
  refine wp_act fun r s1 hstep => ?_
  cases hstep with
  | closedFd => exact fun _ => (refl s).toSame
  | takeFd => exact wp_zero

end Near

/-- A call that is to create a file does not fail after it has done so. -/
def Syscall.Room (p : P) (s : Fs P) : Syscall → Prop
  | .open path omode => omode &&& O_CREATE ≠ 0 → s.Missing p path → s.Room p
  | _ => True

/-- A call that runs on its own and returns `-1` has changed nothing, except where it has made a file. -/
theorem failed_call_keeps_state {N : Nat} {c : Syscall} (hs : s.Consistent)
    (hrun : (c.prog N).run (Fs.exec p) s = .next (-1, s')) : s.Same s' ↔ c.Room p s := by
  have hspares (hc : c.Room p s) (hwp : (aloneRules p).wp (c.prog N) (Near.Spares s) s) :
      s.Same s' ↔ c.Room p s := ⟨fun _ => hc, fun _ => Rules.wp_alone hwp hrun rfl⟩
  cases c with
  | «open» path omode => exact Rules.wp_alone (Near.wp_sysOpen hs) hrun rfl
  | mkdir path | mknod path major minor => exact hspares trivial (Near.wp_made hs.toHeld)
  | link old new => exact hspares trivial (Near.wp_sysLink hs)
  | unlink path => exact hspares trivial (Near.wp_sysUnlink hs.toHeld)
  | chdir path => exact hspares trivial (Near.wp_sysChdir hs.toHeld)
  | close fd => exact hspares trivial Near.wp_sysClose
  | exit =>
    refine hspares trivial ?_
    simp only [Syscall.prog, sysExit, wp_bind]
    exact Near.wp_any fun _ _ => Near.wp_any fun _ _ => Near.wp_any fun _ _ =>
      Near.wp_any fun _ _ => by rintro ⟨⟩

/-- One process that has the root open in all its descriptors, and a file `f`. -/
def allOpen : Fs (Fin 1) where
  ninodes := 8
  inode i :=
    if i = ROOTINO then
      ⟨.dir, 0, 0, 1, [⟨ROOTINO, dot⟩, ⟨ROOTINO, dotdot⟩, ⟨2, [102]⟩], NOFILE + 1, true, none⟩
    else if i = 2 then ⟨.file, 0, 0, 1, [], 0, false, none⟩
    else ⟨.free, 0, 0, 0, [], 0, false, none⟩
  file f := if f.val < NOFILE then ⟨1, .inode, ROOTINO, true, false⟩ else ⟨0, .none, 0, false, false⟩
  ofile _ fd := some (fd.castLE (by decide))
  cwd _ := some ROOTINO

theorem allOpen_consistent : allOpen.Consistent where
  linked {i} halloc hzero := by
    simp only [allOpen] at halloc hzero ⊢
    split_ifs at halloc hzero ⊢
    · exact Nat.succ_pos _
    · cases hzero
    · exact absurd rfl halloc
  leaf {i} hfree := by
    simp only [allOpen] at hfree ⊢
    split_ifs at hfree ⊢
    rfl
  links i := by
    simp only [allOpen]
    split_ifs <;> decide
  closed f hf := by
    simp only [allOpen] at hf ⊢
    split_ifs at hf ⊢
    rfl

/-- `link` of a name that exists takes back the link it has counted. -/
theorem failed_call_keeps_state_link : ∃ s' : Fs (Fin 1),
    ((Syscall.link [102] [102]).prog 8).run (Fs.exec 0) allOpen = .next (-1, s') ∧
      allOpen.Same s' := by
  have hret : (((Syscall.link [102] [102]).prog 8).run (Fs.exec 0) allOpen).holds
      fun r => r.1 = -1 := by decide +kernel
  obtain ⟨⟨x, s'⟩, hrun, rfl⟩ := Outcome.exists_of_holds hret
  exact ⟨s', hrun, (failed_call_keeps_state (p := 0) (c := .link [102] [102]) allOpen_consistent
    hrun).mpr trivial⟩

/-- `open` creates the file before it finds that there is no descriptor left. -/
theorem failed_open_creates : allOpen.Consistent ∧ ∃ s' : Fs (Fin 1),
    ((Syscall.open [103] (O_CREATE + O_RDWR)).prog 8).run (Fs.exec 0) allOpen = .next (-1, s') ∧
      (allOpen.inode 3).type = .free ∧ (s'.inode 3).type = .file ∧ (s'.inode 3).nlink = 1 ∧
      ⟨3, [103]⟩ ∈ (s'.inode ROOTINO).ents := by
  refine ⟨allOpen_consistent, ?_⟩
  have hret : (((Syscall.open [103] (O_CREATE + O_RDWR)).prog 8).run (Fs.exec 0) allOpen).holds
      fun r => r.1 = -1 ∧ (r.2.inode 3).type = .file ∧ (r.2.inode 3).nlink = 1 ∧
        ⟨3, [103]⟩ ∈ (r.2.inode ROOTINO).ents := by decide +kernel
  obtain ⟨⟨x, s'⟩, hrun, rfl, hmade⟩ := Outcome.exists_of_holds hret
  exact ⟨s', hrun, by decide, hmade⟩

end Xv6
