import Mathlib.Data.Finset.Basic
import Mathlib.Data.Multiset.AddSub
import Xv6.Dir.Calls

/-!
# What a system call owns while it runs

The ledger of a process lists the inode locks it holds, with what it has read under them, the
references it has taken, and the changes of link counts that its entries do not account for yet.
The rules say how each action uses the ledger, and every system call is verified against them.
-/

namespace Xv6

open Rules (wp_bind)

/-- An entry that names an inode under a name other than `.` and `..`. -/
def Dirent.ordinary (de : Dirent) : Prop := de.inum ≠ 0 ∧ de.name ≠ dot ∧ de.name ≠ dotdot

instance (de : Dirent) : Decidable de.ordinary := by
  unfold Dirent.ordinary
  infer_instance

/-- Type and contents of an inode whose lock is held. -/
structure View where
  type : InodeType
  ents : List Dirent

/-- The directory has an ordinary entry for the inode. -/
def View.names (v : View) (i : Nat) : Prop := ∃ de ∈ v.ents, de.ordinary ∧ de.inum = i

/-- How far an `iput` has come. -/
inductive Put where
  | none
  /-- The inode is locked, to be freed. -/
  | free (i : Nat)
  /-- The reference is given up, but still counted. -/
  | drop (i : Nat)
  deriving DecidableEq

/-- How far an `iput` has come where the action is taken. -/
def FsAct.put : FsAct → Put
  | .iputFree i => .free i
  | .iputDrop i => .drop i
  | _ => .none

structure Ledger where
  held : List (Nat × View)
  refs : Multiset Nat
  /-- Links counted in `nlink` that no entry stands for, one for each. -/
  pend : Multiset Nat
  /-- An inode from `ialloc` that has no entry yet. -/
  fresh : Option Nat
  /-- The type that the fresh inode was claimed for. -/
  ftype : InodeType
  /-- A referenced inode known not to be a directory. -/
  file : Option Nat
  /-- Inodes that only this call refers to and that its `iput` frees: a directory whose entry `unlink`
  has cleared, and what `iput` has found to be so. -/
  gone : Finset Nat
  /-- The reference of the working directory has passed to `refs`. -/
  cwd : Bool
  /-- A reference to an open file that is in no descriptor. -/
  fhold : Option FileId
  /-- A file from `filealloc` that has no inode yet. -/
  pfile : Option FileId
  put : Put

namespace Ledger

def idle : Ledger := ⟨[], 0, 0, none, .free, none, ∅, false, none, none, .none⟩

def addRef (l : Ledger) (i : Nat) : Ledger := { l with refs := i ::ₘ l.refs }

/-- Gives up a reference; what is known of the inode goes with the last one. -/
def dropRef (l : Ledger) (i : Nat) : Ledger :=
  { l with
    refs := l.refs.erase i
    file := if l.file = some i ∧ i ∉ l.refs.erase i then none else l.file
    gone := l.gone.erase i }

def lock (l : Ledger) (i : Nat) (v : View) : Ledger := { l with held := (i, v) :: l.held }

def unlock (l : Ledger) (i : Nat) : Ledger := { l with held := l.held.filter fun x => x.1 ≠ i }

def setView (l : Ledger) (d : Nat) (v : View) : Ledger :=
  { l with held := l.held.map fun x => if x.1 = d then (d, v) else x }

/-- The inode is held and is a directory. -/
def holdsDir (l : Ledger) (i : Nat) : Bool := l.held.any fun x => x.1 = i ∧ x.2.type = .dir

/-- The ledger after a dirent is written to the directory `d` that was read as `v`. -/
def wrote (l : Ledger) (d : Nat) (v : View) (slot : Nat) (de : Dirent) : Ledger :=
  let l' := l.setView d ⟨v.type, putSlot v.ents slot de⟩
  if de.inum = 0 then
    let c := ((v.ents[slot]?).map Dirent.inum).getD 0
    if l.holdsDir c then { l' with pend := d ::ₘ c ::ₘ l.pend, gone := {c} }
    else { l' with pend := c ::ₘ l.pend }
  else if l.fresh = some d then l'
  else if l.fresh = some de.inum then
    { l' with fresh := none, ftype := .free, pend := 0 }
  else { l' with pend := l.pend.erase de.inum }

/-- `unlink` clears the entry of an inode that it has locked. -/
def MayClear (l : Ledger) (d : Nat) (v : View) (slot : Nat) : Prop :=
  l.fresh = none ∧ l.pend = 0 ∧ ∃ old w, v.ents[slot]? = some old ∧ old.ordinary ∧
    old.inum ≠ d ∧ (old.inum, w) ∈ l.held ∧ (w.type = .dir → isdirempty w.ents = true)

/-- `create` writes `.` and then `..` into the new directory. -/
def MayDot (l : Ledger) (d : Nat) (de : Dirent) : Prop :=
  l.fresh = some d ∧ (de.name = dot ∧ de.inum = d ∨
    de.name = dotdot ∧ de.inum ≠ d ∧ (∃ w, (de.inum, w) ∈ l.held ∧ w.type = .dir) ∧
      ∃ w k, (d, w) ∈ l.held ∧ dirSearch dot w.ents 0 = some (d, k))

/-- `link` writes an entry for a file whose `nlink` counts it already. -/
def MayLink (l : Ledger) (de : Dirent) : Prop :=
  l.fresh = none ∧ l.file = some de.inum ∧ l.pend = {de.inum}

/-- `create` writes the entry of the new inode, which is complete. -/
def MayPublish (l : Ledger) (d : Nat) (de : Dirent) : Prop :=
  l.fresh = some de.inum ∧ de.inum ≠ d ∧ ∃ w, (de.inum, w) ∈ l.held ∧
    (l.ftype = .dir ∧ l.pend = {d, de.inum} ∧ (∃ k, dirSearch dotdot w.ents 0 = some (d, k)) ∨
      l.ftype ≠ .dir ∧ l.pend = {de.inum})

def MayWrite (l : Ledger) (d slot : Nat) (de : Dirent) : Prop :=
  l.gone = ∅ ∧ ∃ v, (d, v) ∈ l.held ∧ v.type = .dir ∧
    (de.inum = 0 ∧ l.MayClear d v slot ∨
      de.inum ≠ 0 ∧ dirSearch de.name v.ents 0 = none ∧ slot = emptySlot v.ents ∧
        (l.MayDot d de ∨ l.MayLink de ∨ l.MayPublish d de))

/-- Nothing is locked or under way. -/
def Bare (l : Ledger) : Prop :=
  l.held = [] ∧ l.pend = 0 ∧ l.fresh = none ∧ l.file = none ∧ l.gone = ∅

/-- Locks are taken from a directory to an inode it names, or to a new inode. -/
def MayLock (l : Ledger) (i : Nat) : Prop :=
  i ∈ l.refs ∧ l.gone = ∅ ∧
    (l.fresh = none ∧ (∀ x ∈ l.held, x.2.names i) ∨
      l.fresh = some i ∧ l.pend = 0 ∧ ∀ x ∈ l.held, x.1 ≠ i)

end Ledger

open Ledger in
/-- How the actions use the ledger, on a disk with `N` inodes. -/
def fsRules (N : Nat) : Rules FsAct FsAct.Res Ledger where
  pre a l := l.put = a.put ∧ match a with
    | .iget i => l.gone = ∅ ∧
        (i = ROOTINO ∨ (∃ x ∈ l.held, ∃ de ∈ x.2.ents, de.inum = i ∧ i ≠ 0) ∨ l.fresh = some i)
    | .idupCwd | .readCwd => l.cwd = false
    | .ilock i => l.MayLock i
    | .iunlock i => l.fresh = none ∧ ∃ v, (i, v) ∈ l.held
    | .iputTest i => i ∈ l.refs ∧ (l.fresh = some i → ∃ v, (i, v) ∈ l.held) ∧
        (i ∈ l.pend → i ∈ l.refs.erase i ∧ i ∉ l.gone)
    | .iputFree i => i ∈ l.refs ∧ i ∈ l.gone ∧ (i ∈ l.pend → i ∈ l.refs.erase i)
    | .iputDrop _ => True
    | .read i => ∃ v, (i, v) ∈ l.held
    | .incLink i => ∃ v, (i, v) ∈ l.held ∧
        (v.type = .dir ∧ l.ftype = .dir ∧ (∃ c, l.fresh = some c ∧ c ≠ i ∧ l.pend = {c}) ∨
          v.type ≠ .dir ∧ l.fresh = none ∧ l.pend = 0 ∧ l.file = none)
    | .decLink i => l.fresh = none ∧ i ∈ l.pend ∧ ∃ v, (i, v) ∈ l.held
    | .initNode i _ _ => l.fresh = some i ∧ l.pend = 0 ∧ ∃ v, (i, v) ∈ l.held
    | .writeDirent d slot de => l.MayWrite d slot de
    | .claim i type => type ≠ .free ∧ i ≠ 0 ∧ i < N ∧ l.fresh = none ∧ l.gone = ∅ ∧
        l.pend = 0 ∧ ∀ x ∈ l.held, x.2.type = .dir
    | .filealloc | .takeFd _ => l.fhold = none ∧ l.pfile = none
    | .fdalloc f => l.fhold = some f
    | .fileclose f => l.fhold = some f ∧ (l.pfile = none ∨ l.pfile = some f)
    | .setFile f i _ _ => l.pfile = some f ∧ l.fhold = none ∧ i ∈ l.refs ∧ l.Bare
    | .setCwd i => l.cwd = true ∧ (∀ j, i = some j → j ∈ l.refs) ∧ l.Bare
    | .panic e => e ≠ .ilockNoType ∧ e ≠ .createDirlink
  post
    | .iget i, l, _, l' => l' = l.addRef i
    | .idupCwd, l, i, l' => l' = l.addRef i
    | .readCwd, l, i, l' => l' = { l.addRef i with cwd := true }
    | .ilock i, l, _, l' => (∀ x ∈ l.held, x.1 ≠ i) ∧
        ∃ v, v.type ≠ .free ∧ 0 < i ∧ i < N ∧ l' = l.lock i v
    | .iunlock i, l, _, l' => l' = l.unlock i
    | .iputTest i, l, r, l' => l' = if r then { l with gone := insert i l.gone, put := .free i }
        else { l.dropRef i with put := .drop i }
    | .iputFree i, l, _, l' => l' = { l.dropRef i with put := .drop i }
    | .iputDrop _, l, _, l' => l' = { l with put := .none }
    | .read i, l, r, l' => (∀ v, (i, v) ∈ l.held → r.type = v.type ∧ r.ents = v.ents) ∧ l' = l
    | .incLink i, l, _, l' => ∀ v, (i, v) ∈ l.held →
        l' = if v.type = .dir then { l with pend := i ::ₘ l.pend }
          else { l with pend := i ::ₘ l.pend, file := some i }
    | .decLink i, l, _, l' => l' = { l with pend := l.pend.erase i }
    | .initNode i _ _, l, _, l' => l' = { l with pend := {i} }
    | .writeDirent d slot de, l, r, l' => if r then ∀ v, (d, v) ∈ l.held → l' = l.wrote d v slot de
        else l' = l
    | .claim i type, l, r, l' =>
      if r then (∀ x ∈ l.held, x.1 ≠ i) ∧ l' = { l with fresh := some i, ftype := type }
      else l' = l
    | .filealloc, l, r, l' => l' = match r with
        | none => l
        | some f => { l with fhold := some f, pfile := some f }
    | .fdalloc _, l, r, l' => l' = match r with
        | none => l
        | some _ => { l with fhold := none }
    | .fileclose f, l, r, l' => (l.pfile = some f → r = none) ∧ l' = match r with
        | none => { l with fhold := none, pfile := none }
        | some i => { l.addRef i with fhold := none, pfile := none }
    | .takeFd _, l, r, l' => l' = match r with
        | none => l
        | some f => { l with fhold := some f }
    | .setFile _ i _ _, l, _, l' => l' = { l.dropRef i with pfile := none }
    | .setCwd i, l, _, l' => l' = match i with
        | none => { l with cwd := false }
        | some j => { l.dropRef j with cwd := false }
    | .panic _, _, _, _ => True

namespace Ledger

variable (l : Ledger) (i j : Nat) (v : View)

@[simp]
theorem held_addRef : (l.addRef i).held = l.held := rfl

@[simp]
theorem refs_addRef : (l.addRef i).refs = i ::ₘ l.refs := rfl

@[simp]
theorem pend_addRef : (l.addRef i).pend = l.pend := rfl

@[simp]
theorem fresh_addRef : (l.addRef i).fresh = l.fresh := rfl

@[simp]
theorem file_addRef : (l.addRef i).file = l.file := rfl

@[simp]
theorem gone_addRef : (l.addRef i).gone = l.gone := rfl

@[simp]
theorem held_lock : (l.lock i v).held = (i, v) :: l.held := rfl

@[simp]
theorem refs_lock : (l.lock i v).refs = l.refs := rfl

@[simp]
theorem pend_lock : (l.lock i v).pend = l.pend := rfl

@[simp]
theorem fresh_lock : (l.lock i v).fresh = l.fresh := rfl

@[simp]
theorem file_lock : (l.lock i v).file = l.file := rfl

@[simp]
theorem gone_lock : (l.lock i v).gone = l.gone := rfl

@[simp]
theorem lock_addRef : (l.addRef j).lock i v = (l.lock i v).addRef j := rfl

@[simp]
theorem unlock_addRef : (l.addRef j).unlock i = (l.unlock i).addRef j := rfl

theorem unlock_lock {l : Ledger} {i : Nat} (h : ∀ x ∈ l.held, x.1 ≠ i) : (l.lock i v).unlock i = l := by
  have hkeep : l.held.filter (fun x => x.1 ≠ i) = l.held :=
    List.filter_eq_self.mpr fun x hx => by simpa using h x hx
  simp only [unlock, lock]
  rw [List.filter_cons_of_neg (by simp), hkeep]

theorem dropRef_addRef {l : Ledger} {i : Nat} (hgone : l.gone = ∅)
    (h : l.file = some i → i ∈ l.refs) : (l.addRef i).dropRef i = l := by
  have hfile : ¬ (l.file = some i ∧ i ∉ l.refs) := fun hi => hi.2 (h hi.1)
  have herase : l.gone.erase i = l.gone := by simp [hgone]
  simp [dropRef, addRef, hfile, herase]

theorem dropRef_addRef_addRef {l : Ledger} {i : Nat} (j : Nat) (hgone : l.gone = ∅)
    (h : l.file = some i → i ∈ l.refs) : ((l.addRef i).addRef j).dropRef i = l.addRef j := by
  have hrefs : (j ::ₘ i ::ₘ l.refs).erase i = j ::ₘ l.refs := by
    rw [Multiset.cons_swap, Multiset.erase_cons_head]
  have hfile : ¬ (l.file = some i ∧ i ∉ j ::ₘ l.refs) := fun hi =>
    hi.2 (Multiset.mem_cons_of_mem (h hi.1))
  simp only [dropRef, addRef, hrefs, hfile, hgone, if_false, Finset.erase_empty]

end Ledger

variable {N : Nat} {l : Ledger} {α : Type}

theorem wp_kpanic {e : FsPanic} (he : e ≠ .ilockNoType ∧ e ≠ .createDirlink) (Q : α → Ledger → Prop)
    (hput : l.put = .none) : (fsRules N).wp (kpanic e) Q l :=
  ⟨⟨hput, he⟩, fun r => r.elim⟩

theorem wp_readInode {i : Nat} {v : View} (hput : l.put = .none) (hv : (i, v) ∈ l.held)
    {Q : Fields → Ledger → Prop} (hQ : ∀ nlink, Q ⟨v.type, nlink, v.ents⟩ l) :
    (fsRules N).wp (readInode i) Q l := by
  refine ⟨⟨hput, v, hv⟩, ?_⟩
  rintro ⟨type, nlink, ents⟩ l' ⟨hr, rfl⟩
  obtain ⟨rfl, rfl⟩ := hr v hv
  exact hQ nlink

theorem dirSearch_mem {name : Name} {ents : List Dirent} {off i k : Nat}
    (h : dirSearch name ents off = some (i, k)) :
    i ≠ 0 ∧ off ≤ k ∧ ents[k - off]? = some ⟨i, name⟩ := by
  induction ents generalizing off with
  | nil => simp [dirSearch] at h
  | cons de ents ih =>
    simp only [dirSearch] at h
    split_ifs at h with hz hn
    rotate_left
    · obtain ⟨rfl, rfl⟩ := Prod.mk.inj (Option.some.inj h)
      refine ⟨hz, Nat.le_refl _, ?_⟩
      simp [hn]
    all_goals
      obtain ⟨hi, hoff, hk⟩ := ih h
      refine ⟨hi, by omega, ?_⟩
      rwa [show k - off = (k - (off + 1)) + 1 by omega, List.getElem?_cons_succ]

theorem dirSearch_getElem {name : Name} {ents : List Dirent} {i k : Nat}
    (h : dirSearch name ents 0 = some (i, k)) : i ≠ 0 ∧ ents[k]? = some ⟨i, name⟩ := by
  obtain ⟨hi, _, hk⟩ := dirSearch_mem h
  exact ⟨hi, hk⟩

theorem wp_dirlookup {dp : Nat} {name : Name} {v : View} (hput : l.put = .none)
    (hv : (dp, v) ∈ l.held) (hgone : l.gone = ∅) {Q : Option (Nat × Nat) → Ledger → Prop}
    (hnone : v.type = .dir → dirSearch name v.ents 0 = none → Q none l)
    (hsome : v.type = .dir → ∀ i k, dirSearch name v.ents 0 = some (i, k) →
      Q (some (i, k)) (l.addRef i)) :
    (fsRules N).wp (dirlookup dp name) Q l := by
  rw [dirlookup, wp_bind]
  refine wp_readInode hput hv fun nlink => ?_
  split_ifs with htype
  · exact wp_kpanic (by decide) _ hput
  · have hdir : v.type = .dir := not_not.mp htype
    split
    · rename_i hs
      exact hnone hdir hs
    · rename_i i k hs
      obtain ⟨hi, hk⟩ := dirSearch_getElem hs
      refine ⟨⟨hput, hgone, .inr (.inl ⟨(dp, v), hv, ⟨i, name⟩, List.mem_of_getElem? hk, rfl, hi⟩)⟩, ?_⟩
      rintro _ l' rfl
      exact hsome hdir i k hs

theorem wp_iput (l : Ledger) {i : Nat} (hput : l.put = .none) (href : i ∈ l.refs)
    (hfresh : l.fresh = some i → ∃ v, (i, v) ∈ l.held)
    (hpend : i ∈ l.pend → i ∈ l.refs.erase i ∧ i ∉ l.gone) {Q : Unit → Ledger → Prop}
    (hQ : Q () (l.dropRef i)) : (fsRules N).wp (iput i) Q l := by
  have hdrop : (fsRules N).wp (Prog.perform (FsAct.iputDrop i)) Q
      { l.dropRef i with put := .drop i } := by
    refine ⟨⟨rfl, trivial⟩, ?_⟩
    rintro _ l' rfl
    have hsame : { l.dropRef i with put := .none } = l.dropRef i := hput ▸ rfl
    exact hsame ▸ hQ
  refine ⟨⟨hput, href, hfresh, hpend⟩, ?_⟩
  rintro (_ | _) l' rfl
  · exact hdrop
  · refine ⟨⟨rfl, href, Finset.mem_insert_self i l.gone, fun hi => (hpend hi).1⟩, ?_⟩
    rintro _ l' rfl
    have hgone : (insert i l.gone).erase i = l.gone.erase i := Finset.erase_insert_eq_erase ..
    change (fsRules N).wp _ Q { l.dropRef i with gone := (insert i l.gone).erase i, put := .drop i }
    rw [hgone]
    exact hdrop

theorem wp_iunlockput (l : Ledger) {i : Nat} {v : View} (hput : l.put = .none) (hv : (i, v) ∈ l.held)
    (hfresh : l.fresh = none) (href : i ∈ l.refs)
    (hpend : i ∈ l.pend → i ∈ l.refs.erase i ∧ i ∉ l.gone) {Q : Unit → Ledger → Prop}
    (hQ : Q () ((l.unlock i).dropRef i)) : (fsRules N).wp (iunlockput i) Q l := by
  refine ⟨⟨hput, hfresh, v, hv⟩, ?_⟩
  rintro _ l' rfl
  exact wp_iput (l.unlock i) hput href (fun hf => absurd (hfresh.symm.trans hf) (by simp)) hpend hQ

/-- A call that holds no lock and has at most the links of a known file pending. -/
structure Ledger.Quiet (l : Ledger) : Prop where
  held : l.held = []
  fresh : l.fresh = none
  gone : l.gone = ∅
  put : l.put = .none
  pend : ∀ j ∈ l.pend, l.file = some j
  file : ∀ j, l.file = some j → j ∈ l.refs

section

variable (hl : l.Quiet)
include hl

theorem wp_ilock_quiet {i : Nat} (href : i ∈ l.refs) {Q : Unit → Ledger → Prop}
    (hQ : ∀ v, 0 < i → i < N → Q () (l.lock i v)) : (fsRules N).wp (ilock i) Q l := by
  refine ⟨⟨hl.put, href, hl.gone, .inl ⟨hl.fresh, by simp [hl.held]⟩⟩, ?_⟩
  rintro _ l' ⟨_, v, _, hpos, hN, rfl⟩
  exact hQ v hpos hN

theorem Ledger.Quiet.addRef (i : Nat) : (l.addRef i).Quiet where
  held := hl.held
  fresh := hl.fresh
  gone := hl.gone
  put := hl.put
  pend := hl.pend
  file j hj := Multiset.mem_cons_of_mem (hl.file j hj)

theorem wp_iunlockput_quiet {i : Nat} {v : View} {Q : Unit → Ledger → Prop}
    (hQ : Q () l) : (fsRules N).wp (iunlockput i) Q ((l.addRef i).lock i v) := by
  refine wp_iunlockput ((l.addRef i).lock i v) (v := v) hl.put (by simp) hl.fresh (by simp) ?_ ?_
  · intro hi
    simp [hl.gone, hl.file i (hl.pend i hi)]
  · rw [Ledger.lock_addRef, Ledger.unlock_addRef, Ledger.unlock_lock v (by simp [hl.held]),
      Ledger.dropRef_addRef hl.gone (hl.file i)]
    exact hQ

theorem wp_iunlockput_next {i j : Nat} {v : View} {Q : Unit → Ledger → Prop}
    (hQ : Q () (l.addRef j)) :
    (fsRules N).wp (iunlockput i) Q (((l.addRef i).lock i v).addRef j) := by
  refine wp_iunlockput (((l.addRef i).lock i v).addRef j) (v := v) hl.put (by simp) hl.fresh (by simp) ?_ ?_
  · intro hi
    simp [hl.gone, Multiset.cons_swap j i, hl.file i (hl.pend i hi)]
  · rw [Ledger.unlock_addRef, Ledger.lock_addRef, Ledger.unlock_addRef,
      Ledger.unlock_lock v (by simp [hl.held]), Ledger.dropRef_addRef_addRef j hl.gone (hl.file i)]
    exact hQ

theorem wp_iunlock_quiet {i : Nat} {v : View} {Q : Unit → Ledger → Prop}
    (hQ : Q () l) : (fsRules N).wp (iunlock i) Q (l.lock i v) := by
  refine ⟨⟨hl.put, hl.fresh, v, by simp⟩, ?_⟩
  rintro _ l' rfl
  rw [Ledger.unlock_lock v (by simp [hl.held])]
  exact hQ

theorem wp_namexFrom (parent : Bool) (elems : List Name) (ip : Nat) (name : Name)
    {Q : Option (Nat × Name) → Ledger → Prop} (hnone : Q none l)
    (hsome : ∀ ip' name', Q (some (ip', name')) (l.addRef ip')) :
    (fsRules N).wp (namexFrom parent elems ip name) Q (l.addRef ip) := by
  induction elems generalizing ip name with
  | nil =>
    rw [namexFrom]
    split_ifs
    · rw [wp_bind]
      refine wp_iput (l.addRef ip) hl.put (by simp) (by simp [hl.fresh])
        (fun (hip : ip ∈ l.pend) => ?_) ?_
      · simp [hl.gone, hl.file ip (hl.pend ip hip)]
      rw [Ledger.dropRef_addRef hl.gone (hl.file ip)]
      exact hnone
    · exact hsome ip name
  | cons elem rest ih =>
    rw [namexFrom, wp_bind]
    refine wp_ilock_quiet (hl.addRef ip) (by simp) fun v _ _ => ?_
    rw [wp_bind]
    refine wp_readInode (l := (l.addRef ip).lock ip v) (v := v) hl.put (by simp) fun nlink => ?_
    split_ifs with htype hlast
    · rw [wp_bind]
      exact wp_iunlockput_quiet hl hnone
    · rw [wp_bind]
      exact wp_iunlock_quiet (hl.addRef ip) (hsome ip elem)
    · rw [wp_bind]
      refine wp_dirlookup (l := (l.addRef ip).lock ip v) (v := v) hl.put (by simp) hl.gone
        (fun _ _ => ?_) (fun _ next k _ => ?_)
      · simp only [wp_bind]
        exact wp_iunlockput_quiet hl hnone
      · simp only [wp_bind]
        exact wp_iunlockput_next hl (ih next elem)

theorem wp_namex (hcwd : l.cwd = false) (path : Path) (parent : Bool)
    {Q : Option (Nat × Name) → Ledger → Prop} (hnone : Q none l)
    (hsome : ∀ ip name, Q (some (ip, name)) (l.addRef ip)) :
    (fsRules N).wp (namex path parent) Q l := by
  rw [namex]
  split_ifs
  · rw [wp_bind]
    refine ⟨⟨hl.put, hl.gone, .inl rfl⟩, ?_⟩
    rintro _ l' rfl
    exact wp_namexFrom hl parent _ _ _ hnone hsome
  · rw [wp_bind]
    refine ⟨⟨hl.put, hcwd⟩, ?_⟩
    rintro ip l' rfl
    exact wp_namexFrom hl parent _ _ _ hnone hsome

theorem wp_namei (hcwd : l.cwd = false) (path : Path) {Q : Option Nat → Ledger → Prop}
    (hnone : Q none l) (hsome : ∀ ip, Q (some ip) (l.addRef ip)) :
    (fsRules N).wp (namei path) Q l := by
  rw [namei, wp_bind]
  exact wp_namex hl hcwd path false hnone fun ip _ => hsome ip

end

theorem wp_dirlink {dp inum : Nat} {name : Name} {v : View} (hput : l.put = .none)
    (hv : (dp, v) ∈ l.held) (hgone : l.gone = ∅) (hpend : ∀ c ∈ l.pend, c ∈ l.refs) {Q : Int → Ledger → Prop}
    (hfound : v.type = .dir → ∀ c k, dirSearch name v.ents 0 = some (c, k) →
      (l.fresh = some c → ∃ u, (c, u) ∈ l.held) ∧ Q (-1) ((l.addRef c).dropRef c))
    (hnew : v.type = .dir → dirSearch name v.ents 0 = none →
      l.MayWrite dp (emptySlot v.ents) ⟨inum % 65536, name⟩ ∧
        Q 0 (l.wrote dp v (emptySlot v.ents) ⟨inum % 65536, name⟩)) :
    (fsRules N).wp (dirlink dp name inum) Q l := by
  rw [dirlink, wp_bind]
  refine wp_dirlookup hput hv hgone (fun hdir hs => ?_) (fun hdir c k hs => ?_)
  · obtain ⟨hmay, hQ⟩ := hnew hdir hs
    simp only [wp_bind]
    refine wp_readInode hput hv fun nlink => ⟨⟨hput, hmay⟩, ?_⟩
    rintro (_ | _) l' hl'
    · obtain rfl : l' = l := hl'
      exact wp_kpanic (by decide) _ hput
    · obtain rfl := hl' v hv
      exact hQ
  · obtain ⟨hheld, hQ⟩ := hfound hdir c k hs
    rw [wp_bind]
    refine wp_iput (l.addRef c) hput (by simp) hheld (fun hc => ?_) hQ
    exact ⟨by simpa using hpend c hc, by simp [hgone]⟩

theorem Ledger.Quiet.idle : Ledger.idle.Quiet :=
  ⟨rfl, rfl, rfl, rfl, by simp [Ledger.idle], by simp [Ledger.idle]⟩

theorem wp_sysLink (hN : N ≤ 65536) (old new : Path) :
    (fsRules N).wp (sysLink old new) (fun _ l => l = .idle) .idle := by
  rw [sysLink, wp_bind]
  refine wp_namei .idle rfl old rfl fun ip => ?_
  simp only [wp_bind]
  refine wp_ilock_quiet (Ledger.Quiet.idle.addRef ip) (by simp) fun v hpos hlt => ?_
  refine wp_readInode (v := v) rfl (by simp) fun nlink => ?_
  split_ifs with hdir
  · rw [wp_bind]
    exact wp_iunlockput_quiet .idle rfl
  · simp only [wp_bind]
    refine ⟨⟨rfl, v, by simp, .inr ⟨hdir, rfl, rfl, rfl⟩⟩, ?_⟩
    intro _ l1 hl1
    -- From here on the new link is pending, until an entry is written or the count is taken back.
    set L : Ledger := { Ledger.idle.addRef ip with pend := {ip}, file := some ip } with hL
    have hquiet : L.Quiet := ⟨rfl, rfl, rfl, rfl, by simp [hL], by simp [hL]⟩
    obtain rfl : l1 = L.lock ip v := (hl1 v (by simp)).trans (if_neg hdir)
    have hbad : (fsRules N).wp (sysLink.bad ip) (fun _ l => l = .idle) L := by
      simp only [sysLink.bad, wp_bind]
      refine wp_ilock_quiet hquiet (by simp [hL]) fun u _ _ => ?_
      refine ⟨⟨rfl, rfl, by simp [hL], u, by simp⟩, ?_⟩
      rintro _ l' rfl
      refine wp_iunlockput _ (v := u) rfl (by simp) rfl (by simp [hL]) (by simp [hL]) ?_
      simp [hL, Ledger.unlock, Ledger.dropRef, Ledger.lock, Ledger.addRef, Ledger.idle]
    refine wp_iunlock_quiet hquiet ?_
    refine wp_namex hquiet rfl new true hbad fun dp name => ?_
    simp only [wp_bind]
    refine wp_ilock_quiet (hquiet.addRef dp) (by simp) fun w _ _ => ?_
    have hmod : ip % 65536 = ip := Nat.mod_eq_of_lt (by omega)
    refine wp_dirlink (v := w) rfl (by simp) rfl (by simp [hL])
      (fun _ c k _ => ⟨by simp [hL, Ledger.idle], ?_⟩) (fun hw hs => ⟨?_, ?_⟩)
    · rw [if_pos (by decide), wp_bind, Ledger.dropRef_addRef rfl (by simp +contextual [hL])]
      exact wp_iunlockput_quiet hquiet hbad
    · refine ⟨rfl, w, by simp, hw, .inr ⟨by simp [hmod, hpos.ne'], hs, rfl, .inr (.inl ?_)⟩⟩
      simp [Ledger.MayLink, hL, hmod, Ledger.idle]
    · rw [if_neg (by decide), hmod]
      simp only [wp_bind]
      set M : Ledger := { Ledger.idle.addRef ip with file := some ip } with hM
      have hwrote : ((L.addRef dp).lock dp w).wrote dp w (emptySlot w.ents) ⟨ip, name⟩ =
          (M.addRef dp).lock dp ⟨w.type, putSlot w.ents (emptySlot w.ents) ⟨ip, name⟩⟩ := by
        simp [Ledger.wrote, Ledger.setView, hL, hM, hpos.ne', Ledger.lock, Ledger.addRef, Ledger.idle]
      rw [hwrote]
      refine wp_iunlockput_quiet ⟨rfl, rfl, rfl, rfl, by simp [hM, Ledger.idle], by simp [hM]⟩ ?_
      refine wp_iput M rfl (by simp [hM]) (by simp [hM, Ledger.idle]) (by simp [hM, Ledger.idle]) ?_
      change M.dropRef ip = .idle
      simp [hM, Ledger.dropRef, Ledger.addRef, Ledger.idle]

theorem wp_unlinkTail {dp ip : Nat} {v w : View} {gone : Finset Nat} (hne : dp ≠ ip)
    (hgone : gone = ∅ ∨ gone = {ip}) :
    (fsRules N).wp (do
        iunlockput dp
        Prog.perform (FsAct.decLink ip)
        iunlockput ip
        pure (0 : Int)) (fun _ l => l = .idle)
      { Ledger.idle with held := [(ip, w), (dp, v)], refs := {ip, dp}, pend := {ip}, gone } := by
  simp only [wp_bind]
  refine wp_iunlockput _ (v := v) rfl (by simp) rfl (by simp) (by simp [hne]) ?_
  refine ⟨⟨rfl, rfl, by simp [Ledger.unlock, Ledger.dropRef], w, ?_⟩, ?_⟩
  · simp [Ledger.unlock, Ledger.dropRef, hne.symm]
  rintro _ l' rfl
  refine wp_iunlockput _ (v := w) rfl ?_ rfl ?_ ?_ ?_
  · simp [Ledger.unlock, Ledger.dropRef, hne.symm]
  · simp [Ledger.unlock, Ledger.dropRef, Multiset.insert_eq_cons, hne.symm]
  · simp [Ledger.unlock, Ledger.dropRef]
  · have hsame : ({ip} : Finset Nat).erase dp = {ip} := Finset.erase_eq_of_notMem (by simpa using hne)
    rcases hgone with rfl | rfl <;>
      simp [Ledger.unlock, Ledger.dropRef, Multiset.insert_eq_cons, Ledger.idle, hne.symm, hsame]

theorem wrote_clear {dp ip off : Nat} {name : Name} {v w : View} (hne : dp ≠ ip)
    (hoff : v.ents[off]? = some ⟨ip, name⟩) :
    ((((Ledger.idle.addRef dp).lock dp v).addRef ip).lock ip w).wrote dp v off ⟨0, []⟩ =
      { Ledger.idle with
        held := [(ip, w), (dp, ⟨v.type, putSlot v.ents off ⟨0, []⟩⟩)], refs := {ip, dp}
        pend := if w.type = .dir then {dp, ip} else {ip}
        gone := if w.type = .dir then {ip} else ∅ } := by
  have hdir : ((((Ledger.idle.addRef dp).lock dp v).addRef ip).lock ip w).holdsDir ip =
      decide (w.type = .dir) := by
    simp [Ledger.holdsDir, hne, Ledger.idle]
  simp only [Ledger.wrote, hoff, Option.map_some, Option.getD_some, hdir, if_true]
  split_ifs <;>
    simp_all [Ledger.setView, Ledger.lock, Ledger.addRef, Ledger.idle, hne.symm,
      Multiset.insert_eq_cons]

theorem wp_sysUnlink (path : Path) :
    (fsRules N).wp (sysUnlink path) (fun _ l => l = .idle) .idle := by
  rw [sysUnlink, wp_bind]
  refine wp_namex .idle rfl path true rfl fun dp name => ?_
  simp only [wp_bind]
  refine wp_ilock_quiet (Ledger.Quiet.idle.addRef dp) (by simp) fun v _ _ => ?_
  have hbad : (fsRules N).wp (sysUnlink.bad dp) (fun _ l => l = .idle)
      ((Ledger.idle.addRef dp).lock dp v) := by
    rw [sysUnlink.bad, wp_bind]
    exact wp_iunlockput_quiet .idle rfl
  split_ifs with hdots
  · exact hbad
  · rw [wp_bind]
    refine wp_dirlookup (v := v) rfl (by simp) rfl (fun _ _ => hbad) (fun hv ip off hs => ?_)
    obtain ⟨hip, hoff⟩ := dirSearch_getElem hs
    have hord : (⟨ip, name⟩ : Dirent).ordinary := ⟨hip, fun h => hdots (.inl h), fun h => hdots (.inr h)⟩
    simp only [wp_bind]
    refine ⟨⟨rfl, by simp, rfl, .inl ⟨rfl, ?_⟩⟩, ?_⟩
    · intro x hx
      obtain rfl : x = (dp, v) := by simpa [Ledger.idle] using hx
      exact ⟨_, List.mem_of_getElem? hoff, hord, rfl⟩
    rintro _ l1 ⟨hne, w, _, _, _, rfl⟩
    have hdi : dp ≠ ip := hne (dp, v) (by simp)
    refine wp_readInode (v := w) rfl (by simp) fun nlink => ?_
    split_ifs with hlink hfull hdir
    · exact wp_kpanic (by decide) _ rfl
    · rw [wp_bind]
      refine wp_iunlockput _ (v := w) rfl (by simp) rfl (by simp) (by simp [Ledger.idle]) ?_
      rw [Ledger.unlock_lock w hne, Ledger.dropRef_addRef rfl (by simp [Ledger.idle])]
      exact hbad
    all_goals
      simp only [wp_bind]
      refine ⟨⟨rfl, rfl, v, by simp, hv, .inl ⟨rfl, rfl, rfl, ⟨ip, name⟩, w, hoff, hord, hdi.symm,
        by simp, fun hw => ?_⟩⟩, ?_⟩
      · simpa [hw] using hfull
      rintro (_ | _) l2 hl2
      · exact wp_kpanic (by decide) _ (congrArg Ledger.put hl2)
      obtain rfl := hl2 v (by simp)
    · rw [wrote_clear hdi hoff, if_pos hdir, if_pos hdir]
      refine ⟨⟨rfl, rfl, by simp, ⟨v.type, putSlot v.ents off ⟨0, []⟩⟩, by simp⟩, ?_⟩
      rintro _ l' rfl
      have herase : ({dp, ip} : Multiset Nat).erase dp = {ip} := by simp [Multiset.insert_eq_cons]
      simp only [herase]
      exact wp_unlinkTail hdi (.inr rfl)
    · rw [wrote_clear hdi hoff, if_neg hdir, if_neg hdir]
      exact wp_unlinkTail hdi (.inl rfl)

theorem wp_iallocFrom {type : InodeType} (htype : type ≠ .free) {inums : List Nat}
    (hinums : ∀ i ∈ inums, i ≠ 0 ∧ i < N) (hput : l.put = .none) (hfresh : l.fresh = none)
    (hgone : l.gone = ∅)
    (hpend : l.pend = 0) (hheld : ∀ x ∈ l.held, x.2.type = .dir) {Q : Nat → Ledger → Prop}
    (hQ : ∀ i, i ≠ 0 → i < N → (∀ x ∈ l.held, x.1 ≠ i) →
      Q i { l.addRef i with fresh := some i, ftype := type }) :
    (fsRules N).wp (iallocFrom type inums) Q l := by
  induction inums with
  | nil => exact wp_kpanic (by decide) _ hput
  | cons i rest ih =>
    obtain ⟨hi, hN⟩ := hinums i (by simp)
    rw [iallocFrom, wp_bind]
    refine ⟨⟨hput, htype, hi, hN, hfresh, hgone, hpend, hheld⟩, ?_⟩
    rintro (_ | _) l' hl'
    · obtain rfl : l' = l := hl'
      exact ih fun j hj => hinums j (List.mem_cons_of_mem _ hj)
    · obtain ⟨hne, rfl⟩ := hl'
      refine ⟨⟨hput, hgone, .inr (.inr rfl)⟩, ?_⟩
      rintro _ l' rfl
      exact hQ i hi hN hne

theorem dirSearch_eq_none {name : Name} {ents : List Dirent} {off : Nat} :
    dirSearch name ents off = none ↔ ∀ de ∈ ents, de.inum ≠ 0 → de.name ≠ name := by
  induction ents generalizing off with
  | nil => simp [dirSearch]
  | cons de ents ih =>
    simp only [dirSearch]
    split_ifs with hz hn
    · simp [ih, hz]
    · simp [hz, hn]
    · simp [ih, hz, Ne.symm hn]

theorem emptySlot_split {ents : List Dirent} (h : emptySlot ents < ents.length) :
    ∃ a x b, ents = a ++ x :: b ∧ x.inum = 0 ∧ a.length = emptySlot ents := by
  refine ⟨ents.take (emptySlot ents), ents[emptySlot ents], ents.drop (emptySlot ents + 1), ?_,
    ?_, ?_⟩
  · rw [List.cons_getElem_drop_succ, List.take_append_drop]
  · exact beq_iff_eq.mp (List.findIdx_getElem (p := fun de : Dirent => de.inum == 0) (w := h))
  · simp [Nat.le_of_lt h]

theorem putSlot_emptySlot (ents : List Dirent) (de : Dirent) :
    (∃ a x b, ents = a ++ x :: b ∧ x.inum = 0 ∧ putSlot ents (emptySlot ents) de = a ++ de :: b) ∨
      putSlot ents (emptySlot ents) de = ents ++ [de] := by
  unfold putSlot
  split_ifs with h
  · obtain ⟨a, x, b, hs, hx, hlen⟩ := emptySlot_split h
    refine .inl ⟨a, x, b, hs, hx, ?_⟩
    rw [← hlen]
    conv_lhs => rw [hs]
    simp
  · exact .inr rfl

theorem mem_putSlot_emptySlot {ents : List Dirent} {de e : Dirent} (he : e.inum ≠ 0) :
    e ∈ putSlot ents (emptySlot ents) de ↔ e = de ∨ e ∈ ents := by
  rcases putSlot_emptySlot ents de with ⟨a, x, b, hs, hx, hput⟩ | hput
  · have hne : e ≠ x := by
      rintro rfl
      exact he hx
    rw [hput, hs]
    simp [hne]
    tauto
  · simp [hput, or_comm]

theorem dirSearch_putSlot {name : Name} {ents : List Dirent} {i : Nat} (hi : i ≠ 0)
    (h : dirSearch name ents 0 = none) :
    ∃ k, dirSearch name (putSlot ents (emptySlot ents) ⟨i, name⟩) 0 = some (i, k) := by
  rw [dirSearch_eq_none] at h
  cases hs : dirSearch name (putSlot ents (emptySlot ents) ⟨i, name⟩) 0 with
  | none =>
    rw [dirSearch_eq_none] at hs
    exact absurd rfl (hs ⟨i, name⟩ ((mem_putSlot_emptySlot hi).mpr (.inl rfl)) hi)
  | some r =>
    obtain ⟨hr, hk⟩ := dirSearch_getElem (i := r.1) (k := r.2) hs
    rcases (mem_putSlot_emptySlot hr).mp (List.mem_of_getElem? hk) with heq | hmem
    · obtain ⟨rfl, -⟩ := Dirent.mk.inj heq
      exact ⟨r.2, rfl⟩
    · exact absurd rfl (h _ hmem hr)

/-- The ledger of `create` between `ialloc` and the entry of the new inode `ip`. -/
def Ledger.creating (dp ip : Nat) (v w : View) (type : InodeType) (pend : Multiset Nat) : Ledger :=
  { Ledger.idle with
    held := [(ip, w), (dp, v)], refs := {ip, dp}, pend, fresh := some ip, ftype := type }

theorem creating_wrote_dot {dp ip slot : Nat} {v w : View} {type : InodeType} {pend : Multiset Nat}
    {de : Dirent} (hne : dp ≠ ip) (hde : de.inum ≠ 0) :
    (Ledger.creating dp ip v w type pend).wrote ip w slot de =
      .creating dp ip v ⟨w.type, putSlot w.ents slot de⟩ type pend := by
  simp [Ledger.wrote, Ledger.creating, Ledger.setView, hde, hne]

theorem wp_dirlinkDot {dp ip inum : Nat} {v w : View} {name : Name} (hne : dp ≠ ip) (hinum : inum ≠ 0) (hlt : inum < 65536)
    (hmay : (Ledger.creating dp ip v w .dir {dp, ip}).MayDot ip ⟨inum, name⟩)
    {Q : Int → Ledger → Prop} (hfail : ∀ l, l.put = .none → Q (-1) l)
    (hQ : ∀ w', (∃ k, dirSearch name w'.ents 0 = some (inum, k)) →
      Q 0 (.creating dp ip v w' .dir {dp, ip})) :
    (fsRules N).wp (dirlink ip name inum) Q (.creating dp ip v w .dir {dp, ip}) := by
  have hmem : (ip, w) ∈ (Ledger.creating dp ip v w .dir {dp, ip}).held := by
    simp [Ledger.creating]
  refine wp_dirlink rfl hmem rfl (by simp [Ledger.creating, or_comm])
    (fun _ c k _ => ⟨fun hc => ?_, hfail _ rfl⟩) (fun hw hs => ?_)
  · obtain rfl : ip = c := by simpa [Ledger.creating] using hc
    exact ⟨w, hmem⟩
  · rw [Nat.mod_eq_of_lt hlt, creating_wrote_dot hne hinum]
    exact ⟨⟨rfl, w, hmem, hw, .inr ⟨hinum, hs, rfl, .inl hmay⟩⟩, hQ _ (dirSearch_putSlot hinum hs)⟩

theorem wp_createDots {dp ip : Nat} {v w : View} (hne : dp ≠ ip) (hdp : dp ≠ 0) (hip : ip ≠ 0)
    (hdpN : dp < 65536) (hipN : ip < 65536) (hv : v.type = .dir) {Q : Unit → Ledger → Prop}
    (hQ : ∀ w', (∃ k, dirSearch dotdot w'.ents 0 = some (dp, k)) →
      Q () (.creating dp ip v w' .dir {dp, ip})) :
    (fsRules N).wp (createDots dp ip) Q (.creating dp ip v w .dir {ip}) := by
  have hheld (w : View) : (ip, w) ∈ (Ledger.creating dp ip v w .dir {dp, ip}).held := by
    simp [Ledger.creating]
  have hmem (w : View) : (dp, v) ∈ (Ledger.creating dp ip v w .dir {dp, ip}).held := by
    simp [Ledger.creating]
  simp only [createDots, wp_bind]
  refine ⟨⟨rfl, v, hmem w, .inl ⟨hv, rfl, ip, rfl, hne.symm, rfl⟩⟩, ?_⟩
  intro _ l1 hl1
  obtain rfl : l1 = .creating dp ip v w .dir {dp, ip} :=
    (hl1 v (hmem w)).trans (if_pos hv)
  refine wp_dirlinkDot hne hip hipN ⟨rfl, .inl ⟨rfl, rfl⟩⟩ (fun l hput => ?_) (fun w1 hw1 => ?_)
  · exact wp_kpanic (by decide) _ hput
  · simp only [Int.lt_irrefl, if_false, wp_bind]
    obtain ⟨k, hk⟩ := hw1
    refine wp_dirlinkDot hne hdp hdpN
      ⟨rfl, .inr ⟨rfl, hne, ⟨v, hmem w1, hv⟩, w1, k, hheld w1, hk⟩⟩ (fun l hput => ?_)
      (fun w2 hw2 => ?_)
    · exact wp_kpanic (by decide) _ hput
    · exact hQ w2 hw2

theorem wp_publish {dp ip : Nat} {v w : View} {name : Name} {type : InodeType} {pend : Multiset Nat}
    (hne : dp ≠ ip) (hip : ip ≠ 0) (hipN : ip < 65536) (hv : v.type = .dir)
    (hs : dirSearch name v.ents 0 = none)
    (hready : type = .dir ∧ pend = {dp, ip} ∧ (∃ k, dirSearch dotdot w.ents 0 = some (dp, k)) ∨
      type ≠ .dir ∧ pend = {ip})
    {Q : Option Nat → Ledger → Prop} (hQ : Q (some ip) ((Ledger.idle.addRef ip).lock ip w)) :
    (fsRules N).wp (do
        if (← dirlink dp name ip) < 0 then kpanic .createDirlink
        else do
          iunlockput dp
          pure (some ip)) Q (.creating dp ip v w type pend) := by
  have hmem : (dp, v) ∈ (Ledger.creating dp ip v w type pend).held := by
    simp [Ledger.creating]
  rw [wp_bind]
  have hpend : ∀ c ∈ pend, c ∈ (Ledger.creating dp ip v w type pend).refs := by
    rcases hready with ⟨_, rfl, _⟩ | ⟨_, rfl⟩ <;> simp [Ledger.creating, or_comm]
  refine wp_dirlink rfl hmem rfl hpend (fun _ c k hc => ?_) (fun _ _ => ⟨?_, ?_⟩)
  · simp [hs] at hc
  · rw [Nat.mod_eq_of_lt hipN]
    refine ⟨rfl, v, hmem, hv, .inr ⟨hip, hs, rfl, .inr (.inr ⟨rfl, hne.symm, w, ?_, hready⟩)⟩⟩
    simp [Ledger.creating]
  · have hwrote : (Ledger.creating dp ip v w type pend).wrote dp v (emptySlot v.ents) ⟨ip, name⟩ =
        { Ledger.idle with
          held := [(ip, w), (dp, ⟨v.type, putSlot v.ents (emptySlot v.ents) ⟨ip, name⟩⟩)]
          refs := {ip, dp} } := by
      simp [Ledger.wrote, Ledger.creating, Ledger.setView, Ledger.idle, hip, hne.symm]
    rw [Nat.mod_eq_of_lt hipN, hwrote]
    simp only [Int.lt_irrefl, if_false, wp_bind]
    refine wp_iunlockput _ (v := ⟨v.type, putSlot v.ents (emptySlot v.ents) ⟨ip, name⟩⟩) rfl (by simp) rfl
      (by simp) (by simp [Ledger.idle]) ?_
    have hput : (Ledger.unlock { Ledger.idle with
          held := [(ip, w), (dp, ⟨v.type, putSlot v.ents (emptySlot v.ents) ⟨ip, name⟩⟩)]
          refs := {ip, dp} } dp).dropRef dp = (Ledger.idle.addRef ip).lock ip w := by
      simp [Ledger.unlock, Ledger.dropRef, Ledger.lock, Ledger.addRef, Ledger.idle, hne.symm,
        Multiset.insert_eq_cons]
    rw [hput]
    exact hQ

theorem wp_create (hN : N ≤ 65536) (path : Path) {type : InodeType} (htype : type ≠ .free)
    (major minor : Int) {Q : Option Nat → Ledger → Prop} (hnone : Q none .idle)
    (hsome : ∀ ip w, Q (some ip) ((Ledger.idle.addRef ip).lock ip w)) :
    (fsRules N).wp (create N path type major minor) Q .idle := by
  rw [create, wp_bind]
  refine wp_namex .idle rfl path true hnone fun dp name => ?_
  simp only [wp_bind]
  refine wp_ilock_quiet (Ledger.Quiet.idle.addRef dp) (by simp) fun v hdp hdpN => ?_
  refine wp_dirlookup (v := v) rfl (by simp) rfl (fun hv hs => ?_) (fun _ ip k _ => ?_)
  · simp only [wp_bind]
    have hheld (x : Nat × View) (hx : x ∈ ((Ledger.idle.addRef dp).lock dp v).held) :
        x = (dp, v) := by simpa [Ledger.idle] using hx
    have hinums (i : Nat) (hi : i ∈ List.range' 1 (N - 1)) : i ≠ 0 ∧ i < N := by
      rw [List.mem_range'_1] at hi
      omega
    refine wp_iallocFrom htype hinums rfl rfl rfl rfl (fun x hx => by rw [hheld x hx]; exact hv)
      fun ip hip hipN hfresh => ?_
    have hne : dp ≠ ip := hfresh (dp, v) (by simp)
    refine ⟨⟨rfl, by simp, rfl, .inr ⟨rfl, rfl, hfresh⟩⟩, ?_⟩
    rintro _ l1 ⟨_, w, _, _, _, rfl⟩
    refine ⟨⟨rfl, rfl, rfl, w, by simp⟩, ?_⟩
    rintro _ l2 rfl
    by_cases hdir : type = .dir
    · subst hdir
      rw [if_pos rfl, wp_bind]
      refine wp_createDots hne (by omega) hip (by omega) (by omega) hv fun w' hw' => ?_
      refine wp_publish hne hip (by omega) hv hs (.inl ⟨rfl, rfl, hw'⟩) (hsome ip w')
    · rw [if_neg hdir]
      exact wp_publish hne hip (by omega) hv hs (.inr ⟨hdir, rfl⟩) (hsome ip w)
  · simp only [wp_bind]
    refine wp_iunlockput_next .idle ?_
    refine wp_ilock_quiet (Ledger.Quiet.idle.addRef ip) (by simp) fun w _ _ => ?_
    refine wp_readInode (v := w) rfl (by simp) fun nlink => ?_
    split_ifs
    · exact hsome ip w
    · rw [wp_bind]
      exact wp_iunlockput_quiet .idle hnone

theorem wp_fileclose {f : FileId} (hl : l.Quiet) (hf : l.fhold = some f)
    (hp : l.pfile = none ∨ l.pfile = some f) {Q : Unit → Ledger → Prop}
    (hQ : Q () { l with fhold := none, pfile := none }) :
    (fsRules N).wp (fileclose f) Q l := by
  rw [fileclose, wp_bind]
  refine ⟨⟨hl.put, hf, hp⟩, ?_⟩
  rintro (_ | i) l' ⟨_, rfl⟩
  · exact hQ
  · change (fsRules N).wp (iput i) Q { l.addRef i with fhold := none, pfile := none }
    refine wp_iput { l.addRef i with fhold := none, pfile := none } hl.put (by simp) (by simp [hl.fresh])
      (fun (hi : i ∈ l.pend) => ?_) ?_
    · simp [hl.gone, hl.file i (hl.pend i hi)]
    have hdrop := Ledger.dropRef_addRef (l := { l with fhold := none, pfile := none }) hl.gone
      (hl.file i)
    exact hdrop ▸ hQ

theorem wp_openFile (omode ip : Nat) (w : View) :
    (fsRules N).wp (openFile ip omode) (fun _ l => l = .idle) ((Ledger.idle.addRef ip).lock ip w) := by
  have hbad : (fsRules N).wp (do iunlockput ip; pure (-1)) (fun (_ : Int) l => l = .idle)
      ((Ledger.idle.addRef ip).lock ip w) := by
    rw [wp_bind]
    exact wp_iunlockput_quiet .idle rfl
  rw [openFile, wp_bind]
  refine ⟨⟨rfl, rfl, rfl⟩, ?_⟩
  rintro (_ | f) l1 rfl
  · exact hbad
  · refine ⟨⟨rfl, rfl⟩, ?_⟩
    rintro (_ | fd) l2 rfl
    · -- The file has no inode yet, so its `fileclose` puts none.
      refine ⟨⟨rfl, rfl, .inr rfl⟩, ?_⟩
      rintro r l3 ⟨hr, rfl⟩
      obtain rfl := hr rfl
      exact hbad
    · refine wp_iunlock_quiet (l := { Ledger.idle.addRef ip with pfile := some f })
        ⟨rfl, rfl, rfl, rfl, by simp [Ledger.idle], by simp [Ledger.idle]⟩ ?_
      refine ⟨⟨rfl, rfl, rfl, by simp, rfl, rfl, rfl, rfl, rfl⟩, ?_⟩
      rintro _ l3 rfl
      change ({ Ledger.dropRef { Ledger.idle.addRef ip with pfile := some f } ip with pfile := none } :
        Ledger) = .idle
      simp [Ledger.dropRef, Ledger.addRef, Ledger.idle]

theorem wp_sysOpen (hN : N ≤ 65536) (path : Path) (omode : Nat) :
    (fsRules N).wp (sysOpen N path omode) (fun _ l => l = .idle) .idle := by
  rw [sysOpen]
  split_ifs
  · rw [wp_bind]
    exact wp_create hN path (by decide) 0 0 rfl (wp_openFile omode)
  · rw [wp_bind]
    refine wp_namei .idle rfl path rfl fun ip => ?_
    simp only [wp_bind]
    refine wp_ilock_quiet (Ledger.Quiet.idle.addRef ip) (by simp) fun v _ _ => ?_
    refine wp_readInode (v := v) rfl (by simp) fun nlink => ?_
    split_ifs
    · rw [wp_bind]
      exact wp_iunlockput_quiet .idle rfl
    · exact wp_openFile omode ip v

theorem wp_sysChdir (path : Path) :
    (fsRules N).wp (sysChdir path) (fun _ l => l = .idle) .idle := by
  rw [sysChdir, wp_bind]
  refine wp_namei .idle rfl path rfl fun ip => ?_
  simp only [wp_bind]
  refine wp_ilock_quiet (Ledger.Quiet.idle.addRef ip) (by simp) fun v _ _ => ?_
  refine wp_readInode (v := v) rfl (by simp) fun nlink => ?_
  split_ifs
  · rw [wp_bind]
    exact wp_iunlockput_quiet .idle rfl
  · simp only [wp_bind]
    refine wp_iunlock_quiet (Ledger.Quiet.idle.addRef ip) ?_
    refine ⟨⟨rfl, rfl⟩, ?_⟩
    rintro c l1 rfl
    refine wp_iput _ rfl (by simp) (by simp [Ledger.idle]) (by simp [Ledger.idle]) ?_
    have hdrop : Ledger.dropRef { (Ledger.idle.addRef ip).addRef c with cwd := true } c =
        { Ledger.idle.addRef ip with cwd := true } :=
      Ledger.dropRef_addRef (l := { Ledger.idle.addRef ip with cwd := true }) rfl (by simp [Ledger.idle])
    rw [hdrop]
    refine ⟨⟨rfl, rfl, by simp, rfl, rfl, rfl, rfl, rfl⟩, ?_⟩
    rintro _ l3 rfl
    change ({ Ledger.dropRef { Ledger.idle.addRef ip with cwd := true } ip with cwd := false } :
      Ledger) = .idle
    simp [Ledger.dropRef, Ledger.addRef, Ledger.idle]

theorem wp_closeFd {fd : Fd} {β : Type} {k : Option FileId → FsM β} {Q : β → Ledger → Prop}
    (hnone : (fsRules N).wp (k none) Q .idle)
    (hsome : ∀ f, (fsRules N).wp (k (some f)) Q { Ledger.idle with fhold := some f }) :
    (fsRules N).wp (Prog.perform (FsAct.takeFd fd) >>= k) Q .idle := by
  rw [wp_bind]
  refine ⟨⟨rfl, rfl, rfl⟩, ?_⟩
  rintro (_ | f) l rfl
  · exact hnone
  · exact hsome f

theorem Ledger.Quiet.fhold (f : FileId) : Ledger.Quiet { Ledger.idle with fhold := some f } :=
  ⟨rfl, rfl, rfl, rfl, by simp [Ledger.idle], by simp [Ledger.idle]⟩

theorem wp_sysClose (fd : Fd) : (fsRules N).wp (sysClose fd) (fun _ l => l = .idle) .idle := by
  refine wp_closeFd rfl fun f => ?_
  simp only [wp_bind]
  exact wp_fileclose (.fhold f) rfl (.inl rfl) rfl

theorem wp_closeAll (fds : List Fd) {Q : Unit → Ledger → Prop} (hQ : Q () .idle) :
    (fsRules N).wp (closeAll fds) Q .idle := by
  induction fds with
  | nil => exact hQ
  | cons fd rest ih =>
    refine wp_closeFd ih fun f => ?_
    simp only [wp_bind]
    exact wp_fileclose (.fhold f) rfl (.inl rfl) ih

theorem wp_sysExit : (fsRules N).wp sysExit (fun _ l => l = .idle) .idle := by
  simp only [sysExit, wp_bind]
  refine wp_closeAll _ ⟨⟨rfl, rfl⟩, ?_⟩
  rintro c l1 rfl
  refine wp_iput _ rfl (by simp) (by simp [Ledger.idle]) (by simp [Ledger.idle]) ?_
  have hdrop : Ledger.dropRef { Ledger.idle.addRef c with cwd := true } c =
      { Ledger.idle with cwd := true } :=
    Ledger.dropRef_addRef (l := { Ledger.idle with cwd := true }) rfl (by simp [Ledger.idle])
  rw [hdrop]
  refine ⟨⟨rfl, rfl, by simp, rfl, rfl, rfl, rfl, rfl⟩, ?_⟩
  rintro _ l3 rfl
  rfl

/-- Every system call keeps to the rules and gives back what it has taken. -/
theorem wp_syscall (hN : N ≤ 65536) (c : Syscall) :
    (fsRules N).wp (c.prog N) (fun _ l => l = .idle) .idle := by
  cases c with
  | «open» path omode => exact wp_sysOpen hN path omode
  | mkdir path =>
    simp only [Syscall.prog, sysMkdir, wp_bind]
    refine wp_create hN path (by decide) 0 0 rfl fun ip w => ?_
    simp only [wp_bind]
    exact wp_iunlockput_quiet .idle rfl
  | mknod path major minor =>
    simp only [Syscall.prog, sysMknod, wp_bind]
    refine wp_create hN path (by decide) _ _ rfl fun ip w => ?_
    simp only [wp_bind]
    exact wp_iunlockput_quiet .idle rfl
  | link old new => exact wp_sysLink hN old new
  | unlink path => exact wp_sysUnlink path
  | chdir path => exact wp_sysChdir path
  | close fd => exact wp_sysClose fd
  | exit => exact wp_sysExit

end Xv6
