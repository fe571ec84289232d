import Mathlib.Data.Fintype.BigOperators
import Mathlib.Data.Multiset.AddSub
import Xv6.Dir.Actions
import Xv6.Lib.Sum

/-!
# Conservation of references

The reference counts of open files and cached inodes are the numbers of places that refer to them:
descriptors, working directories, open files, and the hands of the calls in progress.
-/

namespace Xv6

open Function (update_of_ne update_self)

/-- The references to inodes and open files that a call has taken and not yet stored or given back, and
what it knows of its own descriptors and of the child it is making. -/
structure Hand (P : Type) where
  /-- References to inodes. -/
  refs : Multiset Nat
  /-- The reference of the working directory has passed to `refs`. -/
  cwd : Bool
  /-- References to open files that are in no descriptor. -/
  files : Multiset FileId
  /-- Files from `filealloc` without a type. -/
  fresh : Multiset FileId
  /-- A descriptor that was looked up or set. -/
  slot : Option (Fd × FileId)
  /-- A file in a second descriptor that its count does not include yet. -/
  debt : Option FileId
  /-- Descriptors known to be null. -/
  closed : List Fd
  /-- The working directory is null. -/
  gone : Bool
  /-- The slot that `fork` is filling. -/
  child : Option P
  /-- Descriptors of the child that are still null. -/
  todo : List Fd

variable {P : Type}

namespace Hand

def idle : Hand P := ⟨0, false, 0, 0, none, none, [], false, none, []⟩

def addRef (l : Hand P) (i : Nat) : Hand P := { l with refs := i ::ₘ l.refs }

def dropRef (l : Hand P) (i : Nat) : Hand P := { l with refs := l.refs.erase i }

def addFile (l : Hand P) (f : FileId) : Hand P := { l with files := f ::ₘ l.files }

def dropFile (l : Hand P) (f : FileId) : Hand P := { l with files := l.files.erase f }

@[simp]
theorem dropRef_addRef (l : Hand P) (i : Nat) : (l.addRef i).dropRef i = l := by
  simp [dropRef, addRef]

@[simp]
theorem dropRef_addRef_addRef (l : Hand P) (i j : Nat) :
    ((l.addRef i).addRef j).dropRef i = l.addRef j := by
  simp [dropRef, addRef, Multiset.cons_swap j i]

@[simp]
theorem refs_addRef (l : Hand P) (i : Nat) : (l.addRef i).refs = i ::ₘ l.refs := rfl

end Hand

/-- How the actions use what a call has in its hands. -/
def handFsRules (P : Type) : Rules FsAct FsAct.Res (Hand P) where
  pre
    | .idupCwd, l | .readCwd, l => l.cwd = false
    | .iputDrop i, l => i ∈ l.refs
    | .fdalloc f, l => f ∈ l.files ∨ l.debt = none ∧ ∃ fd, l.slot = some (fd, f)
    | .fileclose f, l => f ∈ l.files
    | .takeFd _, l => l.debt = none
    | .setFile f i _ _, l => f ∈ l.fresh ∧ i ∈ l.refs
    | .setCwd i, l => l.cwd = true ∧ ∀ j, i = some j → j ∈ l.refs
    | .panic e, _ => e ≠ .fileclose
    | _, _ => True
  post
    | .iget i, l, _, l' => l' = l.addRef i
    | .idupCwd, l, i, l' => l' = l.addRef i
    | .readCwd, l, i, l' => l' = { l.addRef i with cwd := true }
    | .iputDrop i, l, _, l' => l' = l.dropRef i
    | .filealloc, l, r, l' => l' = match r with
        | none => l
        | some f => { l.addFile f with fresh := f ::ₘ l.fresh }
    | .fdalloc f, l, r, l' => l' = match r with
        | none => l
        | some fd =>
          if f ∈ l.files then { l.dropFile f with slot := some (fd, f), closed := [] }
          else { l with debt := some f, closed := [] }
    | .fileclose f, l, r, l' => l' = match r with
        | none => { l.dropFile f with fresh := l.fresh.erase f }
        | some i => { (l.dropFile f).addRef i with fresh := l.fresh.erase f }
    | .takeFd fd, l, r, l' => l' = match r with
        | none => { l with closed := fd :: l.closed }
        | some f => { l.addFile f with slot := none, closed := fd :: l.closed }
    | .setFile f i _ _, l, _, l' => l' = { l.dropRef i with fresh := l.fresh.erase f }
    | .setCwd i, l, _, l' => l' = match i with
        | none => { l with cwd := false, gone := true }
        | some j => { l.dropRef j with cwd := false, gone := false }
    | _, l, _, l' => l' = l

/-- Descriptors of a process that refer to the file. -/
def ofileCount (ofile : Fd → Option FileId) (f : FileId) : Nat :=
  ∑ fd, if ofile fd = some f then 1 else 0

theorem ofileCount_update (ofile : Fd → Option FileId) (fd : Fd) (x : Option FileId) (f : FileId) :
    ofileCount (Function.update ofile fd x) f + (if ofile fd = some f then 1 else 0) =
      ofileCount ofile f + if x = some f then 1 else 0 :=
  sum_update_balance (fun _ a => if a = some f then 1 else 0) ofile fd x

variable {f : FileId} {fd : Fd}

theorem ofileCount_pos {ofile : Fd → Option FileId}
    (h : ofile fd = some f) : 0 < ofileCount ofile f := by
  have hle := le_sum_univ (fun k => if ofile k = some f then 1 else 0) fd
  simp only [h, if_true] at hle
  exact hle

/-- References to an inode from open files. -/
def Fs.fileRefs (s : Fs P) (i : Nat) : Nat :=
  ∑ f, if (s.file f).type = .inode ∧ (s.file f).ip = i then 1 else 0

theorem fileRefs_pos {s : Fs P} {f : FileId} (h : (s.file f).type = .inode) :
    0 < s.fileRefs (s.file f).ip := by
  have hle := le_sum_univ
    (fun g => if (s.file g).type = .inode ∧ (s.file g).ip = (s.file f).ip then 1 else 0) f
  rw [if_pos ⟨h, rfl⟩] at hle
  exact hle

theorem fileRefs_setFile (s : Fs P) (f : FileId) (ff : File) (i : Nat) :
    (s.setFile f ff).fileRefs i +
        (if (s.file f).type = .inode ∧ (s.file f).ip = i then 1 else 0) =
      s.fileRefs i + if ff.type = .inode ∧ ff.ip = i then 1 else 0 :=
  sum_update_balance (fun _ (a : File) => if a.type = .inode ∧ a.ip = i then 1 else 0) s.file f ff

variable {l : Hand P} {i : Nat}

namespace Hand

/-- References to an inode that the process accounts for. -/
def countRef (l : Hand P) (cwd : Option Nat) (i : Nat) : Nat :=
  l.refs.count i + if l.cwd = false ∧ cwd = some i then 1 else 0

theorem countRef_of_cwd {k : Hand P} (h : k.cwd = l.cwd) (cwd : Option Nat) (i : Nat) :
    k.countRef cwd i + l.refs.count i = l.countRef cwd i + k.refs.count i := by
  simp only [countRef, h]
  omega

/-- References to an open file that the process accounts for. -/
def share (l : Hand P) (ofile : Fd → Option FileId) (f : FileId) : Nat :=
  ofileCount ofile f + l.files.count f

/-- A descriptor that the count of the file does not include yet. -/
def owes (l : Hand P) (f : FileId) : Nat := if l.debt = some f then 1 else 0

/-- What a call knows of the tables of its process. -/
structure Sound (s : Fs P) (p : P) (l : Hand P) : Prop where
  fresh : ∀ {f}, f ∈ l.fresh → (s.file f).type = .none ∧ 0 < l.share (s.ofile p) f
  nodup : l.fresh.Nodup
  slot : ∀ {fd f}, l.slot = some (fd, f) → s.ofile p fd = some f
  debt : ∀ {f}, l.debt = some f → 2 ≤ ofileCount (s.ofile p) f
  closed : ∀ {fd}, fd ∈ l.closed → s.ofile p fd = none
  gone : l.gone = true → s.cwd p = none

theorem Sound.idle (s : Fs P) (p : P) : (Hand.idle : Hand P).Sound s p := by
  constructor <;> simp [Hand.idle]

theorem Sound.owes_le {s : Fs P} {p : P} (h : l.Sound s p) (f : FileId) :
    l.owes f ≤ l.share (s.ofile p) f := by
  unfold owes share
  split_ifs with hd
  · have hdebt := h.debt hd
    omega
  · exact Nat.zero_le _

theorem Sound.owes_lt {s : Fs P} {p : P} (h : l.Sound s p)
    (hf : 0 < l.share (s.ofile p) f) : l.owes f < l.share (s.ofile p) f := by
  unfold owes share at *
  split_ifs with hd
  · have hdebt := h.debt hd
    omega
  · exact hf

theorem Sound.keep {s : Fs P} (s' : Fs P) {q : P} (h : l.Sound s q)
    (hofile : s'.ofile q = s.ofile q) (hcwd : s'.cwd q = s.cwd q)
    (htype : ∀ f ∈ l.fresh, (s'.file f).type = .none) : l.Sound s' q := by
  obtain ⟨hfresh, hnodup, hslot, hdebt, hclosed, hgone⟩ := h
  rw [← hofile] at hfresh hslot hdebt hclosed
  rw [← hcwd] at hgone
  exact ⟨fun hf => ⟨htype _ hf, (hfresh hf).2⟩, hnodup, hslot, hdebt, hclosed, hgone⟩

end Hand

structure RefInv [Fintype P] (s : Fs P) (ls : P → Hand P) : Prop where
  refs : ∀ i, (s.inode i).ref = ∑ p, (ls p).countRef (s.cwd p) i + s.fileRefs i
  files : ∀ f, (s.file f).ref + ∑ p, (ls p).owes f = ∑ p, (ls p).share (s.ofile p) f
  unused : ∀ {f}, (s.file f).ref = 0 → (s.file f).type = .none
  sound : ∀ p, (ls p).Sound s p
  apart : ∀ {p q f}, f ∈ (ls p).fresh → f ∈ (ls q).fresh → p = q

namespace RefInv

variable [Fintype P] {s s' : Fs P} {ls : P → Hand P} {p : P} {l : Hand P}

theorem file_pos (h : RefInv s ls) (hf : 0 < (ls p).share (s.ofile p) f) : 0 < (s.file f).ref := by
  have hlt : ∑ q, (ls q).owes f < ∑ q, (ls q).share (s.ofile q) f :=
    Finset.sum_lt_sum (fun q _ => (h.sound q).owes_le f)
      ⟨p, Finset.mem_univ p, (h.sound p).owes_lt hf⟩
  have hcount := h.files f
  omega

theorem hand_pos (h : RefInv s ls) (hf : f ∈ (ls p).files) : 0 < (s.file f).ref :=
  h.file_pos (Nat.add_pos_right _ (Multiset.count_pos.mpr hf))

theorem slot_pos (h : RefInv s ls) (hf : (ls p).slot = some (fd, f)) : 0 < (s.file f).ref :=
  h.file_pos (Nat.add_pos_left (ofileCount_pos ((h.sound p).slot hf)) _)

theorem fresh_pos (h : RefInv s ls) (hf : f ∈ (ls p).fresh) : 0 < (s.file f).ref :=
  h.file_pos ((h.sound p).fresh hf).2

theorem ref_pos (h : RefInv s ls) (hi : i ∈ (ls p).refs) : 0 < (s.inode i).ref := by
  have hcount := Multiset.count_pos.mpr hi
  have hle := le_sum_univ (fun q => (ls q).countRef (s.cwd q) i) p
  have href := h.refs i
  simp only [Hand.countRef] at hle href
  omega

variable [DecidableEq P]

theorem update (h : RefInv s ls) (hofile : ∀ q, q ≠ p → s'.ofile q = s.ofile q)
    (hcwd : ∀ q, q ≠ p → s'.cwd q = s.cwd q)
    (hrefs : ∀ i, (s'.inode i).ref + (ls p).countRef (s.cwd p) i + s.fileRefs i =
      (s.inode i).ref + l.countRef (s'.cwd p) i + s'.fileRefs i)
    (hfiles : ∀ f, (s'.file f).ref + l.owes f + (ls p).share (s.ofile p) f =
      (s.file f).ref + (ls p).owes f + l.share (s'.ofile p) f)
    (hunused : ∀ f, (s'.file f).ref = 0 → (s'.file f).type = .none)
    (htype : ∀ q, q ≠ p → ∀ f ∈ (ls q).fresh, (s'.file f).type = .none)
    (hsound : l.Sound s' p)
    (hfresh : ∀ f ∈ l.fresh, f ∈ (ls p).fresh ∨ ∀ q, f ∉ (ls q).fresh) :
    RefInv s' (Function.update ls p l) := by
  have hother {q : P} (hq : q ≠ p) : Function.update ls p l q = ls q := update_of_ne hq ..
  constructor
  case refs =>
    intro i
    have hsum := sum_balance (f := fun q => (ls q).countRef (s.cwd q) i)
      (g := fun q => (Function.update ls p l q).countRef (s'.cwd q) i) p
      (fun q hq => by rw [hother hq, hcwd q hq])
    simp only [update_self] at hsum
    have hbal := hrefs i
    have href := h.refs i
    omega
  case files =>
    intro f
    have hsum := sum_balance (f := fun q => (ls q).share (s.ofile q) f)
      (g := fun q => (Function.update ls p l q).share (s'.ofile q) f) p
      (fun q hq => by rw [hother hq, hofile q hq])
    have howes := sum_update_balance (fun _ (x : Hand P) => x.owes f) ls p l
    simp only [update_self] at hsum
    have hbal := hfiles f
    have hcount := h.files f
    omega
  case unused => exact fun {f} => hunused f
  case sound =>
    intro q
    by_cases hq : q = p
    · subst hq
      rwa [update_self]
    · rw [hother hq]
      exact (h.sound q).keep _ (hofile q hq) (hcwd q hq) (htype q hq)
  case apart =>
    have hnew {q : P} {f : FileId} (hq : q ≠ p) (hf : f ∈ (ls q).fresh) (hl : f ∈ l.fresh) : False := by
      rcases hfresh f hl with hold | hnone
      · exact hq (h.apart hf hold)
      · exact hnone q hf
    intro q r f hq hr
    by_cases hqp : q = p <;> by_cases hrp : r = p
    · rw [hqp, hrp]
    · rw [hqp, update_self] at hq
      exact (hnew hrp (hother hrp ▸ hr) hq).elim
    · rw [hrp, update_self] at hr
      exact (hnew hqp (hother hqp ▸ hq) hr).elim
    · rw [hother hqp] at hq
      rw [hother hrp] at hr
      exact h.apart hq hr

section

variable (h : RefInv s ls)
include h

omit [DecidableEq P] in
theorem same (href : ∀ i, (s'.inode i).ref = (s.inode i).ref) (hfile : s'.file = s.file)
    (hofile : s'.ofile = s.ofile) (hcwd : s'.cwd = s.cwd) : RefInv s' ls := by
  have hrefs (i : Nat) : s'.fileRefs i = s.fileRefs i := by simp only [Fs.fileRefs, hfile]
  refine ⟨fun i => ?_, fun f => ?_, hfile ▸ h.unused, fun q => ?_, h.apart⟩
  · rw [href, hrefs, hcwd]
    exact h.refs i
  · rw [hfile, hofile]
    exact h.files f
  · refine (h.sound q).keep _ (by rw [hofile]) (by rw [hcwd]) fun f hf => ?_
    rw [hfile]
    exact ((h.sound q).fresh hf).1

theorem same_update (href : ∀ i, (s'.inode i).ref = (s.inode i).ref) (hfile : s'.file = s.file)
    (hofile : s'.ofile = s.ofile) (hcwd : s'.cwd = s.cwd) :
    RefInv s' (Function.update ls p (ls p)) := by
  rw [Function.update_eq_self]
  exact h.same href hfile hofile hcwd

theorem moveRef {m : Multiset Nat} {c g : Bool} (hfile : s'.file = s.file)
    (hofile : s'.ofile = s.ofile) (hcwd : ∀ q, q ≠ p → s'.cwd q = s.cwd q)
    (hrefs : ∀ i, (s'.inode i).ref + (ls p).countRef (s.cwd p) i =
      (s.inode i).ref + { ls p with refs := m, cwd := c, gone := g }.countRef (s'.cwd p) i)
    (hgone : g = true → s'.cwd p = none) :
    RefInv s' (Function.update ls p { ls p with refs := m, cwd := c, gone := g }) := by
  obtain ⟨hfresh, hnodup, hslot, hdebt, hclosed, _⟩ := h.sound p
  rw [← hofile] at hfresh hslot hdebt hclosed
  refine h.update (fun q _ => congrFun hofile q) hcwd (fun i => ?_) (fun f => ?_) (fun f => ?_)
    (fun q _ f hf => ?_) ⟨?_, hnodup, hslot, hdebt, hclosed, hgone⟩ fun f => .inl
  · have hsame : s'.fileRefs i = s.fileRefs i := by simp only [Fs.fileRefs, hfile]
    have hbal := hrefs i
    dsimp only at hbal ⊢
    omega
  · rw [hfile, hofile]
    rfl
  · rw [hfile]
    exact h.unused
  · rw [hfile]
    exact ((h.sound q).fresh hf).1
  · rw [hfile]
    exact hfresh

theorem setRef {n : Inode P} {m : Multiset Nat}
    (hn : n.ref + (ls p).refs.count i = (s.inode i).ref + m.count i)
    (hm : ∀ j, j ≠ i → m.count j = (ls p).refs.count j) :
    RefInv (s.setInode i n) (Function.update ls p { ls p with refs := m }) := by
  refine h.moveRef rfl rfl (fun _ _ => rfl) (fun j => ?_) (h.sound p).gone
  have hcount := Hand.countRef_of_cwd (l := ls p) (k := { ls p with refs := m }) rfl (s.cwd p) j
  dsimp only [Fs.cwd_setInode] at hcount ⊢
  by_cases hj : j = i
  · subst hj
    rw [Fs.inode_setInode_self]
    omega
  · have hj' := hm j hj
    rw [Fs.inode_setInode_ne s n hj]
    omega

theorem addRef {n : Inode P} (hn : n.ref = (s.inode i).ref + 1) :
    RefInv (s.setInode i n) (Function.update ls p ((ls p).addRef i)) := by
  refine h.setRef (m := i ::ₘ (ls p).refs) ?_ fun j hj => Multiset.count_cons_of_ne hj _
  rw [Multiset.count_cons_self]
  omega

theorem dropRef {n : Inode P} (hi : i ∈ (ls p).refs) (hn : n.ref = (s.inode i).ref - 1) :
    RefInv (s.setInode i n) (Function.update ls p ((ls p).dropRef i)) := by
  refine h.setRef (m := (ls p).refs.erase i) ?_ fun j hj => Multiset.count_erase_of_ne hj _
  have hcount := Multiset.count_pos.mpr hi
  have hpos := h.ref_pos hi
  rw [Multiset.count_erase_self]
  omega

theorem readCwd (hcwd : s.cwd p = some i) (hl : (ls p).cwd = false) :
    RefInv s (Function.update ls p { (ls p).addRef i with cwd := true }) := by
  refine h.moveRef (m := i ::ₘ (ls p).refs) rfl rfl (fun _ _ => rfl) (fun j => ?_) (h.sound p).gone
  simp only [Hand.countRef, hl, hcwd, Multiset.count_cons, true_and, Option.some.injEq,
    eq_comm (a := i), Bool.true_eq_false, false_and, if_false, Nat.add_zero]

theorem setCwd_none (hl : (ls p).cwd = true) :
    RefInv { s with cwd := Function.update s.cwd p none }
      (Function.update ls p { ls p with cwd := false, gone := true }) := by
  refine h.moveRef rfl rfl (fun q hq => update_of_ne hq ..) (fun j => ?_)
    (fun _ => update_self ..)
  simp [Hand.countRef, hl]

theorem setCwd_some (hl : (ls p).cwd = true) (hi : i ∈ (ls p).refs) :
    RefInv { s with cwd := Function.update s.cwd p (some i) }
      (Function.update ls p { (ls p).dropRef i with cwd := false, gone := false }) := by
  refine h.moveRef (m := (ls p).refs.erase i) rfl rfl (fun q hq => update_of_ne hq ..)
    (fun j => ?_) (fun hg => by cases hg)
  simp only [Hand.countRef, hl, update_self, count_erase_add hi j, Option.some.injEq,
    eq_comm (a := i), Bool.true_eq_false, false_and, if_false, true_and, Nat.add_zero]

/-- A descriptor of `p` changes. -/
theorem moveFd {x : Option FileId} {m : Multiset FileId} {k : Option (Fd × FileId)}
    {d : Option FileId} {ks : List Fd}
    (hbal : ∀ g, (if d = some g then 1 else 0) + (ls p).share (s.ofile p) g =
      (ls p).owes g + (ofileCount (Function.update (s.ofile p) fd x) g + m.count g))
    (howes : (ls p).debt = none ∨ d = (ls p).debt)
    (hslot : ∀ {j g}, k = some (j, g) → Function.update (s.ofile p) fd x j = some g)
    (hdebt : ∀ {g}, d = some g → 2 ≤ ofileCount (Function.update (s.ofile p) fd x) g)
    (hclosed : ∀ {j}, j ∈ ks → Function.update (s.ofile p) fd x j = none) :
    RefInv (s.setOfile p fd x)
      (Function.update ls p { ls p with files := m, slot := k, debt := d, closed := ks }) := by
  have hself : (s.setOfile p fd x).ofile p = Function.update (s.ofile p) fd x :=
    update_self ..
  have hold := h.sound p
  refine h.update (fun q hq => update_of_ne hq ..) (fun _ _ => rfl) (fun _ => rfl)
    (fun g => ?_) (fun g => h.unused) (fun q _ g hg => ((h.sound q).fresh hg).1)
    ⟨fun {g} hg => ⟨(hold.fresh hg).1, ?_⟩, hold.nodup, hself ▸ hslot, hself ▸ hdebt, hself ▸ hclosed,
      hold.gone⟩ fun g => .inl
  · have hg := hbal g
    rw [hself]
    change (s.file g).ref + (if d = some g then 1 else 0) + _ =
      _ + (ofileCount (Function.update (s.ofile p) fd x) g + m.count g)
    omega
  · have hpos := (hold.fresh hg).2
    have hg := hbal g
    have hle : (ls p).owes g ≤ if d = some g then 1 else 0 := by
      rcases howes with hnone | heq
      · simp [Hand.owes, hnone]
      · simp [Hand.owes, heq]
    rw [hself]
    change 0 < ofileCount (Function.update (s.ofile p) fd x) g + m.count g
    omega

theorem look {k : Option (Fd × FileId)} {ks : List Fd}
    (hk : ∀ {fd f}, k = some (fd, f) → s.ofile p fd = some f)
    (hks : ∀ fd ∈ ks, s.ofile p fd = none) :
    RefInv s (Function.update ls p { ls p with slot := k, closed := ks }) :=
  h.update (fun _ _ => rfl) (fun _ _ => rfl) (fun _ => rfl) (fun _ => rfl) (fun _ => h.unused)
    (fun q _ _ hf => ((h.sound q).fresh hf).1)
    { h.sound p with slot := hk, closed := fun {fd} hfd => hks fd hfd } fun _ => .inl

theorem fdalloc_hand (hnone : s.ofile p fd = none) (hf : f ∈ (ls p).files) :
    RefInv (s.setOfile p fd (some f))
      (Function.update ls p { (ls p).dropFile f with slot := some (fd, f), closed := [] }) := by
  have hcount (g : FileId) := ofileCount_update (s.ofile p) fd (some f) g
  simp only [hnone, Option.some.injEq, eq_comm (a := f), reduceCtorEq, if_false] at hcount
  refine h.moveFd (m := (ls p).files.erase f) (d := (ls p).debt) (fun g => ?_) (.inr rfl) ?_ ?_ ?_
  · have hdrop := count_erase_add hf g
    have hg := hcount g
    simp only [Hand.share, Hand.owes]
    omega
  · rintro j g ⟨⟩
    exact update_self ..
  · intro g hg
    have hold := (h.sound p).debt hg
    have hg := hcount g
    omega
  · simp

theorem fdalloc_again {k : Fd} (hnone : s.ofile p fd = none) (hdebt : (ls p).debt = none)
    (hslot : (ls p).slot = some (k, f)) :
    RefInv (s.setOfile p fd (some f))
      (Function.update ls p { ls p with debt := some f, closed := [] }) := by
  have hk := (h.sound p).slot hslot
  have hcount (g : FileId) := ofileCount_update (s.ofile p) fd (some f) g
  simp only [hnone, Option.some.injEq, eq_comm (a := f), reduceCtorEq, if_false] at hcount
  refine h.moveFd (fun g => ?_) (.inl hdebt) ?_ ?_ ?_
  · have hg := hcount g
    simp only [Hand.share, Hand.owes, hdebt, Option.some.injEq, eq_comm (a := f), reduceCtorEq,
      if_false]
    omega
  · intro j g hj
    have hjg := (h.sound p).slot hj
    rw [update_of_ne]
    · exact hjg
    · rintro rfl
      simp [hnone] at hjg
  · rintro g ⟨⟩
    have hpos := ofileCount_pos hk
    have hf := hcount f
    simp only [if_true] at hf
    omega
  · simp

theorem takeFd {ks : List Fd} (hf : s.ofile p fd = some f) (hdebt : (ls p).debt = none)
    (hks : ∀ k ∈ ks, k = fd ∨ k ∈ (ls p).closed) :
    RefInv (s.setOfile p fd none)
      (Function.update ls p { (ls p).addFile f with slot := none, closed := ks }) := by
  refine h.moveFd (m := f ::ₘ (ls p).files) (d := (ls p).debt) (fun g => ?_) (.inl hdebt) (by simp)
    (by simp [hdebt]) fun {k} hk => ?_
  · have hg := ofileCount_update (s.ofile p) fd none g
    simp only [hf, Option.some.injEq, eq_comm (a := f), reduceCtorEq, if_false] at hg
    simp only [Hand.share, Hand.owes, Multiset.count_cons]
    omega
  · by_cases hkf : k = fd
    · rw [hkf, update_self]
    · rw [update_of_ne hkf]
      exact (h.sound p).closed ((hks k hk).resolve_left hkf)

/-- An entry of the table of open files changes. -/
theorem moveEntry {ff : File} {m : Multiset Nat} {u v : Multiset FileId} {d : Option FileId}
    (hrefs : ∀ i, (ls p).refs.count i +
        (if (s.file f).type = .inode ∧ (s.file f).ip = i then 1 else 0) =
      m.count i + if ff.type = .inode ∧ ff.ip = i then 1 else 0)
    (hself : ff.ref + (if d = some f then 1 else 0) + (ls p).files.count f =
      (s.file f).ref + (ls p).owes f + u.count f)
    (hothers : ∀ g, g ≠ f → (if d = some g then 1 else 0) = (ls p).owes g ∧
      u.count g = (ls p).files.count g)
    (hunused : ff.ref = 0 → ff.type = .none)
    (htype : ff.type = (s.file f).type ∨ ff.type = .none ∨ f ∈ (ls p).fresh)
    (hnodup : v.Nodup) (hfresh : ∀ g ∈ v, g ≠ f → g ∈ (ls p).fresh)
    (hkeep : f ∈ v → ff.type = .none ∧ 0 < ofileCount (s.ofile p) f + u.count f ∧
      (f ∈ (ls p).fresh ∨ ∀ q, f ∉ (ls q).fresh))
    (hdebt : ∀ {g}, d = some g → (ls p).debt = some g) :
    RefInv (s.setFile f ff)
      (Function.update ls p { ls p with refs := m, files := u, fresh := v, debt := d }) := by
  have hold := h.sound p
  have hne {g : FileId} (hg : g ≠ f) : (s.setFile f ff).file g = s.file g :=
    update_of_ne hg ..
  have heq : (s.setFile f ff).file f = ff := update_self ..
  have hshare {g : FileId} (hg : g ≠ f) : ofileCount (s.ofile p) g + u.count g =
      (ls p).share (s.ofile p) g := by rw [(hothers g hg).2, Hand.share]
  refine h.update (fun _ _ => rfl) (fun _ _ => rfl) (fun i => ?_) (fun g => ?_) (fun g hg => ?_)
    (fun q hq g hg => ?_) ⟨fun {g} hg => ?_, hnodup, hold.slot, fun hg => hold.debt (hdebt hg),
      hold.closed, hold.gone⟩ fun g hg => ?_
  · have hbal := fileRefs_setFile s f ff i
    have hcount := Hand.countRef_of_cwd (l := ls p)
      (k := { ls p with refs := m, files := u, fresh := v, debt := d }) rfl (s.cwd p) i
    have hi := hrefs i
    dsimp only [Fs.setFile] at hbal hcount ⊢
    omega
  · change _ + (if d = some g then 1 else 0) + _ = _ + _ + (ofileCount (s.ofile p) g + u.count g)
    by_cases hg : g = f
    · subst hg
      rw [heq, Hand.share]
      omega
    · rw [hne hg, (hothers g hg).1, hshare hg]
  · by_cases hgf : g = f
    · subst hgf
      rw [heq] at hg ⊢
      exact hunused hg
    · rw [hne hgf] at hg ⊢
      exact h.unused hg
  · by_cases hgf : g = f
    · subst hgf
      rw [heq]
      rcases htype with hsame | hnone | hp
      · rw [hsame]
        exact ((h.sound q).fresh hg).1
      · exact hnone
      · exact absurd (h.apart hg hp) hq
    · rw [hne hgf]
      exact ((h.sound q).fresh hg).1
  · change _ ∧ 0 < ofileCount (s.ofile p) g + u.count g
    by_cases hgf : g = f
    · subst hgf
      rw [heq]
      exact ⟨(hkeep hg).1, (hkeep hg).2.1⟩
    · rw [hne hgf, hshare hgf]
      exact hold.fresh (hfresh g hg hgf)
  · by_cases hgf : g = f
    · subst hgf
      exact (hkeep hg).2.2
    · exact .inl (hfresh g hg hgf)

theorem filealloc (hzero : (s.file f).ref = 0) :
    RefInv (s.setFile f ((s.file f).set 1 (s.file f).type))
      (Function.update ls p { (ls p).addFile f with fresh := f ::ₘ (ls p).fresh }) := by
  have hnew (q : P) : f ∉ (ls q).fresh := fun hf => by
    have hpos := h.fresh_pos hf
    omega
  refine h.moveEntry (u := f ::ₘ (ls p).files) (d := (ls p).debt) (fun _ => rfl) ?_ (fun g hg => ⟨rfl, ?_⟩)
    (fun hone => absurd hone Nat.one_ne_zero) (.inl rfl)
    (Multiset.nodup_cons.mpr ⟨hnew p, (h.sound p).nodup⟩)
    (fun g hg hgf => (Multiset.mem_cons.mp hg).resolve_left hgf)
    (fun _ => ⟨h.unused hzero, by simp, .inr hnew⟩) id
  · rw [Multiset.count_cons_self, hzero, Hand.owes]
    dsimp only [File.set]
    omega
  · exact Multiset.count_cons_of_ne hg _

/-- What is left of an entry when `p` no longer has the file in its hands. -/
theorem leaveEntry {ff : File} {m : Multiset Nat} {u : Multiset FileId}
    (hrefs : ∀ i, (ls p).refs.count i +
        (if (s.file f).type = .inode ∧ (s.file f).ip = i then 1 else 0) =
      m.count i + if ff.type = .inode ∧ ff.ip = i then 1 else 0)
    (hself : ff.ref + (ls p).files.count f = (s.file f).ref + u.count f)
    (hothers : ∀ g, g ≠ f → u.count g = (ls p).files.count g)
    (hunused : ff.ref = 0 → ff.type = .none)
    (htype : ff.type = (s.file f).type ∨ ff.type = .none ∨ f ∈ (ls p).fresh) :
    RefInv (s.setFile f ff)
      (Function.update ls p { ls p with refs := m, files := u, fresh := (ls p).fresh.erase f }) := by
  have hnodup := (h.sound p).nodup
  refine h.moveEntry hrefs ?_ (fun g hg => ⟨rfl, hothers g hg⟩) hunused htype (hnodup.erase f)
    (fun g hg _ => Multiset.mem_of_mem_erase hg)
    (fun hmem => absurd rfl (hnodup.mem_erase_iff.mp hmem).1) id
  simp only [Hand.owes]
  omega

theorem fileclose_shared (hf : f ∈ (ls p).files) (href : 1 < (s.file f).ref) :
    RefInv (s.setFile f ((s.file f).set ((s.file f).ref - 1) (s.file f).type))
      (Function.update ls p { (ls p).dropFile f with fresh := (ls p).fresh.erase f }) := by
  refine h.leaveEntry (u := (ls p).files.erase f) (fun _ => rfl) ?_
    (fun g hg => Multiset.count_erase_of_ne hg _) (fun hzero => ?_) (.inl rfl)
  · rw [count_erase_add hf f, if_pos rfl]
    dsimp only [File.set]
    omega
  · dsimp only [File.set] at hzero
    omega

theorem fileclose_last {m : Multiset Nat} (hf : f ∈ (ls p).files) (href : (s.file f).ref = 1)
    (hm : ∀ i, m.count i = (ls p).refs.count i +
      if (s.file f).type = .inode ∧ (s.file f).ip = i then 1 else 0) :
    RefInv (s.setFile f ((s.file f).set 0 .none))
      (Function.update ls p
        { (ls p).dropFile f with refs := m, fresh := (ls p).fresh.erase f }) := by
  refine h.leaveEntry (u := (ls p).files.erase f) (fun i => ?_) ?_
    (fun g hg => Multiset.count_erase_of_ne hg _) (fun _ => rfl) (.inr (.inl rfl))
  · rw [hm i, if_neg (by simp : ¬(FileType.none = .inode ∧ _)), Nat.add_zero]
  · rw [count_erase_add hf f, if_pos rfl]
    dsimp only [File.set]
    omega

theorem setFile {rd wr : Bool} (hf : f ∈ (ls p).fresh) (hi : i ∈ (ls p).refs) :
    RefInv (s.setFile f ⟨(s.file f).ref, .inode, i, rd, wr⟩)
      (Function.update ls p { (ls p).dropRef i with fresh := (ls p).fresh.erase f }) := by
  refine h.leaveEntry (m := (ls p).refs.erase i) (fun j => ?_) rfl (fun _ _ => rfl)
    (fun hzero => absurd hzero (h.fresh_pos hf).ne') (.inr (.inr hf))
  have hdrop := count_erase_add hi j
  simp only [((h.sound p).fresh hf).1, reduceCtorEq, false_and, if_false, true_and, eq_comm (a := i)]
  omega

end

theorem fsAct (h : RefInv s ls) {a : FsAct} {r : a.Res} (hpre : (handFsRules P).pre a (ls p))
    (hexec : s.exec p a = .next (r, s')) :
    ∃ l, (handFsRules P).post a (ls p) r l ∧ RefInv s' (Function.update ls p l) := by
  have hstep := Fs.exec_step hexec
  cases hstep with
  | iget i | idupCwd => exact ⟨_, rfl, h.addRef rfl⟩
  | ilock | iunlock i | iputDoom | iputFree i | incLink i | decLink i | initNode i | writeDirent d | claim =>
    exact ⟨_, rfl, h.same_update (Fs.field_setInode Inode.ref rfl) rfl rfl rfl⟩
  | iputKeep | read | unwritten | unclaimed | noFile | noFd =>
    exact ⟨_, rfl, h.same_update (fun _ => rfl) rfl rfl rfl⟩
  | iputDrop i => exact ⟨_, rfl, h.dropRef hpre rfl⟩
  | filealloc hzero => exact ⟨_, rfl, h.filealloc hzero⟩
  | fdalloc f hnone =>
    refine ⟨_, rfl, ?_⟩
    dsimp only
    split_ifs with hf
    · exact h.fdalloc_hand hnone hf
    · obtain ⟨hdebt, k, hslot⟩ := Or.resolve_left hpre hf
      exact h.fdalloc_again hnone hdebt hslot
  | closeShared href => exact ⟨_, rfl, h.fileclose_shared hpre href⟩
  | closeInode href htype =>
    refine ⟨_, rfl, h.fileclose_last hpre href fun i => ?_⟩
    simp [htype, Hand.addRef, Hand.dropFile, Multiset.count_cons, eq_comm]
  | closeOther href htype =>
    refine ⟨_, rfl, h.fileclose_last hpre href fun i => ?_⟩
    simp [htype, Hand.dropFile]
  | takeFd hfd => exact ⟨_, rfl, h.takeFd hfd hpre fun k hk => List.mem_cons.mp hk⟩
  | closedFd hfd =>
    refine ⟨_, rfl, h.look (h.sound p).slot fun k hk => ?_⟩
    rcases List.mem_cons.mp hk with rfl | hk
    · exact hfd
    · exact (h.sound p).closed hk
  | setFile f i rd wr => exact ⟨_, rfl, h.setFile hpre.1 hpre.2⟩
  | readCwd hcwd => exact ⟨_, rfl, h.readCwd hcwd hpre⟩
  | setCwd i =>
    cases i with
    | none => exact ⟨_, rfl, h.setCwd_none hpre.1⟩
    | some j => exact ⟨_, rfl, h.setCwd_some hpre.1 (hpre.2 j rfl)⟩

end RefInv

end Xv6
