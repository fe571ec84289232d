import Xv6.Dir.Ledger
import Xv6.Dir.Refs
import Xv6.Lib.Graph

/-!
# Locks, references and the order of directories

What ties the file system to the ledgers of the running calls in every interleaving, whatever the
calls are: an inode is locked by the process whose ledger says so, its reference count is the number
of references in ledgers, working directories and open files, and the directories that name one
another, together with new inodes and the directories they will be entered in, form no cycle.
-/

namespace Xv6

open Function (update_of_ne update_self)

variable {P : Type}

def Fs.view (s : Fs P) (i : Nat) : View := ⟨(s.inode i).type, (s.inode i).ents⟩

variable {n : Inode P}

/-- The ledger that an action leaves. -/
def Fs.after (s : Fs P) (l : Ledger) : (a : FsAct) → a.Res → Ledger
  | .iget i, _ => l.addRef i
  | .idupCwd, (i : Nat) => l.addRef i
  | .readCwd, (i : Nat) => { l.addRef i with cwd := true }
  | .ilock i, _ => l.lock i (s.view i)
  | .iunlock i, _ => l.unlock i
  | .iputTest i, (r : Bool) =>
    if r then { l with gone := insert i l.gone, put := .free i }
    else { l.dropRef i with put := .drop i }
  | .iputFree i, _ => { l.dropRef i with put := .drop i }
  | .iputDrop _, _ => { l with put := .none }
  | .incLink i, _ =>
    if (s.inode i).type = .dir then { l with pend := i ::ₘ l.pend }
    else { l with pend := i ::ₘ l.pend, file := some i }
  | .decLink i, _ => { l with pend := l.pend.erase i }
  | .initNode i _ _, _ => { l with pend := {i} }
  | .writeDirent d slot de, (r : Bool) => if r then l.wrote d (s.view d) slot de else l
  | .claim i type, (r : Bool) => if r then { l with fresh := some i, ftype := type } else l
  | .filealloc, (r : Option FileId) =>
    match r with
    | none => l
    | some f => { l with fhold := some f, pfile := some f }
  | .fdalloc _, (r : Option Fd) =>
    match r with
    | none => l
    | some _ => { l with fhold := none }
  | .fileclose _, (r : Option Nat) =>
    match r with
    | none => { l with fhold := none, pfile := none }
    | some i => { l.addRef i with fhold := none, pfile := none }
  | .takeFd _, (r : Option FileId) =>
    match r with
    | none => l
    | some f => { l with fhold := some f }
  | .setFile _ i _ _, _ => { l.dropRef i with pfile := none }
  | .setCwd i, _ =>
    match i with
    | none => { l with cwd := false }
    | some j => { l.dropRef j with cwd := false }
  | .read _, _ | .panic _, _ => l

/-- References to an inode that the process accounts for. -/
def Ledger.countRef (l : Ledger) (cwd : Option Nat) (i : Nat) : Nat :=
  l.refs.count i + if l.cwd = false ∧ cwd = some i then 1 else 0

variable {l : Ledger} {i : Nat}

theorem Put.ne_free {x : Put} (h : x = .none) (i : Nat) : x ≠ .free i := by simp [h]

theorem Put.ne_drop {x : Put} (h : x = .none) (i : Nat) : x ≠ .drop i := by simp [h]

theorem Ledger.file_of_dropRef {j : Nat} (h : (l.dropRef i).file = some j) : l.file = some j := by
  simp only [dropRef] at h
  split at h
  · cases h
  · exact h

/-- References to an inode that are given up, but still counted. -/
def drops [Fintype P] (ls : P → Ledger) (i : Nat) : Nat :=
  ∑ p, if (ls p).put = .drop i then 1 else 0

/-- References with the one that is given up, but still counted. -/
def Put.counted : Put → Multiset Nat → Multiset Nat
  | .drop i, refs => i ::ₘ refs
  | _, refs => refs

theorem Put.counted_cons (x : Put) (i : Nat) (refs : Multiset Nat) :
    x.counted (i ::ₘ refs) = i ::ₘ x.counted refs := by
  cases x with
  | drop j => exact Multiset.cons_swap ..
  | _ => rfl

/-- The references of a ledger are those that the call has in its hands. -/
structure Ledger.Backed (l : Ledger) (x : Hand P) : Prop where
  refs : x.refs = l.put.counted l.refs
  cwd : x.cwd = l.cwd
  files : x.files = l.fhold.elim 0 fun f => {f}
  fresh : x.fresh = l.pfile.elim 0 fun f => {f}
  debt : x.debt = none

/-- The ledgers account for every reference. -/
def Counted [Fintype P] (s : Fs P) (ls : P → Ledger) : Prop :=
  ∃ xs : P → Hand P, RefInv s xs ∧ ∀ p, (ls p).Backed (xs p)

structure LockInv (s : Fs P) (ls : P → Ledger) : Prop where
  holder : ∀ i p, (s.inode i).lock = some p ↔ (∃ v, (i, v) ∈ (ls p).held) ∨ (ls p).put = .free i
  view : ∀ {p i v}, (i, v) ∈ (ls p).held → v = s.view i
  valid : ∀ {p i v}, (i, v) ∈ (ls p).held → (s.inode i).valid = true
  /-- Nothing is known of an inode that is about to be freed. -/
  doomed : ∀ {p i}, (ls p).put = .free i → (∀ v, (i, v) ∉ (ls p).held) ∧
    i ∉ (ls p).refs.erase i ∧ ∀ q, (ls q).file = some i → q = p

structure NodeInv (N : Nat) (s : Fs P) : Prop where
  alloc : ∀ {i}, (s.inode i).valid = true → (s.inode i).type ≠ .free
  range : ∀ {i}, (s.inode i).type ≠ .free → 0 < i ∧ i < N
  leaf : ∀ {i}, (s.inode i).type ≠ .dir → (s.inode i).ents = []

/-- What a ledger says of the inodes it speaks about. -/
structure Ledger.Own (s : Fs P) (l : Ledger) : Prop where
  held : ∀ {i v}, (i, v) ∈ l.held → i ∈ l.refs
  pend : ∀ {i}, i ∈ l.pend → i ∈ l.refs
  file : ∀ {i}, l.file = some i →
    i ∈ l.refs ∧ (s.inode i).type ≠ .dir ∧ (s.inode i).type ≠ .free
  fresh : ∀ {c d v}, l.fresh = some c → (d, v) ∈ l.held → d = c ∨ v.type = .dir

/-- A directory comes before the inodes it names, and a locked directory before the new inode that
`create` is about to enter in it. -/
def Before (s : Fs P) (ls : P → Ledger) (d i : Nat) : Prop :=
  (s.view d).names i ∨ ∃ p v, (ls p).fresh = some i ∧ (d, v) ∈ (ls p).held ∧ d ≠ i

structure BaseInv [Fintype P] (N : Nat) (s : Fs P) (ls : P → Ledger) : Prop where
  locks : LockInv s ls
  nodes : NodeInv N s
  counts : Counted s ls
  own : ∀ p, (ls p).Own s
  order : Acyclic (Before s ls)

variable {v : View}

theorem Ledger.wrote_keeps (l : Ledger) (d : Nat) (v : View) (slot : Nat) (de : Dirent) :
    (l.wrote d v slot de).held = (l.setView d ⟨v.type, putSlot v.ents slot de⟩).held ∧
      (l.wrote d v slot de).refs = l.refs ∧ (l.wrote d v slot de).file = l.file ∧
      (l.wrote d v slot de).cwd = l.cwd ∧ (l.wrote d v slot de).fhold = l.fhold ∧
      (l.wrote d v slot de).pfile = l.pfile ∧ (l.wrote d v slot de).put = l.put := by
  unfold wrote
  dsimp only
  split_ifs <;> exact ⟨rfl, rfl, rfl, rfl, rfl, rfl, rfl⟩

namespace Ledger.Backed

variable {x y : Hand P}

theorem countRef (h : l.Backed x) (cwd : Option Nat) (i : Nat) :
    x.countRef cwd i = l.countRef cwd i + if l.put = .drop i then 1 else 0 := by
  rw [Hand.countRef, Ledger.countRef, h.refs, h.cwd, Nat.add_right_comm]
  cases l.put with
  | drop j => simp [Put.counted, Multiset.count_cons, @eq_comm _ i j]
  | _ => simp [Put.counted]

theorem refs_of_none (h : l.Backed x) (hput : l.put = .none) : x.refs = l.refs := by
  have hrefs := h.refs
  rwa [hput] at hrefs

theorem dropRef (h : l.Backed x) (hput : l.put = .none) (i : Nat) :
    (l.dropRef i).Backed (x.dropRef i) where
  refs := by simp [Hand.dropRef, Ledger.dropRef, h.refs_of_none hput, hput, Put.counted]
  cwd := h.cwd
  files := h.files
  fresh := h.fresh
  debt := h.debt

theorem close {f : FileId} (h : l.Backed x) (hf : l.fhold = some f)
    (hp : l.pfile = none ∨ l.pfile = some f) :
    { l with fhold := none, pfile := none }.Backed
      { x.dropFile f with fresh := x.fresh.erase f } where
  refs := h.refs
  cwd := h.cwd
  files := by simp [Hand.dropFile, h.files, hf]
  fresh := by rcases hp with hp | hp <;> simp [h.fresh, hp]
  debt := h.debt

variable [DecidableEq P] {N : Nat} {s s' : Fs P} {p : P} {a : FsAct} {r : a.Res}

theorem pre (h : l.Backed x) (hpre : (fsRules N).pre a l) (hstep : s.Step p a r s') :
    (handFsRules P).pre a x := by
  obtain ⟨hput, hpre⟩ := hpre
  cases hstep with
  | idupCwd | readCwd => exact h.cwd.trans hpre
  | iputDrop i =>
    change i ∈ x.refs
    rw [h.refs, hput]
    exact Multiset.mem_cons_self i _
  | fdalloc | noFd => exact .inl (by simp [h.files, hpre])
  | closeShared | closeInode | closeOther =>
    change _ ∈ x.files
    simp [h.files, hpre.1]
  | takeFd | closedFd => exact h.debt
  | setFile f i =>
    obtain ⟨hf, _, hi, _⟩ := hpre
    exact ⟨by simp [h.fresh, hf], h.refs_of_none hput ▸ hi⟩
  | setCwd i =>
    exact ⟨h.cwd.trans hpre.1, h.refs_of_none hput ▸ hpre.2.1⟩
  | _ => trivial

theorem post (h : l.Backed x) (hpre : (fsRules N).pre a l) (hstep : s.Step p a r s')
    (hpost : (handFsRules P).post a x r y) : (s.after l a r).Backed y := by
  obtain ⟨hput, hpre⟩ := hpre
  cases hstep with
  | iget i | idupCwd =>
    obtain rfl := hpost
    exact { h with refs := (congrArg _ h.refs).trans (l.put.counted_cons ..).symm }
  | readCwd =>
    obtain rfl := hpost
    exact { h with refs := (congrArg _ h.refs).trans (l.put.counted_cons ..).symm, cwd := rfl }
  | iputKeep =>
    obtain rfl := hpost
    exact { h with refs := (h.refs_of_none hput).trans (Multiset.cons_erase hpre.1).symm }
  | iputDoom =>
    obtain rfl := hpost
    exact { h with refs := h.refs_of_none hput }
  | iputFree i =>
    obtain rfl := hpost
    have hrefs := h.refs
    rw [hput] at hrefs
    exact { h with refs := hrefs.trans (Multiset.cons_erase hpre.1).symm }
  | iputDrop i =>
    obtain rfl := hpost
    have hrefs := h.refs
    rw [hput] at hrefs
    exact { h with refs := (congrArg (Multiset.erase · i) hrefs).trans (Multiset.erase_cons_head ..) }
  | filealloc =>
    obtain rfl := hpost
    exact { h with
      files := by simp [Hand.addFile, h.files, hpre.1, Fs.after]
      fresh := by simp [h.fresh, hpre.2, Fs.after] }
  | fdalloc f =>
    have hfiles : x.files = {f} := by simp [h.files, hpre]
    obtain rfl := hpost
    simp only [hfiles, Multiset.mem_singleton, if_true]
    exact { h with files := by simp [Hand.dropFile, hfiles, Fs.after] }
  | closeShared | closeOther =>
    obtain rfl := hpost
    exact { h.close hpre.1 hpre.2 with }
  | closeInode =>
    obtain rfl := hpost
    exact { h.close hpre.1 hpre.2 with
      refs := (congrArg _ h.refs).trans (l.put.counted_cons ..).symm }
  | takeFd =>
    obtain rfl := hpost
    exact { h with files := by simp [Hand.addFile, h.files, hpre.1, Fs.after] }
  | setFile f i =>
    obtain rfl := hpost
    exact { h.dropRef hput i with fresh := by simp [h.fresh, hpre.1, Fs.after] }
  | setCwd i =>
    cases i with
    | none =>
      obtain rfl := hpost
      exact { h with cwd := rfl }
    | some j =>
      obtain rfl := hpost
      exact { h.dropRef hput j with cwd := rfl }
  | incLink i =>
    obtain rfl := hpost
    rw [Fs.after]
    split <;> exact { h with }
  | writeDirent d slot de =>
    obtain rfl := hpost
    obtain ⟨_, hrefs, _, hcwd, hfhold, hpfile, hput⟩ := l.wrote_keeps d (s.view d) slot de
    change (l.wrote d (s.view d) slot de).Backed y
    constructor
    · rw [hput, hrefs, h.refs]
    · rw [hcwd, h.cwd]
    · rw [hfhold, h.files]
    · rw [hpfile, h.fresh]
    · exact h.debt
  | _ =>
    obtain rfl := hpost
    exact { h with }

end Ledger.Backed

theorem BaseInv.refs [Fintype P] {N : Nat} {s : Fs P} {ls : P → Ledger} (h : BaseInv N s ls) (i : Nat) :
    (s.inode i).ref = ∑ p, (ls p).countRef (s.cwd p) i + s.fileRefs i + drops ls i := by
  obtain ⟨xs, hrefs, hback⟩ := h.counts
  rw [hrefs.refs i, drops, Nat.add_right_comm, ← Finset.sum_add_distrib]
  simp only [(hback _).countRef]

section Frames

variable {N : Nat} {s s' : Fs P} {ls : P → Ledger} {l : Ledger} {p : P}

theorem LockInv.alloc (h : LockInv s ls) (hn : NodeInv N s)
    (hv : (i, v) ∈ (ls p).held) : (s.inode i).type ≠ .free :=
  hn.alloc (h.valid hv)

theorem LockInv.unheld (h : LockInv s ls) (hi : (s.inode i).lock = none) (q : P) (v : View) :
    (i, v) ∉ (ls q).held := by
  intro hv
  have hlock := (h.holder i q).mpr (.inl ⟨v, hv⟩)
  rw [hi] at hlock
  cases hlock

theorem LockInv.unique (h : LockInv s ls) {q : P} {v w : View} (hp : (i, v) ∈ (ls p).held)
    (hq : (i, w) ∈ (ls q).held) : q = p := by
  have hlp := (h.holder i p).mpr (.inl ⟨v, hp⟩)
  have hlq := (h.holder i q).mpr (.inl ⟨w, hq⟩)
  rw [hlp] at hlq
  exact (Option.some.inj hlq).symm

/-- What an action that neither locks nor enters anything may do to an inode: keep it, forget that
it was read if nothing refers to it, or free it while it is unlocked. -/
def Inode.Settles (n n' : Inode P) : Prop :=
  n'.lock = n.lock ∧
    (n'.type = n.type ∧ n'.ents = n.ents ∧ (n'.valid = n.valid ∨ n'.valid = false ∧ n.ref = 0) ∨
      n.lock = none ∧ n'.type = .free ∧ n'.ents = [] ∧ n'.valid = false)

theorem Inode.Settles.of_same {n n' : Inode P} (hlock : n'.lock = n.lock) (htype : n'.type = n.type)
    (hents : n'.ents = n.ents) (hvalid : n'.valid = n.valid) : n.Settles n' :=
  ⟨hlock, .inl ⟨htype, hents, .inl hvalid⟩⟩

theorem settles_setInode (h : (s.inode i).Settles n) (j : Nat) :
    (s.inode j).Settles ((s.setInode i n).inode j) := by
  by_cases hj : j = i
  · rw [hj, Fs.inode_setInode_self]
    exact h
  · rw [Fs.inode_setInode_ne s n hj]
    exact .of_same rfl rfl rfl rfl

variable [DecidableEq P]

/-- The locks of `p` and what it knows of them change, those of others do not. -/
theorem LockInv.update (h : LockInv s ls)
    (hothers : ∀ q, q ≠ p → ∀ i, (s'.inode i).lock = some q ↔ (s.inode i).lock = some q)
    (hlock : ∀ i, (s'.inode i).lock = some p ↔ (∃ v, (i, v) ∈ l.held) ∨ l.put = .free i)
    (hkept : ∀ q, q ≠ p → ∀ i v, (i, v) ∈ (ls q).held →
      s'.view i = s.view i ∧ (s'.inode i).valid = (s.inode i).valid)
    (hheld : ∀ i v, (i, v) ∈ l.held → v = s'.view i ∧ (s'.inode i).valid = true)
    (hfile : ∀ i, l.file = some i → (ls p).file = some i ∨ ∃ v, (i, v) ∈ (ls p).held)
    (hfree : ∀ i, l.put = .free i → (∀ v, (i, v) ∉ l.held) ∧ i ∉ l.refs.erase i ∧
      ∀ q, q ≠ p → (ls q).file ≠ some i) : LockInv s' (Function.update ls p l) := by
  refine ⟨fun i q => ?_, fun {q i v} hv => ?_, fun {q i v} hv => ?_, fun {q i} hq => ?_⟩ <;>
    by_cases hqp : q = p
  · subst hqp
    rw [update_self, hlock]
  · rw [update_of_ne hqp, hothers q hqp, h.holder]
  · subst hqp
    rw [update_self] at hv
    exact (hheld i v hv).1
  · rw [update_of_ne hqp] at hv
    rw [(hkept q hqp i v hv).1, ← h.view hv]
  · subst hqp
    rw [update_self] at hv
    exact (hheld i v hv).2
  · rw [update_of_ne hqp] at hv
    rw [(hkept q hqp i v hv).2, h.valid hv]
  · subst hqp
    rw [update_self] at hq ⊢
    obtain ⟨hunheld, hrefs, hnone⟩ := hfree i hq
    refine ⟨hunheld, hrefs, fun r hr => ?_⟩
    by_contra hrq
    rw [update_of_ne hrq] at hr
    exact hnone r hrq hr
  · rw [update_of_ne hqp] at hq ⊢
    obtain ⟨hunheld, hrefs, hfiles⟩ := h.doomed hq
    refine ⟨hunheld, hrefs, fun r hr => ?_⟩
    by_cases hrp : r = p
    · subst hrp
      rw [update_self] at hr
      rcases hfile i hr with hold | hv
      · exact hfiles r hold
      · have hr' := (h.holder i r).mpr (.inl hv)
        rw [(h.holder i q).mpr (.inr hq)] at hr'
        exact (Option.some.inj hr').symm
    · rw [update_of_ne hrp] at hr
      exact hfiles r hr

theorem own_update (h : ∀ q, q ≠ p → (ls q).Own s') (hl : l.Own s') (q : P) :
    (Function.update ls p l q).Own s' := by
  by_cases hq : q = p
  · rw [hq, update_self]
    exact hl
  · rw [update_of_ne hq]
    exact h q hq

variable [Fintype P]

theorem drops_update (ls : P → Ledger) (p : P) (l : Ledger) (i : Nat) :
    drops (Function.update ls p l) i + (if (ls p).put = .drop i then 1 else 0) =
      drops ls i + if l.put = .drop i then 1 else 0 :=
  sum_update_balance (fun _ (l : Ledger) => if l.put = .drop i then 1 else 0) ls p l

theorem drops_congr (hput : l.put = (ls p).put) (i : Nat) :
    drops (Function.update ls p l) i = drops ls i := by
  have hsum := drops_update ls p l i
  rw [hput] at hsum
  omega

section

variable (hput : ∀ j, (ls p).put ≠ .drop j)
include hput

theorem drops_giveUp (hl : l.put = .drop i) (j : Nat) :
    drops (Function.update ls p l) j = drops ls j + if i = j then 1 else 0 := by
  simpa [hput, hl] using drops_update ls p l j

theorem drops_other (hl : ∀ j, l.put ≠ .drop j) (j : Nat) :
    drops (Function.update ls p l) j = drops ls j := by
  simpa [hput, hl] using drops_update ls p l j

end

theorem drops_given (hput : (ls p).put = .drop i) (hl : l.put = .none) (j : Nat) :
    drops (Function.update ls p l) j + (if i = j then 1 else 0) = drops ls j := by
  simpa [hput, hl] using drops_update ls p l j

theorem Counted.same (h : Counted s ls) (href : ∀ i, (s'.inode i).ref = (s.inode i).ref)
    (hfile : s'.file = s.file) (hofile : s'.ofile = s.ofile) (hcwd : s'.cwd = s.cwd)
    (hl : ∀ {x : Hand P}, (ls p).Backed x → l.Backed x) : Counted s' (Function.update ls p l) := by
  obtain ⟨xs, hrefs, hback⟩ := h
  refine ⟨xs, hrefs.same href hfile hofile hcwd, fun q => ?_⟩
  by_cases hq : q = p
  · subst hq
    rw [update_self]
    exact hl (hback q)
  · rw [update_of_ne hq]
    exact hback q

theorem Counted.act {a : FsAct} {r : a.Res} (h : Counted s ls) (hpre : (fsRules N).pre a (ls p))
    (he : Fs.exec p a s = .next (r, s')) :
    Counted s' (Function.update ls p (s.after (ls p) a r)) := by
  obtain ⟨xs, hrefs, hback⟩ := h
  have hstep := Fs.exec_step he
  obtain ⟨x, hpost, hrefs'⟩ := hrefs.fsAct ((hback p).pre hpre hstep) he
  refine ⟨_, hrefs', fun q => ?_⟩
  by_cases hq : q = p
  · subst hq
    rw [update_self, update_self]
    exact (hback q).post hpre hstep hpost
  · rw [update_of_ne hq, update_of_ne hq]
    exact hback q

omit [DecidableEq P] in
theorem BaseInv.refs_le (h : BaseInv N s ls) (p : P) (i : Nat) :
    (ls p).refs.count i + s.fileRefs i + drops ls i ≤ (s.inode i).ref := by
  have hle := le_sum_univ (fun q => (ls q).countRef (s.cwd q) i) p
  have hcount : (ls p).refs.count i ≤ (ls p).countRef (s.cwd p) i := Nat.le_add_right _ _
  have href := h.refs i
  omega

theorem BaseInv.refs_le_two (h : BaseInv N s ls) {q : P} (hne : p ≠ q) (i : Nat) :
    (ls p).countRef (s.cwd p) i + (ls q).refs.count i + drops ls i ≤ (s.inode i).ref := by
  have hle := add_le_sum_univ (fun q => (ls q).countRef (s.cwd q) i) hne
  have hcount : (ls q).refs.count i ≤ (ls q).countRef (s.cwd q) i := Nat.le_add_right _ _
  have href := h.refs i
  omega

omit [DecidableEq P] in
theorem BaseInv.ref_live (h : BaseInv N s ls) (hi : i ∈ (ls p).refs) :
    drops ls i < (s.inode i).ref := by
  have hcount := Multiset.count_pos.mpr hi
  have hle := h.refs_le p i
  omega

theorem BaseInv.sole (h : BaseInv N s ls) (hi : i ∈ (ls p).refs) (hone : (s.inode i).ref = 1)
    {q : P} (hq : i ∈ (ls q).refs) : q = p := by
  by_contra hne
  have hp := Multiset.count_pos.mpr hi
  have hq' : 0 < (ls q).countRef (s.cwd q) i := Nat.add_pos_left (Multiset.count_pos.mpr hq) _
  have hle := h.refs_le_two hne i
  omega

omit [DecidableEq P] [Fintype P] in
theorem NodeInv.settles (h : NodeInv N s) (hs : ∀ i, (s.inode i).Settles (s'.inode i)) :
    NodeInv N s' := by
  refine ⟨fun {i} hv => ?_, fun {i} ha => ?_, fun {i} hl => ?_⟩
  all_goals obtain ⟨_, ⟨htype, hents, hvalid⟩ | ⟨_, htype, hents, hvalid⟩⟩ := hs i
  · rcases hvalid with hvalid | ⟨hfalse, _⟩
    · rw [htype]
      exact h.alloc (hvalid ▸ hv)
    · simp [hfalse] at hv
  · simp [hvalid] at hv
  · exact h.range (htype ▸ ha)
  · exact absurd htype ha
  · rw [hents]
    exact h.leaf (htype ▸ hl)
  · exact hents

omit [Fintype P] in
theorem Before.settles (h : Acyclic (Before s ls)) (hs : ∀ i, (s.inode i).Settles (s'.inode i))
    (hheld : l.held = (ls p).held) (hfresh : l.fresh = (ls p).fresh) :
    Acyclic (Before s' (Function.update ls p l)) := by
  refine h.mono fun d i hdi => ?_
  rcases hdi with ⟨de, hmem, hde⟩ | ⟨q, v, hf, hv, hne⟩
  · obtain ⟨_, ⟨_, hents, _⟩ | ⟨_, _, hents, _⟩⟩ := hs d
    · exact .inl ⟨de, by simpa [Fs.view, hents] using hmem, hde⟩
    · simp [Fs.view, hents] at hmem
  · rw [Kernel.field_update Ledger.fresh hfresh] at hf
    rw [Kernel.field_update Ledger.held hheld] at hv
    exact .inr ⟨q, v, hf, hv, hne⟩

theorem BaseInv.settle (h : BaseInv N s ls) (hs : ∀ i, (s.inode i).Settles (s'.inode i))
    (hcounts : Counted s' (Function.update ls p l)) (hheld : l.held = (ls p).held)
    (hfresh : l.fresh = (ls p).fresh) (hold : ∀ i, (ls p).put ≠ .free i)
    (hput : ∀ i, l.put ≠ .free i)
    (hfile : ∀ i, l.file = some i → (ls p).file = some i ∨ ∃ v, (i, v) ∈ (ls p).held)
    (hown : ∀ q, (Function.update ls p l q).Own s') : BaseInv N s' (Function.update ls p l) := by
  have hkeep (q : P) (i : Nat) (v : View) (hv : (i, v) ∈ (ls q).held) :
      s'.view i = s.view i ∧ (s'.inode i).valid = (s.inode i).valid := by
    obtain ⟨_, ⟨htype, hents, hvalid | ⟨_, hzero⟩⟩ | ⟨hlock, _⟩⟩ := hs i
    · exact ⟨by simp [Fs.view, htype, hents], hvalid⟩
    · have hpos := h.ref_live ((h.own q).held hv)
      omega
    · exact absurd hv (h.locks.unheld hlock q v)
  refine ⟨h.locks.update (fun q _ i => by rw [(hs i).1]) (fun i => ?_) (fun q _ => hkeep q)
    (fun i v hv => ?_) hfile (fun i hi => absurd hi (hput i)), h.nodes.settles hs, hcounts, hown,
    Before.settles h.order hs hheld hfresh⟩
  · simp [(hs i).1, h.locks.holder, hheld, hold, hput]
  · rw [hheld] at hv
    rw [(hkeep p i v hv).1, (hkeep p i v hv).2]
    exact ⟨h.locks.view hv, h.locks.valid hv⟩

end Frames

namespace Ledger.Own

variable {s s' : Fs P} {l : Ledger} {i : Nat}

theorem congr (h : l.Own s) (htype : ∀ j, (s'.inode j).type = (s.inode j).type) : l.Own s' where
  held := h.held
  pend := h.pend
  file {j} hj := by simpa only [htype] using h.file hj
  fresh := h.fresh

theorem of_fields (h : l.Own s) {l' : Ledger} (hheld : l'.held = l.held) (hrefs : l'.refs = l.refs)
    (hpend : l'.pend = l.pend) (hfile : l'.file = l.file) (hfresh : l'.fresh = l.fresh) :
    l'.Own s := by
  refine ⟨fun hv => ?_, fun hj => ?_, fun hj => ?_, fun hc hv => ?_⟩
  · rw [hrefs]
    exact h.held (hheld ▸ hv)
  · rw [hrefs]
    exact h.pend (hpend ▸ hj)
  · rw [hrefs]
    exact h.file (hfile ▸ hj)
  · exact h.fresh (hfresh ▸ hc) (hheld ▸ hv)

theorem addRef (h : l.Own s) (i : Nat) : (l.addRef i).Own s where
  held hv := Multiset.mem_cons_of_mem (h.held hv)
  pend hj := Multiset.mem_cons_of_mem (h.pend hj)
  file hj := ⟨Multiset.mem_cons_of_mem (h.file hj).1, (h.file hj).2⟩
  fresh := h.fresh

theorem dropRef (h : l.Own s) (hheld : ∀ v, (i, v) ∉ l.held) (hpend : i ∈ l.pend → i ∈ l.refs.erase i) :
    (l.dropRef i).Own s := by
  have hkeep {j : Nat} (hj : j ∈ l.refs) (hji : j = i → j ∈ l.refs.erase i) : j ∈ l.refs.erase i := by
    by_cases heq : j = i
    · exact hji heq
    · exact (Multiset.mem_erase_of_ne heq).mpr hj
  refine ⟨fun {j v} hv => ?_, fun {j} hj => ?_, fun {j} hj => ?_, fun hc hv => h.fresh hc hv⟩
  · refine hkeep (h.held hv) fun heq => ?_
    subst heq
    exact absurd hv (hheld v)
  · refine hkeep (h.pend hj) fun heq => ?_
    subst heq
    exact hpend hj
  · simp only [Ledger.dropRef] at hj ⊢
    split at hj
    · cases hj
    · rename_i hlast
      refine ⟨hkeep (h.file hj).1 fun heq => ?_, (h.file hj).2⟩
      subst heq
      exact not_not.mp fun hmem => hlast ⟨hj, hmem⟩

theorem of_bare (hl : l.Bare) : l.Own s := by
  obtain ⟨hheld, hpend, hfresh, hfile, _⟩ := hl
  exact ⟨by simp [hheld], by simp [hpend], by simp [hfile], by simp [hfresh]⟩

end Ledger.Own

section Act

variable [DecidableEq P] [Fintype P] {N : Nat} {s s' : Fs P} {ls : P → Ledger} {p : P}

section

variable (h : BaseInv N s ls)
include h

theorem BaseInv.keepTypes (hs : ∀ i, (s.inode i).Settles (s'.inode i))
    (htype : ∀ i, (s'.inode i).type = (s.inode i).type)
    (hcounts : Counted s' (Function.update ls p l)) (hheld : l.held = (ls p).held)
    (hfresh : l.fresh = (ls p).fresh) (hold : ∀ i, (ls p).put ≠ .free i)
    (hput : ∀ i, l.put ≠ .free i)
    (hfile : ∀ i, l.file = some i → (ls p).file = some i ∨ ∃ v, (i, v) ∈ (ls p).held)
    (hown : l.Own s) : BaseInv N s' (Function.update ls p l) :=
  h.settle hs hcounts hheld hfresh hold hput hfile
    (own_update (fun q _ => (h.own q).congr htype) (hown.congr htype))

theorem BaseInv.relink
    (hn : n.type = (s.inode i).type ∧ n.ents = (s.inode i).ents ∧ n.valid = (s.inode i).valid ∧
      n.lock = (s.inode i).lock)
    (hcounts : Counted (s.setInode i n) (Function.update ls p l)) (hheld : l.held = (ls p).held)
    (hfresh : l.fresh = (ls p).fresh) (hput : (ls p).put = .none) (hlput : l.put = (ls p).put)
    (hfile : ∀ i, l.file = some i → (ls p).file = some i ∨ ∃ v, (i, v) ∈ (ls p).held)
    (hown : l.Own s) : BaseInv N (s.setInode i n) (Function.update ls p l) := by
  obtain ⟨htype, hents, hvalid, hlock⟩ := hn
  exact h.keepTypes (settles_setInode (.of_same hlock htype hents hvalid))
    (Fs.field_setInode Inode.type htype) hcounts hheld hfresh (Put.ne_free hput)
    (Put.ne_free (hlput.trans hput)) hfile hown

theorem BaseInv.sameInodes (hinode : s'.inode = s.inode)
    (hcounts : Counted s' (Function.update ls p l)) (hheld : l.held = (ls p).held)
    (hfresh : l.fresh = (ls p).fresh) (hput : (ls p).put = .none) (hlput : l.put = (ls p).put)
    (hfile : ∀ i, l.file = some i → (ls p).file = some i) (hown : l.Own s) :
    BaseInv N s' (Function.update ls p l) := by
  refine h.keepTypes (fun i => ?_) (fun i => ?_) hcounts hheld hfresh (Put.ne_free hput)
    (Put.ne_free (hlput.trans hput)) (fun i hi => .inl (hfile i hi)) hown <;> rw [hinode]
  exact .of_same rfl rfl rfl rfl

/-- An `iput` gives up a reference, and frees the inode if nothing is known of it. -/
theorem BaseInv.giveUp (hput : (ls p).put = .none)
    (hcounts : Counted (s.setInode i n)
      (Function.update ls p { (ls p).dropRef i with put := .drop i }))
    (hpend : i ∈ (ls p).pend → i ∈ (ls p).refs.erase i) (hlock : (s.inode i).lock = none)
    (hn : n = s.inode i ∨ n = (s.inode i).free ∧ i ∉ (ls p).refs.erase i ∧
      ∀ q, (ls q).file = some i → q = p) :
    BaseInv N (s.setInode i n) (Function.update ls p { (ls p).dropRef i with put := .drop i }) := by
  have hsettles : (s.inode i).Settles n := by
    rcases hn with rfl | ⟨rfl, _⟩
    · exact .of_same rfl rfl rfl rfl
    · exact ⟨rfl, .inr ⟨hlock, rfl, rfl, rfl⟩⟩
  have hkeep {l : Ledger} (hl : l.Own s) (hfile : n = s.inode i ∨ l.file ≠ some i) :
      l.Own (s.setInode i n) := by
    refine ⟨hl.held, hl.pend, fun {j} hj => ?_, hl.fresh⟩
    by_cases hji : j = i
    · subst hji
      rw [hfile.resolve_right (not_not.mpr hj), Fs.inode_setInode_self]
      exact hl.file hj
    · rw [Fs.inode_setInode_ne s _ hji]
      exact hl.file hj
  have hdrop : Ledger.Own s { (ls p).dropRef i with put := .drop i } :=
    ((h.own p).dropRef (h.locks.unheld hlock p) hpend).of_fields rfl rfl rfl rfl rfl
  refine h.settle (settles_setInode hsettles) hcounts rfl rfl (Put.ne_free hput) (fun _ => nofun)
    (fun j hj => .inl (Ledger.file_of_dropRef hj)) (own_update (fun q hq => hkeep (h.own q) ?_)
      (hkeep hdrop ?_))
  · exact hn.imp_right fun hfree hq' => hq (hfree.2.2 q hq')
  · refine hn.imp_right fun hfree hfile => ?_
    have hnone : ((ls p).dropRef i).file ≠ some i := by
      have hold := Ledger.file_of_dropRef hfile
      simp [Ledger.dropRef, hold, hfree.2.1]
    exact hnone hfile

/-- The lock of an inode that no other process holds changes. -/
theorem BaseInv.relock {lock : Option P} {valid : Bool}
    (hcounts : Counted (s.setInode i { s.inode i with lock, valid }) (Function.update ls p l))
    (hold : ∀ q, q ≠ p → (s.inode i).lock ≠ some q) (hnew : ∀ q, q ≠ p → lock ≠ some q)
    (hself : lock = some p ↔ (∃ v, (i, v) ∈ l.held) ∨ l.put = .free i)
    (hothers : ∀ j, j ≠ i → ((∃ v, (j, v) ∈ l.held) ∨ l.put = .free j ↔
      (∃ v, (j, v) ∈ (ls p).held) ∨ (ls p).put = .free j))
    (hheld : ∀ {j v}, (j, v) ∈ l.held → (j, v) ∈ (ls p).held ∨
      j = i ∧ v = s.view i ∧ ∀ c, l.fresh = some c → i = c)
    (hvalid : ∀ v, (i, v) ∈ l.held → valid = true)
    (halloc : valid = true → (s.inode i).type ≠ .free) (hfresh : l.fresh = (ls p).fresh)
    (hfile : l.file = (ls p).file) (hfree : ∀ j, l.put = .free j → (∀ v, (j, v) ∉ l.held) ∧
      j ∉ l.refs.erase j ∧ ∀ q, q ≠ p → (ls q).file ≠ some j) (hown : l.Own s) :
    BaseInv N (s.setInode i { s.inode i with lock, valid }) (Function.update ls p l) := by
  set s' := s.setInode i { s.inode i with lock, valid } with hs'
  have htypes (j : Nat) : (s'.inode j).type = (s.inode j).type := Fs.field_setInode Inode.type (by rfl) j
  have hents (j : Nat) : (s'.inode j).ents = (s.inode j).ents := Fs.field_setInode Inode.ents (by rfl) j
  have hviews (j : Nat) : s'.view j = s.view j := by simp only [Fs.view, htypes, hents]
  have hself' : s'.inode i = { s.inode i with lock, valid } := Fs.inode_setInode_self ..
  have hother {j : Nat} (hj : j ≠ i) : s'.inode j = s.inode j := Fs.inode_setInode_ne s _ hj
  refine ⟨h.locks.update (fun q hq j => ?_) (fun j => ?_) (fun q hq j v hv => ⟨hviews j, ?_⟩)
      (fun j v hv => ⟨?_, ?_⟩) (fun j hj => .inl (hfile ▸ hj)) hfree,
    ⟨fun {j} hj => ?_, fun {j} hj => h.nodes.range (htypes j ▸ hj),
      fun {j} hj => (hents j).trans (h.nodes.leaf (htypes j ▸ hj))⟩, hcounts,
    own_update (fun q _ => (h.own q).congr htypes) (hown.congr htypes),
    h.order.mono fun d c hdc => ?_⟩
  · by_cases hj : j = i
    · subst hj
      simp [hself', hold q hq, hnew q hq]
    · rw [hother hj]
  · by_cases hj : j = i
    · subst hj
      rw [hself', hself]
    · rw [hother hj, hothers j hj, h.locks.holder]
  · rw [hother]
    rintro rfl
    exact hold q hq ((h.locks.holder j q).mpr (.inl ⟨v, hv⟩))
  · rw [hviews]
    rcases hheld hv with hv | ⟨rfl, rfl, _⟩
    · exact h.locks.view hv
    · rfl
  · by_cases hj : j = i
    · subst hj
      rw [hself']
      exact hvalid v hv
    · rw [hother hj]
      exact h.locks.valid ((hheld hv).resolve_right fun hji => hj hji.1)
  · rw [htypes]
    by_cases hji : j = i
    · subst hji
      rw [hself'] at hj
      exact halloc hj
    · exact h.nodes.alloc (hother hji ▸ hj)
  · rcases hdc with hnames | ⟨q, v, hf, hv, hne⟩
    · exact .inl (hviews d ▸ hnames)
    · by_cases hq : q = p
      · subst hq
        rw [update_self] at hf hv
        rcases hheld hv with hv | ⟨rfl, _, hc⟩
        · exact .inr ⟨q, v, hfresh ▸ hf, hv, hne⟩
        · exact absurd (hc c hf) hne
      · rw [update_of_ne hq] at hf hv
        exact .inr ⟨q, v, hf, hv, hne⟩

/-- An `iput` has found its reference to be the only one, and locks the inode. -/
theorem BaseInv.doom (hput : (ls p).put = .none) (hi : i ∈ (ls p).refs)
    (hcounts : Counted (s.setInode i { s.inode i with lock := some p })
      (Function.update ls p { ls p with gone := insert i (ls p).gone, put := .free i }))
    (hlock : (s.inode i).lock = none) (hone : (s.inode i).ref = 1) :
    BaseInv N (s.setInode i { s.inode i with lock := some p })
      (Function.update ls p { ls p with gone := insert i (ls p).gone, put := .free i }) := by
  have hunheld := h.locks.unheld hlock p
  refine h.relock hcounts (fun q _ => by simp [hlock]) (fun q hq => by simpa using hq.symm) (by simp)
    (fun j hj => by simp [hput, hj.symm]) .inl (fun v hv => absurd hv (hunheld v)) h.nodes.alloc rfl rfl
    (fun j hj => ?_) ((h.own p).of_fields rfl rfl rfl rfl rfl)
  obtain rfl : i = j := by simpa using hj
  refine ⟨hunheld, fun hmem => ?_, fun q hq hfile => hq (h.sole hi hone ((h.own q).file hfile).1)⟩
  have hle := h.refs_le p i
  rw [count_erase_add hi, if_pos rfl] at hle
  have hpos := Multiset.count_pos.mpr hmem
  dsimp only at hpos
  omega

theorem BaseInv.iputFree (hput : (ls p).put = .free i)
    (hcounts : Counted (s.iputFree i)
      (Function.update ls p { (ls p).dropRef i with put := .drop i }))
    (hpend : i ∈ (ls p).pend → i ∈ (ls p).refs.erase i) :
    BaseInv N (s.iputFree i) (Function.update ls p { (ls p).dropRef i with put := .drop i }) := by
  obtain ⟨hunheld, hrefs, hfiles⟩ := h.locks.doomed hput
  have hlock := (h.locks.holder i p).mpr (.inr hput)
  set l : Ledger := { ls p with put := .none } with hl
  -- The lock is released first, which is not seen, and then the inode is freed.
  have hunlocked : BaseInv N (s.setInode i { s.inode i with lock := none }) (Function.update ls p l) := by
    refine h.relock (h.counts.same (Fs.field_setInode Inode.ref (by rfl)) rfl rfl rfl fun hx => ?_)
      (fun q hq => ?_) (fun _ _ => nofun) ?_ (fun j hj => ?_) .inl (fun v hv => absurd hv (hunheld v))
      h.nodes.alloc rfl rfl (fun _ => nofun) ((h.own p).of_fields rfl rfl rfl rfl rfl)
    · have hx' := hx.refs
      rw [hput] at hx'
      exact { hx with refs := hx' }
    · rw [hlock]
      exact fun heq => hq (Option.some.inj heq).symm
    · simp [hl, hunheld]
    · simp [hl, hput, hj.symm]
  have hstate : (s.setInode i { s.inode i with lock := none }).setInode i
      { (s.inode i).free with lock := none } = s.iputFree i := by
    simp [Fs.setInode, Fs.iputFree]
  have hfreed := hunlocked.giveUp (p := p) (i := i) (n := { (s.inode i).free with lock := none })
    (by simp [l]) ?_ (by simpa [l] using hpend) (by simp) (.inr ⟨by simp [Inode.free],
      by simpa [l] using hrefs, fun q hq => hfiles q ?_⟩)
  · rwa [Function.update_idem, update_self, hstate] at hfreed
  · rwa [Function.update_idem, update_self, hstate]
  · rwa [Kernel.field_update Ledger.file (by rfl) q] at hq

theorem BaseInv.ilock (hput : (ls p).put = .none)
    (hcounts : Counted (s.setInode i { s.inode i with lock := some p, valid := true })
      (Function.update ls p ((ls p).lock i (s.view i))))
    (hmay : (ls p).MayLock i) (hlock : (s.inode i).lock = none) (htype : (s.inode i).type ≠ .free) :
    BaseInv N (s.setInode i { s.inode i with lock := some p, valid := true })
      (Function.update ls p ((ls p).lock i (s.view i))) := by
  obtain ⟨href, _, hmay⟩ := hmay
  -- A lock is taken while there is no new inode, or it is that of the new inode.
  have hnew (c : Nat) (hc : (ls p).fresh = some c) : i = c := by
    rcases hmay with ⟨hnone, _⟩ | ⟨hsome, _⟩
    · rw [hnone] at hc
      cases hc
    · exact Option.some.inj (hsome.symm.trans hc)
  have hheld {j : Nat} {v : View} (hv : (j, v) ∈ ((ls p).lock i (s.view i)).held) :
      (j, v) ∈ (ls p).held ∨ j = i ∧ v = s.view i := by
    simpa [or_comm] using hv
  refine h.relock hcounts (fun q _ => by simp [hlock]) (fun q hq => by simpa using hq.symm)
    (by simp) (fun j hj => by simp [hj, Ledger.lock])
    (fun hv => (hheld hv).imp_right fun ⟨hj, hv⟩ => ⟨hj, hv, hnew⟩) (fun _ _ => rfl) (fun _ => htype)
    rfl rfl (fun j hj => absurd hj (Put.ne_free hput j))
    ⟨fun hv => ?_, (h.own p).pend, (h.own p).file, fun {c d v} hc hv => ?_⟩
  · rcases hheld hv with hv | ⟨rfl, _⟩
    · exact (h.own p).held hv
    · exact href
  · rcases hheld hv with hv | ⟨rfl, _⟩
    · exact (h.own p).fresh hc hv
    · exact .inl (hnew c hc)

theorem BaseInv.iunlock (hput : (ls p).put = .none)
    (hcounts : Counted (s.setInode i { s.inode i with lock := none })
      (Function.update ls p ((ls p).unlock i))) {w : View} (hw : (i, w) ∈ (ls p).held) :
    BaseInv N (s.setInode i { s.inode i with lock := none })
      (Function.update ls p ((ls p).unlock i)) := by
  have hlock := (h.locks.holder i p).mpr (.inl ⟨w, hw⟩)
  have hsub {x : Nat × View} (hx : x ∈ ((ls p).unlock i).held) : x ∈ (ls p).held :=
    List.mem_of_mem_filter hx
  have hgone (v : View) : (i, v) ∉ ((ls p).unlock i).held := by simp [Ledger.unlock]
  refine h.relock hcounts (fun q hq => ?_) (by simp) ?_ (fun j hj => ?_)
    (fun hv => .inl (hsub hv)) (fun v hv => absurd hv (hgone v)) h.nodes.alloc rfl rfl
    (fun j hj => absurd hj (Put.ne_free hput j))
    ⟨fun hv => (h.own p).held (hsub hv), (h.own p).pend, (h.own p).file,
      fun hc hv => (h.own p).fresh hc (hsub hv)⟩
  · rw [hlock]
    exact fun heq => hq (Option.some.inj heq).symm
  · simp [Ledger.unlock, hput]
  · simp [Ledger.unlock, hj]

end

theorem mem_putSlot {ents : List Dirent} {slot : Nat} {de e : Dirent} (h : e ∈ putSlot ents slot de) :
    e = de ∨ e ∈ ents := by
  unfold putSlot at h
  split at h
  · exact (List.mem_or_eq_of_mem_set h).symm
  · simpa [or_comm] using h

theorem Ledger.mem_setView {d j : Nat} {v w : View} :
    (j, w) ∈ (l.setView d v).held ↔
      j ≠ d ∧ (j, w) ∈ l.held ∨ j = d ∧ w = v ∧ ∃ u, (d, u) ∈ l.held := by
  simp only [setView, List.mem_map, Prod.exists]
  constructor
  · rintro ⟨a, b, hmem, heq⟩
    split_ifs at heq with ha
    · obtain ⟨rfl, rfl⟩ := Prod.mk.inj heq
      exact .inr ⟨rfl, rfl, b, ha ▸ hmem⟩
    · obtain ⟨rfl, rfl⟩ := Prod.mk.inj heq
      exact .inl ⟨ha, hmem⟩
  · rintro (⟨hne, hmem⟩ | ⟨rfl, rfl, u, hu⟩)
    · exact ⟨j, w, hmem, by simp [hne]⟩
    · exact ⟨j, u, hu, by simp⟩

variable {de : Dirent}

theorem Ledger.wrote_fresh {d c : Nat} {slot : Nat}
    (h : (l.wrote d v slot de).fresh = some c) : l.fresh = some c := by
  unfold wrote at h
  dsimp only at h
  split_ifs at h <;> exact h

theorem Ledger.wrote_pend {d i : Nat} {slot : Nat} (h : i ∈ (l.wrote d v slot de).pend) :
    i ∈ l.pend ∨ i = d ∨ de.inum = 0 ∧ i = ((v.ents[slot]?).map Dirent.inum).getD 0 := by
  unfold wrote at h
  dsimp only at h
  split_ifs at h with hzero hdir hfresh hnew
  · rcases Multiset.mem_cons.mp h with rfl | h
    · exact .inr (.inl rfl)
    · rcases Multiset.mem_cons.mp h with rfl | h
      · exact .inr (.inr ⟨hzero, rfl⟩)
      · exact .inl h
  · rcases Multiset.mem_cons.mp h with rfl | h
    · exact .inr (.inr ⟨hzero, rfl⟩)
    · exact .inl h
  · exact .inl h
  · simp at h
  · exact .inl (Multiset.mem_of_mem_erase h)

omit [DecidableEq P] [Fintype P] in
theorem Ledger.Own.wrote {d slot : Nat} (h : l.Own s) (hmay : l.MayWrite d slot de)
    (hv : (d, v) ∈ l.held) (huniq : ∀ w, (d, w) ∈ l.held → w = v) :
    (l.wrote d v slot de).Own s := by
  obtain ⟨hheld, hrefs, hfile, _⟩ := l.wrote_keeps d v slot de
  obtain ⟨_, u, hu, hdir, hmay⟩ := hmay
  obtain rfl := huniq u hu
  refine ⟨fun {j w} hj => ?_, fun {j} hj => ?_, fun {j} hj => ?_, fun {c j w} hc hj => ?_⟩
  · rw [hheld, mem_setView] at hj
    rw [hrefs]
    rcases hj with ⟨_, hj⟩ | ⟨rfl, _, _, hj⟩
    · exact h.held hj
    · exact h.held hj
  · rw [hrefs]
    rcases wrote_pend hj with hj | rfl | ⟨hzero, rfl⟩
    · exact h.pend hj
    · exact h.held hv
    · rcases hmay with ⟨_, _, _, old, w, hold, _, _, hw, _⟩ | ⟨hne, _⟩
      · rw [hold]
        exact h.held hw
      · exact absurd hzero hne
  · rw [hrefs]
    exact h.file (hfile ▸ hj)
  · rw [hheld, mem_setView] at hj
    rcases hj with ⟨_, hj⟩ | ⟨rfl, rfl, _⟩
    · exact h.fresh (wrote_fresh hc) hj
    · exact .inr hdir

theorem Before.wrote (h : BaseInv N s ls) {d slot : Nat} (hmay : (ls p).MayWrite d slot de) :
    Acyclic (Before (s.setInode d { s.inode d with ents := putSlot (s.inode d).ents slot de })
      (Function.update ls p ((ls p).wrote d (s.view d) slot de))) := by
  set s' := s.setInode d { s.inode d with ents := putSlot (s.inode d).ents slot de } with hs'
  obtain ⟨_, v, hv, hdir, hmay⟩ := hmay
  obtain rfl := h.locks.view hv
  have hnames {a b : Nat} (hab : (s'.view a).names b) :
      (s.view a).names b ∨ a = d ∧ de.ordinary ∧ de.inum = b := by
    obtain ⟨e, he, hord, rfl⟩ := hab
    by_cases ha : a = d
    · subst ha
      have hmem : e ∈ putSlot (s.inode a).ents slot de := by simpa [Fs.view, hs'] using he
      rcases mem_putSlot hmem with rfl | hmem
      · exact .inr ⟨rfl, hord, rfl⟩
      · exact .inl ⟨e, hmem, hord, rfl⟩
    · refine .inl ⟨e, ?_, hord, rfl⟩
      simpa [Fs.view, hs', ha] using he
  have hfresh {q : P} {a b : Nat} {w : View}
      (hf : (Function.update ls p ((ls p).wrote d (s.view d) slot de) q).fresh = some b)
      (hw : (a, w) ∈ (Function.update ls p ((ls p).wrote d (s.view d) slot de) q).held) :
      (ls q).fresh = some b ∧ ∃ u, (a, u) ∈ (ls q).held := by
    by_cases hq : q = p
    · subst hq
      rw [update_self] at hf hw
      rw [((ls q).wrote_keeps d (s.view d) slot de).1, Ledger.mem_setView] at hw
      refine ⟨Ledger.wrote_fresh hf, ?_⟩
      rcases hw with ⟨_, hw⟩ | ⟨rfl, _, u, hu⟩
      · exact ⟨w, hw⟩
      · exact ⟨u, hu⟩
    · rw [update_of_ne hq] at hf hw
      exact ⟨hf, w, hw⟩
  by_cases hlink : (ls p).MayLink de
  · obtain ⟨_, hfile, _⟩ := hlink
    obtain ⟨_, hnotdir, _⟩ := (h.own p).file hfile
    refine h.order.add_sink (v := de.inum) (fun a b hab => ?_) (fun b hb => ?_)
    · rcases hab with hab | ⟨q, w, hf, hw, hne⟩
      · rcases hnames hab with hab | ⟨_, _, rfl⟩
        · exact .inl (.inl hab)
        · exact .inr rfl
      · obtain ⟨hf, u, hu⟩ := hfresh hf hw
        exact .inl (.inr ⟨q, u, hf, hu, hne⟩)
    · rcases hb with hb | ⟨q, w, hf, hw, hne⟩
      · rcases hnames hb with ⟨e, he, _⟩ | ⟨heq, _⟩
        · simp [Fs.view, h.nodes.leaf hnotdir] at he
        · exact hnotdir (heq ▸ hdir)
      · obtain ⟨hf, u, hu⟩ := hfresh hf hw
        rcases (h.own q).fresh hf hu with heq | htype
        · exact hne heq
        · rw [h.locks.view hu] at htype
          exact hnotdir htype
  · refine h.order.mono fun a b hab => ?_
    rcases hab with hab | ⟨q, w, hf, hw, hne⟩
    · rcases hnames hab with hab | ⟨rfl, hord, rfl⟩
      · exact .inl hab
      · rcases hmay with ⟨hzero, _⟩ | ⟨_, _, _, ⟨_, hdot | hdot⟩ | hl | ⟨hf, hne, _⟩⟩
        · exact absurd hzero hord.1
        · exact absurd hdot.1 hord.2.1
        · exact absurd hdot.1 hord.2.2
        · exact absurd hl hlink
        · exact .inr ⟨p, s.view a, hf, hv, hne.symm⟩
    · obtain ⟨hf, u, hu⟩ := hfresh hf hw
      exact .inr ⟨q, u, hf, hu, hne⟩

theorem Ledger.Bare.dropRef (h : l.Bare) (i : Nat) : (l.dropRef i).Bare := by
  obtain ⟨hheld, hpend, hfresh, hfile, hgone⟩ := h
  exact ⟨hheld, hpend, hfresh, by simp [Ledger.dropRef, hfile], by simp [Ledger.dropRef, hgone]⟩

section

variable (h : BaseInv N s ls)
include h

theorem BaseInv.writeDirent {d slot : Nat} (hput : (ls p).put = .none)
    (hcounts : Counted (s.setInode d { s.inode d with ents := putSlot (s.inode d).ents slot de })
      (Function.update ls p ((ls p).wrote d (s.view d) slot de)))
    (hmay : (ls p).MayWrite d slot de) :
    BaseInv N (s.setInode d { s.inode d with ents := putSlot (s.inode d).ents slot de })
      (Function.update ls p ((ls p).wrote d (s.view d) slot de)) := by
  have horder := Before.wrote h hmay
  have hmay' := hmay
  obtain ⟨_, v, hv, hdir, _⟩ := hmay
  obtain rfl := h.locks.view hv
  set s' := s.setInode d { s.inode d with ents := putSlot (s.inode d).ents slot de } with hs'
  obtain ⟨hheld, _, hfile, _, _, _, hwput⟩ := (ls p).wrote_keeps d (s.view d) slot de
  have htypes (j : Nat) : (s'.inode j).type = (s.inode j).type := Fs.field_setInode Inode.type (by rfl) j
  have hvalid (j : Nat) : (s'.inode j).valid = (s.inode j).valid := Fs.field_setInode Inode.valid (by rfl) j
  have hlock (j : Nat) : (s'.inode j).lock = (s.inode j).lock := Fs.field_setInode Inode.lock (by rfl) j
  have hother {j : Nat} (hj : j ≠ d) : s'.view j = s.view j := by simp [Fs.view, hs', hj]
  have hmem (j : Nat) (w : View) : (j, w) ∈ ((ls p).wrote d (s.view d) slot de).held ↔
      w = s'.view j ∧ ∃ u, (j, u) ∈ (ls p).held := by
    rw [hheld, Ledger.mem_setView]
    by_cases hj : j = d
    · subst hj
      simp [Fs.view, hs']
    · simp only [hj, ne_eq, not_false_eq_true, true_and, false_and, or_false, hother hj]
      refine ⟨fun hw => ⟨h.locks.view hw, w, hw⟩, ?_⟩
      rintro ⟨rfl, u, hu⟩
      rwa [← h.locks.view hu]
  refine ⟨h.locks.update (fun q _ j => by rw [hlock]) (fun j => ?_)
      (fun q hq j u hu => ⟨hother ?_, hvalid j⟩) (fun j w hw => ?_) (fun j hj => .inl (hfile ▸ hj))
      (fun j hj => absurd hj (Put.ne_free (hwput.trans hput) j)),
    ⟨fun {j} hj => ?_, fun {j} hj => h.nodes.range (htypes j ▸ hj), fun {j} hj => ?_⟩, hcounts,
    own_update (fun q _ => (h.own q).congr htypes) (Ledger.Own.congr (s := s) ?_ htypes), horder⟩
  · simp only [hlock, h.locks.holder, hmem, hwput, exists_eq_left]
  · rintro rfl
    exact hq (h.locks.unique hv hu)
  · obtain ⟨hw, u, hu⟩ := (hmem j w).mp hw
    exact ⟨hw, (hvalid j).trans (h.locks.valid hu)⟩
  · rw [htypes]
    exact h.nodes.alloc (hvalid j ▸ hj)
  · rw [htypes] at hj
    have hjd : j ≠ d := by
      rintro rfl
      exact hj hdir
    rw [hs', Fs.inode_setInode_ne s _ hjd]
    exact h.nodes.leaf hj
  · exact (h.own p).wrote hmay' hv fun w hw => h.locks.view hw

theorem BaseInv.claim {type : InodeType} (hpre : (fsRules N).pre (.claim i type) (ls p))
    (hcounts : Counted
      (s.setInode i { s.inode i with type, major := 0, minor := 0, nlink := 0, ents := [] })
      (Function.update ls p { ls p with fresh := some i, ftype := type }))
    (hfree : (s.inode i).type = .free) :
    BaseInv N (s.setInode i { s.inode i with type, major := 0, minor := 0, nlink := 0, ents := [] })
      (Function.update ls p { ls p with fresh := some i, ftype := type }) := by
  obtain ⟨hput, htype, hi, hN, hfresh, _, _, hdirs⟩ := hpre
  set s' := s.setInode i { s.inode i with type, major := 0, minor := 0, nlink := 0, ents := [] } with hs'
  have hother {j : Nat} (hj : j ≠ i) : s'.inode j = s.inode j := by simp [hs', hj]
  have hlock (j : Nat) : (s'.inode j).lock = (s.inode j).lock := Fs.field_setInode Inode.lock (by rfl) j
  have hunheld (q : P) (v : View) : (i, v) ∉ (ls q).held := fun hv => h.locks.alloc h.nodes hv hfree
  have hkept (q : P) (j : Nat) (v : View) (hv : (j, v) ∈ (ls q).held) :
      s'.view j = s.view j ∧ (s'.inode j).valid = (s.inode j).valid := by
    have hj : j ≠ i := by
      rintro rfl
      exact hunheld q v hv
    rw [Fs.view, hother hj]
    exact ⟨rfl, rfl⟩
  have hheld (q : P) : (Function.update ls p { ls p with fresh := some i, ftype := type } q).held =
      (ls q).held := Kernel.field_update Ledger.held (by rfl) q
  have hown {l : Ledger} (hl : l.Own s) {j : Nat} (hj : l.file = some j) :
      j ∈ l.refs ∧ (s'.inode j).type ≠ .dir ∧ (s'.inode j).type ≠ .free := by
    rw [hother]
    · exact hl.file hj
    · rintro rfl
      exact (hl.file hj).2.2 hfree
  refine ⟨h.locks.update (fun q _ j => by rw [hlock]) (fun j => by rw [hlock, h.locks.holder])
      (fun q _ => hkept q) (fun j v hv => ?_) (fun _ => .inl)
      (fun j hj => absurd hj (Put.ne_free hput j)),
    ⟨fun {j} hj => ?_, fun {j} hj => ?_, fun {j} hj => ?_⟩, hcounts,
    own_update (fun q _ => ⟨(h.own q).held, (h.own q).pend, hown (h.own q), (h.own q).fresh⟩)
      ⟨(h.own p).held, (h.own p).pend, hown (h.own p), fun _ hv => .inr (hdirs _ hv)⟩, ?_⟩
  · rw [(hkept p j v hv).1, (hkept p j v hv).2]
    exact ⟨h.locks.view hv, h.locks.valid hv⟩
  · by_cases hji : j = i
    · subst hji
      simpa [hs'] using htype
    · rw [hother hji] at hj ⊢
      exact h.nodes.alloc hj
  · by_cases hji : j = i
    · subst hji
      exact ⟨Nat.pos_of_ne_zero hi, hN⟩
    · rw [hother hji] at hj
      exact h.nodes.range hj
  · by_cases hji : j = i
    · subst hji
      simp [hs']
    · rw [hother hji] at hj ⊢
      exact h.nodes.leaf hj
  · -- The new inode names nothing and nobody holds it.
    refine h.order.add_sink (v := i) (fun a b hab => ?_) (fun b hb => ?_)
    · rcases hab with ⟨e, he, hord⟩ | ⟨q, v, hf, hv, hab⟩
      · by_cases ha : a = i
        · subst ha
          simp [Fs.view, hs'] at he
        · rw [Fs.view, hother ha] at he
          exact .inl (.inl ⟨e, he, hord⟩)
      · rw [hheld] at hv
        by_cases hq : q = p
        · subst hq
          rw [update_self] at hf
          exact .inr (Option.some.inj hf).symm
        · rw [update_of_ne hq] at hf
          exact .inl (.inr ⟨q, v, hf, hv, hab⟩)
    · rcases hb with ⟨e, he, _⟩ | ⟨q, v, _, hv, _⟩
      · simp [Fs.view, hs'] at he
      · rw [hheld] at hv
        exact hunheld q v hv

theorem BaseInv.post {a : FsAct} {r : a.Res} (hpre : (fsRules N).pre a (ls p))
    (he : Fs.exec p a s = .next (r, s')) :
    (fsRules N).post a (ls p) r (s.after (ls p) a r) := by
  cases Fs.exec_step he with
  | @ilock i _ hlock htype =>
    have hfree : (s.inode i).type ≠ .free := htype.elim h.nodes.alloc id
    obtain ⟨hpos, hN⟩ := h.nodes.range hfree
    refine ⟨fun x hx hxi => ?_, s.view i, hfree, hpos, hN, rfl⟩
    exact h.locks.unheld hlock p x.2 (hxi ▸ hx)
  | read i =>
    refine ⟨fun v hv => ?_, rfl⟩
    rw [h.locks.view hv]
    exact ⟨rfl, rfl⟩
  | incLink i | writeDirent d =>
    intro v hv
    rw [h.locks.view hv]
    rfl
  | claim type hfree =>
    exact ⟨fun x hx hxi => h.locks.alloc h.nodes hx (hxi ▸ hfree), rfl⟩
  | @closeInode f _ htype =>
    obtain ⟨xs, hrefs, hback⟩ := h.counts
    refine ⟨fun hf => ?_, rfl⟩
    have hnone := ((hrefs.sound p).fresh (f := f) (by simp [(hback p).fresh, hf])).1
    simp [hnone] at htype
  | closeShared | closeOther => exact ⟨fun _ => rfl, rfl⟩
  | _ => rfl

/-- Every action keeps the invariant, in every interleaving. -/
theorem BaseInv.act {a : FsAct} {r : a.Res} (hpre : (fsRules N).pre a (ls p))
    (he : Fs.exec p a s = .next (r, s')) :
    BaseInv N s' (Function.update ls p (s.after (ls p) a r)) := by
  have hown := h.own p
  have hcounts := h.counts.act hpre he
  have hpre' := hpre
  obtain ⟨hput, hpre⟩ := hpre
  cases Fs.exec_step he with
  | iget i =>
    refine h.keepTypes (settles_setInode ⟨rfl, .inl ⟨rfl, rfl, ?_⟩⟩)
      (Fs.field_setInode Inode.type rfl) hcounts rfl rfl (Put.ne_free hput) (Put.ne_free hput)
      (fun _ => .inl) (hown.addRef i)
    by_cases hpos : 0 < (s.inode i).ref
    · exact .inl (by simp [hpos])
    · exact .inr ⟨by simp [hpos], Nat.eq_zero_of_not_pos hpos⟩
  | idupCwd =>
    exact h.relink ⟨rfl, rfl, rfl, rfl⟩ hcounts rfl rfl hput rfl (fun _ => .inl) (hown.addRef _)
  | ilock _ hlock htype => exact h.ilock hput hcounts hpre hlock (htype.elim h.nodes.alloc id)
  | iunlock i =>
    obtain ⟨_, v, hv⟩ := hpre
    exact h.iunlock hput hcounts hv
  | @iputKeep i hlock =>
    have hkeep := h.giveUp (n := s.inode i) hput (by rwa [Fs.setInode_self])
      (fun hmem => (hpre.2.2 hmem).1) hlock (.inl rfl)
    rwa [Fs.setInode_self] at hkeep
  | iputDoom hlock hdying =>
    simp only [Inode.dying, Bool.and_eq_true, beq_iff_eq] at hdying
    exact h.doom hput hpre.1 hcounts hlock hdying.2
  | iputFree i => exact h.iputFree hput hcounts hpre.2.2
  | iputDrop i =>
    exact h.keepTypes (settles_setInode (.of_same rfl rfl rfl rfl))
      (Fs.field_setInode Inode.type rfl) hcounts rfl rfl (fun _ => by simp [hput, FsAct.put])
      (fun _ => nofun) (fun _ => .inl) (hown.of_fields rfl rfl rfl rfl rfl)
  | incLink i =>
    obtain ⟨v, hv, hcase⟩ := hpre
    have hi := hown.held hv
    have hpend {j : Nat} (hj : j ∈ i ::ₘ (ls p).pend) : j ∈ (ls p).refs :=
      (Multiset.mem_cons.mp hj).elim (fun heq => heq ▸ hi) hown.pend
    rw [Fs.after] at hcounts ⊢
    split at hcounts
    · rename_i hdir
      rw [if_pos hdir]
      exact h.relink ⟨rfl, rfl, rfl, rfl⟩ hcounts rfl rfl hput rfl (fun _ => .inl)
        ⟨hown.held, hpend, hown.file, hown.fresh⟩
    · rename_i hdir
      rw [if_neg hdir]
      refine h.relink ⟨rfl, rfl, rfl, rfl⟩ hcounts rfl rfl hput rfl
        (fun j hj => .inr ⟨v, Option.some.inj hj ▸ hv⟩) ⟨hown.held, hpend, fun {j} hj => ?_, hown.fresh⟩
      obtain rfl := Option.some.inj hj
      exact ⟨hi, hdir, h.locks.alloc h.nodes hv⟩
  | decLink i =>
    exact h.relink ⟨rfl, rfl, rfl, rfl⟩ hcounts rfl rfl hput rfl (fun _ => .inl)
      ⟨hown.held, fun hj => hown.pend (Multiset.mem_of_mem_erase hj), hown.file, hown.fresh⟩
  | initNode i major minor =>
    obtain ⟨_, _, v, hv⟩ := hpre
    refine h.relink ⟨rfl, rfl, rfl, rfl⟩ hcounts rfl rfl hput rfl (fun _ => .inl)
      ⟨hown.held, fun hj => ?_, hown.file, hown.fresh⟩
    rw [Multiset.mem_singleton.mp hj]
    exact hown.held hv
  | writeDirent d slot de => exact h.writeDirent hput hcounts hpre
  | claim type hfree => exact h.claim hpre' hcounts hfree
  | filealloc | fdalloc | closeShared | closeOther | takeFd =>
    exact h.sameInodes rfl hcounts rfl rfl hput rfl (fun _ => id) (hown.of_fields rfl rfl rfl rfl rfl)
  | closeInode | readCwd =>
    exact h.sameInodes rfl hcounts rfl rfl hput rfl (fun _ => id)
      ((hown.addRef _).of_fields rfl rfl rfl rfl rfl)
  | setFile f i =>
    exact h.sameInodes rfl hcounts rfl rfl hput rfl (fun _ => Ledger.file_of_dropRef)
      (.of_bare (hpre.2.2.2.dropRef i))
  | setCwd i =>
    obtain ⟨_, _, hbare⟩ := hpre
    cases i with
    | none => exact h.sameInodes rfl hcounts rfl rfl hput rfl (fun _ => id) (.of_bare hbare)
    | some i =>
      exact h.sameInodes rfl hcounts rfl rfl hput rfl (fun _ => Ledger.file_of_dropRef)
        (.of_bare (hbare.dropRef i))
  | read | unwritten | unclaimed | noFile | noFd | closedFd =>
    exact (Function.update_eq_self p ls).symm ▸ h

end

end Act

end Xv6
