import Xv6.Dir.Links

/-!
# Reachability from the root

Between the calls of a prudent run every directory is found by going down from the root, so link
counts are the numbers of entries that a lookup can come by.  An inode without links is held by an
open file or is a working directory, unless an `iput` has kept it for references that were about to be
given up.
-/

namespace Xv6

variable {P : Type}

/-- Inodes that lookups can come by, starting in the root. -/
inductive Fs.Reachable (s : Fs P) : Nat → Prop where
  | root : Reachable s ROOTINO
  | entry {d : Nat} {e : Dirent} : Reachable s d → e ∈ (s.inode d).ents → e.inum ≠ 0 →
      Reachable s e.inum

open Classical in
/-- Entries other than `.` for the inode in directories that can be reached. -/
noncomputable def Fs.reachableLinks (N : Nat) (s : Fs P) (i : Nat) : Nat :=
  ∑ d ∈ (Finset.range N).filter s.Reachable,
    (s.inode d).ents.countP fun e => e.inum = i ∧ e.name ≠ dot

theorem Fs.Reachable.names {s : Fs P} {d i : Nat} (hd : s.Reachable d) (h : (s.view d).names i) :
    s.Reachable i := by
  obtain ⟨e, he, hord, rfl⟩ := h
  exact .entry hd he hord.1

theorem Fs.Tree.reachable {N : Nat} {s : Fs P} (h : s.Tree N)
    (hacyclic : Acyclic fun d i => (s.view d).names i) {d : Nat} (hd : (s.inode d).type = .dir) :
    s.Reachable d := by
  by_contra hnot
  have hup {c : Nat} (hc : (s.inode c).type = .dir) (hcr : ¬ s.Reachable c) :
      (s.view (s.parent c)).names c ∧ (s.inode (s.parent c)).type = .dir ∧
        ¬ s.Reachable (s.parent c) := by
    have hroot : c ≠ ROOTINO := by
      rintro rfl
      exact hcr .root
    have hparent := h.names_parent hc
    rw [if_neg hroot] at hparent
    exact ⟨hparent, h.names_dir hparent, fun hr => hcr (hr.names hparent)⟩
  have hlt {c : Nat} (hc : (s.inode c).type = .dir) : c < N := (h.range (by simp [hc])).2
  let next (c : Fin N) : Fin N := if hc : s.parent c < N then ⟨s.parent c, hc⟩ else c
  have hnext {c : Fin N} (hc : (s.inode c).type = .dir) (hcr : ¬ s.Reachable c) :
      (next c : Nat) = s.parent c := by
    simp [next, hlt (hup hc hcr).2.1]
  refine hacyclic.swap.no_closed_chain next Fin.val
    {c : Fin N | (s.inode c).type = .dir ∧ ¬ s.Reachable c} ⟨⟨d, hlt hd⟩, hd, hnot⟩ ?_ ?_
  · rintro c ⟨hc, hcr⟩
    have hparent := (hup hc hcr).2
    rw [← hnext hc hcr] at hparent
    exact hparent
  · rintro c ⟨hc, hcr⟩
    rw [hnext hc hcr]
    exact (hup hc hcr).1

theorem Fs.Tree.reachableLinks_eq {N : Nat} {s : Fs P} (h : s.Tree N)
    (hacyclic : Acyclic fun d i => (s.view d).names i) (i : Nat) :
    s.reachableLinks N i = s.linkCount N i := by
  classical
  rw [Fs.reachableLinks, Fs.linkCount]
  refine Finset.sum_subset_zero_on_sdiff (Finset.filter_subset _ _) (fun d hd => ?_) (fun _ _ => ?_)
  · simp only [Finset.mem_sdiff, Finset.mem_filter, not_and] at hd
    have hnotdir : (s.inode d).type ≠ .dir := fun hdir => hd.2 hd.1 (h.reachable hacyclic hdir)
    simp [h.leaf hnotdir]
  · congr

section Idle

variable [Fintype P] {N : Nat} {s : Fs P} {ls : P → Ledger} {i : Nat}

theorem BaseInv.referenced (hb : BaseInv N s ls) (hidle : ∀ p, ls p = .idle)
    (hi : drops ls i < (s.inode i).ref) :
    (∃ p, s.cwd p = some i) ∨
      ∃ p fd f, s.ofile p fd = some f ∧ (s.file f).type = .inode ∧ (s.file f).ip = i := by
  rw [hb.refs i] at hi
  rcases Nat.add_pos_iff_pos_or_pos.mp (Nat.lt_add_left_iff_pos.mp hi) with hcwd | hfile
  · obtain ⟨p, _, hp⟩ := Finset.exists_ne_zero_of_sum_ne_zero hcwd.ne'
    refine .inl ⟨p, ?_⟩
    by_contra hne
    simp [Ledger.countRef, hidle p, Ledger.idle, hne] at hp
  · obtain ⟨f, _, hf⟩ := Finset.exists_ne_zero_of_sum_ne_zero hfile.ne'
    have hand : (s.file f).type = .inode ∧ (s.file f).ip = i := by
      by_contra hnot
      simp [hnot] at hf
    obtain ⟨xs, hrefs, hback⟩ := hb.counts
    have hopen : (s.file f).ref ≠ 0 := by
      intro hzero
      simp [hrefs.unused hzero] at hand
    have hshare : ∑ p, (xs p).share (s.ofile p) f ≠ 0 := fun hz => by
      have hfiles := hrefs.files f
      omega
    obtain ⟨p, _, hp⟩ := Finset.exists_ne_zero_of_sum_ne_zero hshare
    simp only [Hand.share, (hback p).files, hidle p, Ledger.idle, Option.elim_none, Multiset.count_zero,
      Nat.add_zero] at hp
    obtain ⟨fd, _, hfd⟩ := Finset.exists_ne_zero_of_sum_ne_zero hp
    refine .inr ⟨p, fd, f, ?_, hand⟩
    by_contra hne
    simp [hne] at hfd

theorem TreeInv.nlink_eq (ht : TreeInv N s ls) (hb : BaseInv N s ls) (hidle : ∀ p, ls p = .idle)
    (hi : (s.inode i).type ≠ .free) : (s.inode i).nlink = s.linkCount N i := by
  rw [(ht.links hi).1, (ht.tree hb hidle).linkCount_eq hi]
  simp [owed, hidle, Ledger.idle]

omit [Fintype P] in
theorem Fs.Tree.reachable_of_links (h : s.Tree N) (hacyclic : Acyclic fun d i => (s.view d).names i)
    (hi : (s.inode i).type ≠ .free) (hlinks : 0 < s.linkCount N i) : s.Reachable i := by
  by_cases hdir : (s.inode i).type = .dir
  · exact h.reachable hacyclic hdir
  · have hroot : i ≠ ROOTINO := by
      rintro rfl
      exact hdir h.root
    have hin : s.inCount N i ≠ 0 := by
      rw [h.linkCount_eq hi, if_neg hroot, Fs.subCount, h.leaf hdir] at hlinks
      simpa using hlinks.ne'
    rw [Ne, Fs.inCount_eq_zero] at hin
    push Not at hin
    obtain ⟨d, _, hd⟩ := hin
    exact (h.reachable hacyclic (h.names_dir hd)).names hd

end Idle

/-- An inode without links is valid and has a reference that is not being given up. -/
def Inode.Sheltered (n : Inode P) (drops : Nat) : Prop :=
  n.type ≠ .free → n.nlink = 0 → drops < n.ref ∧ n.valid = true

variable [Fintype P]

def OrphanInv (s : Fs P) (ls : P → Ledger) : Prop :=
  ∀ i, Unfresh ls i → (s.inode i).Sheltered (drops ls i)

/-- The calls that are about to decrement the reference count of the inode. -/
def Pool.dropping (c : FsPool P) (i : Nat) : Nat :=
  ∑ p, if (c.next p).map FsAct.put = some (.drop i) then 1 else 0

/-- The inode whose references `iput` is about to look at. -/
def FsAct.tests : FsAct → Option Nat
  | .iputTest i => some i
  | _ => none

/-- An `iput` that keeps an inode without links does so for a reference that no other `iput` is about to
give up. -/
def Pool.unraced (c : FsPool P) : PoolEvent P Syscall → Prop
  | .start _ _ => True
  | .run p => ∀ i ∈ (c.next p).bind FsAct.tests, (c.state.inode i).nlink = 0 →
      (c.state.inode i).ref ≠ 1 → c.dropping i + 1 < (c.state.inode i).ref

instance (c : FsPool P) : (e : PoolEvent P Syscall) → Decidable (c.unraced e)
  | .start _ _ => .isTrue trivial
  | .run p => inferInstanceAs (Decidable (∀ i ∈ (c.next p).bind FsAct.tests,
      (c.state.inode i).nlink = 0 → (c.state.inode i).ref ≠ 1 → c.dropping i + 1 < (c.state.inode i).ref))

section Orphans

variable [DecidableEq P] {N : Nat} {s s' : Fs P} {ls ls' : P → Ledger} {l : Ledger} {p : P} {i : Nat}

/-- An action that leaves other inodes and their references alone. -/
theorem OrphanInv.frame (h : OrphanInv s ls) (hs : ∀ j, j ≠ i → s'.inode j = s.inode j)
    (hdrops : ∀ j, j ≠ i → drops (Function.update ls p l) j = drops ls j)
    (hfresh : l.fresh = (ls p).fresh) (hi : (s.inode i).Sheltered (drops ls i) →
      (s'.inode i).Sheltered (drops (Function.update ls p l) i)) :
    OrphanInv s' (Function.update ls p l) := by
  intro j hj
  have hold := h j fun q => Kernel.field_update Ledger.fresh hfresh q ▸ hj q
  by_cases hji : j = i
  · exact hji ▸ hi (hji ▸ hold)
  · rwa [hs j hji, hdrops j hji]

/-- An action that no `iput` takes. -/
theorem OrphanInv.keep (h : OrphanInv s ls) (hs : ∀ j, j ≠ i → s'.inode j = s.inode j)
    (hput : l.put = (ls p).put) (hfresh : l.fresh = (ls p).fresh)
    (hi : (s.inode i).Sheltered (drops ls i) → (s'.inode i).Sheltered (drops ls i)) :
    OrphanInv s' (Function.update ls p l) :=
  h.frame hs (fun j _ => drops_congr hput j) hfresh fun hold => by
    rw [drops_congr hput]
    exact hi hold

variable (h : OrphanInv s ls) (hb : BaseInv N s ls) (ht : TreeInv N s ls)
include h hb ht

omit hb in
/-- A new inode that is entered in a directory has a link. -/
theorem OrphanInv.writeDirent {d slot : Nat} {de : Dirent} (hmay : (ls p).MayWrite d slot de) :
    OrphanInv (s.setInode d { s.inode d with ents := putSlot (s.inode d).ents slot de })
      (Function.update ls p ((ls p).wrote d (s.view d) slot de)) := by
  intro j hj htype hz
  have hput := ((ls p).wrote_keeps d (s.view d) slot de).2.2.2.2.2.2
  rw [Fs.field_setInode Inode.type (by rfl)] at htype
  rw [Fs.field_setInode Inode.nlink (by rfl)] at hz
  rw [Fs.field_setInode Inode.ref (by rfl), Fs.field_setInode Inode.valid (by rfl), drops_congr hput]
  have hpend := (ht.unlinked htype hz).2.2.2 p
  refine h j (fun q hq => ?_) htype hz
  by_cases hqp : q = p
  · subst hqp
    have hnew := hj q
    rw [Function.update_self] at hnew
    obtain ⟨-, v, -, -, ⟨hde, hnone, -⟩ | ⟨hde, -, -, hdot | ⟨hnone, -⟩ | ⟨hc, hcd, w, -, hready⟩⟩⟩ := hmay
    · simp [hnone] at hq
    · have hsame : (ls q).wrote d (s.view d) slot de =
          (ls q).setView d ⟨(s.view d).type, putSlot (s.view d).ents slot de⟩ := by
        simp [Ledger.wrote, hde, hdot.1]
      exact hnew ((congrArg Ledger.fresh hsame).trans hq)
    · simp [hnone] at hq
    · obtain rfl : de.inum = j := Option.some.inj (hc.symm.trans hq)
      rcases hready with ⟨_, hp, _⟩ | ⟨_, hp⟩ <;> simp [hp] at hpend
  · exact hj q (by rwa [Function.update_of_ne hqp])

theorem OrphanInv.act {a : FsAct} {r : a.Res} (hpre : (fsRules N).pre a (ls p)) (hok : s.prudent a)
    (hlast : ∀ i, a = .iputTest i → (s.inode i).nlink = 0 → (s.inode i).ref ≠ 1 →
      drops ls i + 1 < (s.inode i).ref) (he : Fs.exec p a s = .next (r, s')) :
    OrphanInv s' (Function.update ls p (s.after (ls p) a r)) := by
  have hother {i : Nat} {n : Inode P} (j : Nat) (hj : j ≠ i) :
      (s.setInode i n).inode j = s.inode j := Fs.inode_setInode_ne s n hj
  cases Fs.exec_step he with
  | iget i =>
    refine h.keep hother rfl rfl fun hold htype hz => ?_
    rw [Fs.inode_setInode_self] at htype hz ⊢
    obtain ⟨hlt, hv⟩ := hold htype hz
    exact ⟨hlt.trans (Nat.lt_succ_self _), by simp [hv, Nat.zero_lt_of_lt hlt]⟩
  | idupCwd hcwd =>
    refine h.keep hother rfl rfl fun hold htype hz => ?_
    rw [Fs.inode_setInode_self] at htype hz ⊢
    obtain ⟨hlt, hv⟩ := hold htype hz
    exact ⟨hlt.trans (Nat.lt_succ_self _), hv⟩
  | ilock =>
    refine h.keep hother rfl rfl fun hold htype hz => ?_
    rw [Fs.inode_setInode_self] at htype hz ⊢
    exact ⟨(hold htype hz).1, rfl⟩
  | iunlock i =>
    refine h.keep hother rfl rfl fun hold => ?_
    rw [Fs.inode_setInode_self]
    exact hold
  | @iputKeep i _ hdying =>
    have hdrops : ∀ j, drops (Function.update ls p (s.after (ls p) (.iputTest i) false)) j =
        drops ls j + if i = j then 1 else 0 := drops_giveUp (Put.ne_drop hpre.1) rfl
    refine h.frame (i := i) (fun _ _ => rfl) (fun j hj => by rw [hdrops, if_neg hj.symm, Nat.add_zero]) rfl
      fun hold htype hz => ?_
    obtain ⟨hlt, hv⟩ := hold htype hz
    have hone : (s.inode i).ref ≠ 1 := fun hone => by simp [Inode.dying, hv, hz, hone] at hdying
    rw [hdrops, if_pos rfl]
    exact ⟨hlast i rfl hz hone, hv⟩
  | @iputDoom i _ _ =>
    have hdrops : ∀ j, drops (Function.update ls p (s.after (ls p) (.iputTest i) true)) j =
        drops ls j := drops_other (Put.ne_drop hpre.1) (by simp [Fs.after])
    refine h.frame (i := i) hother (fun j _ => hdrops j) rfl fun hold => ?_
    rw [Fs.inode_setInode_self, hdrops]
    exact hold
  | iputFree i =>
    have hdrops : ∀ j, drops (Function.update ls p (s.after (ls p) (.iputFree i) ())) j =
        drops ls j + if i = j then 1 else 0 := drops_giveUp (by simp [hpre.1, FsAct.put]) rfl
    refine h.frame (i := i) hother (fun j hj => by rw [hdrops, if_neg hj.symm, Nat.add_zero]) rfl
      fun _ htype => ?_
    rw [Fs.iputFree, Fs.inode_setInode_self] at htype
    exact absurd rfl htype
  | iputDrop i =>
    have hdrops := drops_given hpre.1 (l := s.after (ls p) (.iputDrop i) ()) rfl
    refine h.frame (i := i) hother (fun j hj => by rw [← hdrops j, if_neg hj.symm]; rfl) rfl
      fun hold htype hz => ?_
    rw [Fs.iputDrop, Fs.inode_setInode_self] at htype hz ⊢
    obtain ⟨hlt, hv⟩ := hold htype hz
    rw [← hdrops i, if_pos rfl] at hlt
    exact ⟨Nat.lt_sub_of_add_lt hlt, hv⟩
  | incLink i =>
    obtain ⟨_, v, hv, _⟩ := hpre
    have hlinks := (ht.links (hb.locks.alloc hb.nodes hv)).1
    have hmax : (s.inode i).nlink < 32767 := hok
    have hshort := short_eq (x := (s.inode i).nlink + 1) (by omega) (by omega)
    refine h.keep hother ?_ ?_ fun _ _ hz => ?_
    · rw [Fs.after]
      split <;> rfl
    · rw [Fs.after]
      split <;> rfl
    · rw [Fs.inode_setInode_self] at hz
      dsimp only at hz
      omega
  | decLink i =>
    obtain ⟨_, _, hi, v, hv⟩ := hpre
    refine h.keep hother rfl rfl fun _ _ _ => ?_
    rw [Fs.inode_setInode_self]
    exact ⟨hb.ref_live ((hb.own p).pend hi), hb.locks.valid hv⟩
  | initNode i =>
    refine h.keep hother rfl rfl fun _ _ hz => ?_
    rw [Fs.inode_setInode_self] at hz
    cases hz
  | writeDirent d slot de => exact h.writeDirent ht hpre.2
  | @claim i type _ =>
    intro j hj
    have hji : j ≠ i := by
      rintro rfl
      exact hj p (by simp [Fs.after])
    rw [hother j hji, show drops (Function.update ls p (s.after (ls p) (.claim i type) true)) j =
      drops ls j from drops_congr (by rfl) j]
    refine h j fun q hq => ?_
    by_cases hqp : q = p
    · subst hqp
      simp [hpre.2.2.2.2.1] at hq
    · exact hj q (by rwa [Function.update_of_ne hqp])
  | setCwd i => cases i <;> exact h.keep (i := 0) (fun _ _ => rfl) rfl rfl id
  | _ => exact h.keep (i := 0) (fun _ _ => rfl) rfl rfl id

end Orphans

variable {N : Nat} {c : FsPool P}

/-- A call that is to decrement a reference count does so next. -/
theorem drops_le_dropping {ls : P → Ledger}
    (h : ∀ p, Kernel.Fits (fsRules N) (· = .idle) (c.thread p) (ls p)) (i : Nat) :
    drops ls i ≤ c.dropping i := by
  refine Finset.sum_le_sum fun p _ => ?_
  by_cases hput : (ls p).put = .drop i
  · have hp := h p
    have hidle : ls p ≠ .idle := fun hidle => by simp [hidle, Ledger.idle] at hput
    have hnext : (c.next p).map FsAct.put = some (.drop i) := by
      unfold Pool.next
      split
      · rename_i a k hthread
        rw [hthread] at hp
        exact congrArg some (hp.1.1.symm.trans hput)
      · rename_i hthread
        cases ht : c.thread p with
        | none =>
          rw [ht] at hp
          exact absurd hp hidle
        | some t =>
          cases t with
          | ret x =>
            rw [ht] at hp
            exact absurd hp hidle
          | act a k => exact absurd ht (hthread a k)
    rw [if_pos hput, if_pos hnext]
  · rw [if_neg hput]
    exact Nat.zero_le _

theorem tied_orphan [DecidableEq P] {s₀ : Fs P} (hboot : s₀.Boot N)
    (hc : Reach (fsKernel P N).step (fun c e =>
      Kernel.allows (fun s _ a => s.prudent a) c e ∧ c.unraced e) s₀.boot c) :
    Kernel.Tied (fsRules N) (· = .idle)
      (fun s ls => BaseInv N s ls ∧ TreeInv N s ls ∧ OrphanInv s ls) c := by
  have hinit : OrphanInv s₀ fun _ => .idle := fun i _ hi hz => by
    have hpos := (hboot.links hi).2.1
    omega
  refine hc.invariant ⟨_, ⟨hboot.base, hboot.treeInv, hinit⟩, fun _ => rfl⟩ fun c e c' h hok hs => ?_
  refine h.act ?_ (fun _ call _ l hl => hl ▸ wp_syscall hboot.size call) hs
  rintro ls p a r s' ⟨hb, ht, ho⟩ hfit rfl hnext hpre hexec
  have hprudent := hok.1 a hnext
  refine ⟨_, hb.post hpre hexec, hb.act hpre hexec, ht.act hb hpre hprudent hexec,
    ho.act hb ht hpre hprudent (fun i ha hz hone => ?_) hexec⟩
  have hrace := hok.2 i (by rw [hnext, ha]; rfl) hz hone
  have hle := drops_le_dropping hfit i
  omega

/-- Whenever no call is in progress in a prudent run in which no two calls of `iput` race, an allocated
inode with links is reached from the root and its link count is the number of entries other than `.` for
it in directories that are reached; one without links is a working directory or open. -/
theorem links_consistent [DecidableEq P] {s₀ : Fs P} (hboot : s₀.Boot N) (hc : Reach (fsKernel P N).step (fun c e =>
      Kernel.allows (fun s _ a => s.prudent a) c e ∧ c.unraced e) s₀.boot c)
    (hidle : ∀ p, c.thread p = none) {i : Nat}
    (hi : (c.state.inode i).type ≠ .free) :
    (0 < (c.state.inode i).nlink → c.state.Reachable i ∧
      (c.state.inode i).nlink = c.state.reachableLinks N i) ∧
    ((c.state.inode i).nlink = 0 → (∃ p, c.state.cwd p = some i) ∨
      ∃ p fd f, c.state.ofile p fd = some f ∧ (c.state.file f).type = .inode ∧
        (c.state.file f).ip = i) := by
  obtain ⟨ls, ⟨hb, ht, ho⟩, hfit⟩ := tied_orphan hboot hc
  have hidle' (p : P) : ls p = .idle := by
    have hp := hfit p
    rwa [hidle p] at hp
  have htree := ht.tree hb hidle'
  have hacyclic : Acyclic fun d i => (c.state.view d).names i := hb.order.mono fun _ _ => .inl
  have hlinks := ht.nlink_eq hb hidle' hi
  refine ⟨fun hpos => ?_, fun hzero => ?_⟩
  · rw [htree.reachableLinks_eq hacyclic]
    exact ⟨htree.reachable_of_links hacyclic hi (by omega), hlinks⟩
  · have hunfresh : Unfresh ls i := fun p => by simp [hidle' p, Ledger.idle]
    exact hb.referenced hidle' (ho i hunfresh hi hzero).1

/-- After `mkdir("a")` the root has two links, its own `..` and that of `a`; and `unlink` leaves an open
file without links. -/
theorem links_consistent_mkdir :
    ∃ c : FsPool (Fin 1), runEvents (fsKernel (Fin 1) 8).step (emptyImage (Fin 1) 8).boot
        (callFor 0 (.mkdir [97]) 28 ++ callFor 0 (.open [102] O_CREATE) 23 ++
          callFor 0 (.unlink [102]) 18) = .next c ∧
      (c.state.inode ROOTINO).nlink = 2 ∧ c.state.reachableLinks 8 ROOTINO = 2 ∧
      (c.state.inode 3).nlink = 0 ∧ ((∃ p, c.state.cwd p = some 3) ∨ ∃ p fd f,
        c.state.ofile p fd = some f ∧ (c.state.file f).type = .inode ∧ (c.state.file f).ip = 3) := by
  have hok : Along (fsKernel (Fin 1) 8).step (fun c e =>
      Kernel.allows (fun s _ a => s.prudent a) c e ∧ c.unraced e) (emptyImage (Fin 1) 8).boot
      (callFor 0 (.mkdir [97]) 28 ++ callFor 0 (.open [102] O_CREATE) 23 ++
        callFor 0 (.unlink [102]) 18) := by
    decide +kernel
  have hrun : (runEvents (fsKernel (Fin 1) 8).step (emptyImage (Fin 1) 8).boot
      (callFor 0 (.mkdir [97]) 28 ++ callFor 0 (.open [102] O_CREATE) 23 ++
        callFor 0 (.unlink [102]) 18)).holds fun c => c.thread 0 = none ∧
        (c.state.inode ROOTINO).type = .dir ∧ (c.state.inode ROOTINO).nlink = 2 ∧
        (c.state.inode 3).type = .file ∧ (c.state.inode 3).nlink = 0 := by
    decide +kernel
  obtain ⟨c, hc, hthread, htype, hnlink, hfile, hzero⟩ := Outcome.exists_of_holds hrun
  have hidle (p : Fin 1) : c.thread p = none := by
    rwa [Subsingleton.elim p 0]
  have hreach := Reach.of_runEvents .init _ hok hc
  have hboot := emptyImage_boot (P := Fin 1) (N := 8) (by decide) (by decide)
  have hlinks := (links_consistent hboot hreach hidle (i := ROOTINO) (by simp [htype])).1 (by simp [hnlink])
  have heq := hlinks.2
  exact ⟨c, hc, hnlink, by omega, hzero,
    (links_consistent hboot hreach hidle (i := 3) (by simp [hfile])).2 hzero⟩

/-- A file created in a working directory that has been removed has a link but is not reached; and a
file that is closed while it is unlinked stays behind without links if each `iput` finds the reference
of the other still counted. -/
theorem links_leaked :
    (∃ c : FsPool (Fin 1), runEvents (fsKernel (Fin 1) 8).step (emptyImage (Fin 1) 8).boot
        (callFor 0 (.mkdir [97]) 28 ++ callFor 0 (.chdir [97]) 16 ++ callFor 0 (.unlink [47, 97]) 19 ++
          callFor 0 (.open [120] O_CREATE) 23) = .next c ∧
      c.thread 0 = none ∧ (c.state.inode 3).type = .file ∧ (c.state.inode 3).nlink = 1 ∧
      ¬ c.state.Reachable 3) ∧
    ∃ c : FsPool (Fin 2), runEvents (fsKernel (Fin 2) 8).step (emptyImage (Fin 2) 8).boot
        (callFor 0 (.open [102] O_CREATE) 22 ++ callFor 0 (.close 0) 3 ++ callFor 1 (.unlink [102]) 18 ++
          [.run 0, .run 0]) = .next c ∧
      (∀ p, c.thread p = none) ∧ (c.state.inode 2).type = .file ∧ (c.state.inode 2).nlink = 0 ∧
      (c.state.inode 2).ref = 0 := by
  refine ⟨?_, ?_⟩
  swap
  · have hrun : (runEvents (fsKernel (Fin 2) 8).step (emptyImage (Fin 2) 8).boot
        (callFor 0 (.open [102] O_CREATE) 22 ++ callFor 0 (.close 0) 3 ++ callFor 1 (.unlink [102]) 18 ++
          [.run 0, .run 0])).holds fun c => (∀ p, (c.thread p).isNone = true) ∧
        (c.state.inode 2).type = .file ∧ (c.state.inode 2).nlink = 0 ∧ (c.state.inode 2).ref = 0 := by
      decide +kernel
    obtain ⟨c, hc, hthread, hrest⟩ := Outcome.exists_of_holds hrun
    exact ⟨c, hc, fun p => Option.isNone_iff_eq_none.mp (hthread p), hrest⟩
  have hrun : (runEvents (fsKernel (Fin 1) 8).step (emptyImage (Fin 1) 8).boot
      (callFor 0 (.mkdir [97]) 28 ++ callFor 0 (.chdir [97]) 16 ++ callFor 0 (.unlink [47, 97]) 19 ++
        callFor 0 (.open [120] O_CREATE) 23)).holds fun c => c.thread 0 = none ∧
          (c.state.inode 3).type = .file ∧ (c.state.inode 3).nlink = 1 ∧
          (c.state.inode ROOTINO).ents = [⟨ROOTINO, dot⟩, ⟨ROOTINO, dotdot⟩, ⟨0, []⟩] := by
    decide +kernel
  obtain ⟨c, hc, hthread, htype, hnlink, hents⟩ := Outcome.exists_of_holds hrun
  refine ⟨c, hc, hthread, htype, hnlink, fun hreach => ?_⟩
  have hroot {i : Nat} (hi : c.state.Reachable i) : i = ROOTINO := by
    induction hi with
    | root => rfl
    | entry _ he hne ih =>
      rw [ih, hents] at he
      simp only [List.mem_cons, List.not_mem_nil, or_false] at he
      rcases he with rfl | rfl | rfl
      · rfl
      · rfl
      · exact absurd rfl hne
  exact absurd (hroot hreach) (by decide)

end Xv6
