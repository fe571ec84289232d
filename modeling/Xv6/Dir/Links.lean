import Xv6.Dir.Entries

/-!
# No dangling inode numbers

Every action of a prudent run keeps the tree, so no lookup comes upon a free inode.  Removing a
working directory and then its parent leaves a `..` behind that names one.
-/

namespace Xv6

variable {P : Type} [Fintype P]

/-- A directory is removed only while nothing but the removing call refers to it, and no link count
runs over. -/
def Fs.prudent (s : Fs P) : FsAct → Prop
  | .incLink i => (s.inode i).nlink < 32767
  | .writeDirent d slot de => de.inum = 0 → ∀ old, (s.inode d).ents[slot]? = some old →
      (s.inode old.inum).type = .dir → (s.inode old.inum).ref = 1
  | _ => True

instance (s : Fs P) : (a : FsAct) → Decidable (s.prudent a)
  | .incLink i => inferInstanceAs (Decidable ((s.inode i).nlink < 32767))
  | .writeDirent d slot de =>
    match h : (s.inode d).ents[slot]? with
    | none => .isTrue (by simp [Fs.prudent, h])
    | some old => decidable_of_iff
        (de.inum = 0 → (s.inode old.inum).type = .dir → (s.inode old.inum).ref = 1)
        (by simp [Fs.prudent, h])
  | .iget _ | .idupCwd | .ilock _ | .iunlock _ | .iputTest _ | .iputFree _ | .iputDrop _ | .read _
  | .decLink _ | .initNode _ _ _ | .claim _ _ | .filealloc | .fdalloc _ | .fileclose _ | .takeFd _
  | .setFile _ _ _ _ | .readCwd | .setCwd _ | .panic _ => .isTrue trivial

variable {l : Ledger}

section Act

variable [DecidableEq P] {N : Nat} {s s' : Fs P} {ls : P → Ledger} {p : P}

theorem TreeInv.sameInodes (ht : TreeInv N s ls) (hinode : s'.inode = s.inode)
    (hheld : l.held = (ls p).held) (hpend : l.pend = (ls p).pend) (hfresh : l.fresh = (ls p).fresh)
    (hftype : l.ftype = (ls p).ftype) (hgone : l.gone = (ls p).gone) (hput : l.put = (ls p).put)
    (hfrefs : ∀ c, (ls p).fresh = some c → l.refs.count c = (ls p).refs.count c)
    (hgrefs : ∀ c ∈ (ls p).gone, c ∈ l.refs) : TreeInv N s' (Function.update ls p l) := by
  have hsame (i : Nat) : s'.inode i = s.inode i := by rw [hinode]
  refine ht.moveRefs (.update (fun i => by rw [hsame]) (fun i => by rw [hsame])
    (fun i => by rw [hsame]) hfresh hftype hpend hgone fun x _ hx => hheld ▸ hx)
    (fun i => by rw [hsame]) (fun i hv => by rw [hsame, hv]) hput hfrefs hgrefs

variable {i : Nat}

theorem TreeInv.takeRef (ht : TreeInv N s ls) (hinode : s'.inode = s.inode)
    (hi : ∀ q, (ls q).refs.count i + drops ls i < (s.inode i).ref)
    (hrefs : l.refs = i ::ₘ (ls p).refs) (hheld : l.held = (ls p).held) (hpend : l.pend = (ls p).pend)
    (hfresh : l.fresh = (ls p).fresh) (hftype : l.ftype = (ls p).ftype)
    (hgone : l.gone = (ls p).gone) (hput : l.put = (ls p).put) :
    TreeInv N s' (Function.update ls p l) := by
  obtain ⟨hunfresh, _⟩ := ht.settled hi
  refine ht.sameInodes hinode hheld hpend hfresh hftype hgone hput (fun c hc => ?_) (fun c hc => ?_)
  · have hci : c ≠ i := by
      rintro rfl
      exact hunfresh p hc
    rw [hrefs, Multiset.count_cons_of_ne hci]
  · rw [hrefs]
    exact Multiset.mem_cons_of_mem (ht.gone hc).held

section

variable (ht : TreeInv N s ls) (hb : BaseInv N s ls)
include ht hb

theorem TreeInv.incLink (hpre : (fsRules N).pre (.incLink i) (ls p))
    (hmax : (s.inode i).nlink < 32767)
    (hl : l = { ls p with pend := i ::ₘ (ls p).pend, file := l.file }) :
    TreeInv N (s.setInode i { s.inode i with nlink := short ((s.inode i).nlink + 1) })
      (Function.update ls p l) := by
  obtain ⟨_, v, hv, _⟩ := hpre
  have hlinks := (ht.links (hb.locks.alloc hb.nodes hv)).1
  have hpend : l.pend = i ::ₘ (ls p).pend := by rw [hl]
  have hshort := short_eq (x := (s.inode i).nlink + 1) (by omega) (by omega)
  refine ht.relink (i := i) ⟨rfl, rfl, rfl, rfl⟩ (by rw [hl]) (by rw [hl]) (by rw [hl]) (by rw [hl])
    (by rw [hl]) (by rw [hl]) (fun j hj => ?_) ?_ ?_ (fun q hq => ?_) (.inr ?_)
  · rw [hpend, Multiset.count_cons_of_ne hj]
  · simp only [hpend, Multiset.count_cons_self, hshort]
    push_cast
    omega
  · simp only [hshort]
    omega
  · exact (ht.fresh_owner hb hq ((hb.own p).held hv)).symm
  · rw [hpend]
    exact Multiset.cons_ne_zero

theorem TreeInv.decLink (hpre : (fsRules N).pre (.decLink i) (ls p)) :
    TreeInv N (s.setInode i { s.inode i with nlink := short ((s.inode i).nlink - 1) })
      (Function.update ls p { ls p with pend := (ls p).pend.erase i }) := by
  obtain ⟨_, hnone, hi, v, hv⟩ := hpre
  obtain ⟨hlinks, hle⟩ := ht.links (hb.locks.alloc hb.nodes hv)
  have hcount := Multiset.count_pos.mpr hi
  have hpos : (ls p).pend.count i ≤ owed N s ls i := by
    have hsum := le_sum_univ (fun q => (ls q).pend.count i) p
    unfold owed
    omega
  have hshort := short_eq (x := (s.inode i).nlink - 1) (by omega) (by omega)
  have hip := (hb.own p).held hv
  refine ht.relink (i := i) ⟨rfl, rfl, rfl, rfl⟩ rfl rfl rfl rfl rfl rfl (fun j hj => ?_) ?_ ?_
    (fun q hq => ?_) (.inl hnone)
  · exact Multiset.count_erase_of_ne hj _
  · simp only [hshort, Multiset.count_erase_self]
    omega
  · simp only [hshort]
    omega
  · exact (ht.fresh_owner hb hq hip).symm

theorem TreeInv.initNode {major minor : Int}
    (hpre : (fsRules N).pre (.initNode i major minor) (ls p)) :
    TreeInv N (s.setInode i { s.inode i with major, minor, nlink := 1 })
      (Function.update ls p { ls p with pend := {i} }) := by
  obtain ⟨_, hfresh, hpend, v, hv⟩ := hpre
  have hzero := (ht.fresh hfresh).nlink hpend
  refine ht.relink (i := i) ⟨rfl, rfl, rfl, rfl⟩ rfl rfl rfl rfl rfl rfl (fun j hj => ?_) ?_ (by simp)
    (fun q hq => ?_) (.inr (by simp))
  · simp [hpend, hj]
  · simp [hpend, hzero]
  · exact (ht.fresh_owner hb hq ((hb.own p).held hv)).symm

end

omit [Fintype P] [DecidableEq P] in
theorem LockInv.holdsDir (h : LockInv s ls) {w : View} (hw : (i, w) ∈ (ls p).held) :
    (ls p).holdsDir i = true ↔ (s.inode i).type = .dir := by
  simp only [Ledger.holdsDir, List.any_eq_true, decide_eq_true_eq]
  constructor
  · rintro ⟨⟨j, v⟩, hv, rfl, htype⟩
    rwa [h.view hv] at htype
  · intro htype
    refine ⟨(i, w), hw, rfl, ?_⟩
    rw [h.view hw]
    exact htype

section

variable (ht : TreeInv N s ls) (hb : BaseInv N s ls)
include ht hb

omit [DecidableEq P] in
theorem TreeInv.ordinary_of_new {d : Nat} {de : Dirent} (hdir : (s.inode d).type = .dir)
    (hdu : Unfresh ls d) (hdk : Kept ls d) (hde : de.inum ≠ 0)
    (hsearch : dirSearch de.name (s.inode d).ents 0 = none) : de.ordinary := by
  obtain ⟨parent, ⟨rest, hents, _⟩, hparent⟩ := ht.dots hdir hdu
  rw [dirSearch_eq_none, hents] at hsearch
  have hd : d ≠ 0 := (hb.nodes.range (by simp [hdir])).1.ne'
  have hpar : parent ≠ 0 := by
    have hparent := hparent hdk
    split at hparent
    · rw [hparent]
      decide
    · exact (hb.nodes.range (by simp [hb.names_dir hparent])).1.ne'
  exact ⟨hde, (hsearch ⟨d, dot⟩ (by simp) hd).symm, (hsearch ⟨parent, dotdot⟩ (by simp) hpar).symm⟩

theorem TreeInv.writeDirent {d slot : Nat} {de : Dirent} (hmay : (ls p).MayWrite d slot de)
    (hok : s.prudent (.writeDirent d slot de)) :
    TreeInv N (s.setInode d { s.inode d with ents := putSlot (s.inode d).ents slot de })
      (Function.update ls p ((ls p).wrote d (s.view d) slot de)) := by
  obtain ⟨hgp, v, hv, hdir, hcase⟩ := hmay
  obtain rfl := hb.locks.view hv
  have hdp := (hb.own p).held hv
  obtain ⟨hheld, hrefs, _, _, _, _, hput⟩ := (ls p).wrote_keeps d (s.view d) slot de
  have hdk := ht.kept_of_ref hb hgp hdp
  rcases hcase with ⟨hde, hfp, hpp, old, w, hold, hord, hcd, hw, hempty⟩ |
    ⟨hde, hsearch, hslot, hdot | ⟨hfp, hfile, hpp⟩ | ⟨hfp, hne, w, hw, hready⟩⟩
  · -- `unlink`
    have hold' : (s.inode d).ents[slot]? = some old := hold
    have hinum : (((s.view d).ents[slot]?).map Dirent.inum).getD 0 = old.inum := by rw [hold]; rfl
    have hdir' := hb.locks.holdsDir hw
    rw [hb.locks.view hw] at hempty
    refine ht.clear hb hrefs hheld hput ?_ hfp hgp hdp hdir hde hold' hord hcd hw ?_ hempty
      (hok hde old hold') fun j => ?_
    all_goals
      simp only [Ledger.wrote, hde, if_true, hinum]
      by_cases hc : (s.inode old.inum).type = .dir
    · rw [if_pos (hdir'.mpr hc)]
      exact hfp
    · rw [if_neg (mt hdir'.mp hc)]
      exact hfp
    · rw [if_pos (hdir'.mpr hc), if_pos hc]
    · rw [if_neg (mt hdir'.mp hc), if_neg hc]
      exact hgp
    · rw [if_pos (hdir'.mpr hc)]
      simp only [Multiset.count_cons, hc, and_true, @eq_comm _ j old.inum]
    · rw [if_neg (mt hdir'.mp hc)]
      simp only [Multiset.count_cons, hc, and_false, if_false, Nat.add_zero, @eq_comm _ j old.inum]
  · -- `.` and `..` of a new directory
    have hwrote : (ls p).wrote d (s.view d) slot de =
        (ls p).setView d ⟨(s.view d).type, putSlot (s.view d).ents slot de⟩ := by
      simp [Ledger.wrote, hde, hdot.1]
    rw [hwrote]
    exact ht.writeDot hb hdot hde hslot hsearch
  · -- `link`
    obtain ⟨hcp, hnotdir, halloc⟩ := (hb.own p).file hfile
    have hwrote : (ls p).wrote d (s.view d) slot de =
        { (ls p).setView d ⟨(s.view d).type, putSlot (s.view d).ents slot de⟩ with
          pend := (ls p).pend.erase de.inum } := by
      simp [Ledger.wrote, hde, hfp]
    have hunfresh {x : Nat} (hx : x ∈ (ls p).refs) : Unfresh ls x := by
      intro q hq
      obtain rfl := ht.fresh_owner hb hq hx
      simp [hfp] at hq
    refine ht.enter hb hrefs hheld hput (by rw [hwrote]; exact hgp) (by rw [hwrote]; exact hfp)
      (ht.ordinary_of_new hb hdir (hunfresh hdp) hdk hde hsearch) rfl hslot hdir (hunfresh hdp) hdk hgp
      halloc (ht.kept_of_ref hb hgp hcp) (fun q hq => absurd hq (hunfresh hcp q)) (by simp [hfp])
      (fun hc => absurd hc hnotdir) fun j => ?_
    simp only [hwrote, hpp, hnotdir, and_false, if_false, Multiset.count_singleton]
    simp [@eq_comm _ j de.inum]
  · -- the entry that `create` makes
    have hf := ht.fresh hfp
    have hcp := (hb.own p).held hw
    have hdu : Unfresh ls d := by
      intro q hq
      obtain rfl := ht.fresh_owner hb hq hdp
      exact hne (Option.some.inj (hfp.symm.trans hq))
    have hwrote : (ls p).wrote d (s.view d) slot de =
        { (ls p).setView d ⟨(s.view d).type, putSlot (s.view d).ents slot de⟩ with
          fresh := none, ftype := .free, pend := 0 } := by
      simp [Ledger.wrote, hde, hfp, hne]
    refine ht.enter hb hrefs hheld hput (by rw [hwrote]; exact hgp) (by rw [hwrote])
      (ht.ordinary_of_new hb hdir hdu hdk hde hsearch) rfl hslot hdir hdu hdk hgp hf.alloc
      (ht.kept_of_ref hb hgp hcp) (fun q hq => hf.sole q hq)
      (fun x hx => Option.some.inj (hx.symm.trans hfp)) (fun hc => ⟨hfp, ?_⟩) fun j => ?_
    · rcases hready with ⟨_, _, k, hk⟩ | ⟨hnotdir, _⟩
      · rw [hb.locks.view hw] at hk
        have hmem : ⟨d, dotdot⟩ ∈ (s.inode de.inum).ents :=
          List.mem_of_getElem? (dirSearch_getElem hk).2
        have hname : dotdot ≠ dot := by decide
        rcases hf.ents with hents | hents | ⟨dd, u, hents, _⟩
        · simp [hents] at hmem
        · simp [hents, hname] at hmem
        · obtain rfl : d = dd := by simpa [hents, hname] using hmem
          exact hents
      · exact absurd (hf.type ▸ hc) hnotdir
    · rw [hf.type]
      simp only [hwrote]
      rcases hready with ⟨hft, hpp, _⟩ | ⟨hft, hpp⟩
      · simp only [hpp, hft, and_true, Multiset.insert_eq_cons, Multiset.count_cons,
          Multiset.count_singleton, Multiset.count_zero, @eq_comm _ j de.inum]
        omega
      · simp [hpp, hft, Multiset.count_singleton, @eq_comm _ j de.inum]

theorem TreeInv.act {a : FsAct} {r : a.Res} (hpre : (fsRules N).pre a (ls p)) (hok : s.prudent a)
    (he : Fs.exec p a s = .next (r, s')) :
    TreeInv N s' (Function.update ls p (s.after (ls p) a r)) := by
  cases Fs.exec_step he with
  | iget i =>
    obtain ⟨halloc, hkept, howner⟩ := ht.lookup hb hpre
    exact ht.addRef halloc hkept howner ⟨rfl, rfl, rfl⟩ rfl
  | idupCwd hcwd =>
    have hlt := hb.count_lt_cwd hcwd hpre.2
    obtain ⟨hunfresh, hkept⟩ := ht.settled hlt
    exact ht.addRef (ht.alloc (Nat.lt_of_le_of_lt (Nat.le_add_left _ _) (hlt p))) hkept
      (fun q hq => absurd hq (hunfresh q)) ⟨rfl, rfl, rfl⟩ rfl
  | @ilock i =>
    refine ht.moveRefs (.update (Fs.field_setInode Inode.type (by rfl))
      (Fs.field_setInode Inode.ents (by rfl)) (Fs.field_setInode Inode.nlink (by rfl)) rfl rfl rfl rfl
      fun x _ hx => List.mem_cons_of_mem _ hx) (Fs.field_setInode Inode.ref (by rfl)) (fun j hj => ?_)
      rfl (fun _ _ => rfl) fun c hc => (ht.gone hc).held
    by_cases hji : j = i
    · rw [hji, Fs.inode_setInode_self]
    · rwa [Fs.inode_setInode_ne s _ hji]
  | iunlock i =>
    exact ht.moveRefs (.update (Fs.field_setInode Inode.type (by rfl))
      (Fs.field_setInode Inode.ents (by rfl)) (Fs.field_setInode Inode.nlink (by rfl)) rfl rfl rfl rfl
      fun x hx => absurd hpre.2.1 hx) (Fs.field_setInode Inode.ref (by rfl))
      (fun j hj => (Fs.field_setInode Inode.valid (by rfl) j).trans hj) rfl (fun _ _ => rfl)
      fun c hc => (ht.gone hc).held
  | iputKeep hlock hdying => exact ht.iputKeep hb hpre hlock hdying
  | iputDoom hlock hdying => exact ht.doom hb hpre hlock hdying
  | iputFree i => exact ht.iputFree hb hpre
  | iputDrop i => exact ht.iputDrop hb hpre.1
  | incLink i =>
    refine ht.incLink hb hpre hok ?_
    rw [Fs.after]
    split <;> rfl
  | decLink i => exact ht.decLink hb hpre
  | initNode i => exact ht.initNode hb hpre
  | writeDirent d slot de => exact ht.writeDirent hb hpre.2 hok
  | claim type hfree => exact ht.claim hb hpre hfree
  | closeInode _ htype => exact ht.takeRef rfl (hb.count_lt_file htype rfl) rfl rfl rfl rfl rfl rfl rfl
  | filealloc | fdalloc | closeShared | closeOther | takeFd =>
    exact ht.sameInodes rfl rfl rfl rfl rfl rfl rfl (fun _ _ => rfl) fun c hc => (ht.gone hc).held
  | setFile =>
    obtain ⟨_, _, _, _, _, _, hfresh, _, hgone⟩ := hpre
    exact ht.sameInodes rfl rfl rfl rfl rfl (by simp [Fs.after, Ledger.dropRef, hgone]) rfl
      (by simp [hfresh]) (by simp [hgone])
  | readCwd hcwd => exact ht.takeRef rfl (hb.count_lt_cwd hcwd hpre.2) rfl rfl rfl rfl rfl rfl rfl
  | setCwd i =>
    obtain ⟨_, _, _, _, _, hfresh, _, hgone⟩ := hpre
    cases i with
    | none => exact ht.sameInodes rfl rfl rfl rfl rfl rfl rfl (by simp [hfresh]) (by simp [hgone])
    | some j =>
      exact ht.sameInodes rfl rfl rfl rfl rfl (by simp [Fs.after, Ledger.dropRef, hgone]) rfl
        (by simp [hfresh]) (by simp [hgone])
  | read | unwritten | unclaimed | noFile | noFd | closedFd =>
    exact (Function.update_eq_self p ls).symm ▸ ht

end

end Act

variable {N : Nat}

theorem Fs.Boot.treeInv {s : Fs P} (h : s.Boot N) : TreeInv N s fun _ => .idle where
  root := h.root
  alloc {i} hi := by
    have hroot : i = ROOTINO := by
      by_contra hne
      simp [h.ref, hne] at hi
    simp [hroot, h.root]
  named := h.named
  fresh hq := by simp [Ledger.idle] at hq
  gone hq := by simp [Ledger.idle] at hq
  dots hd _ := by
    obtain ⟨parent, hshape, hparent⟩ := h.dots hd
    exact ⟨parent, hshape, fun _ => hparent⟩
  entered hd _ _ := h.entered hd
  links hi := by
    obtain ⟨hlinks, _, hle⟩ := h.links hi
    refine ⟨?_, hle⟩
    rw [hlinks, h.linkCount_eq hi]
    simp [owed, Ledger.idle]

/-- Runs in which every action is prudent. -/
abbrev PrudentReach [DecidableEq P] (N : Nat) (s₀ : Fs P) (c : FsPool P) : Prop :=
  Reach (fsKernel P N).step (Kernel.allows fun s _ a => s.prudent a) s₀.boot c

theorem tied_tree [DecidableEq P] {s₀ : Fs P} (hboot : s₀.Boot N) {c : FsPool P}
    (hc : PrudentReach N s₀ c) :
    Kernel.Tied (fsRules N) (· = .idle) (fun s ls => BaseInv N s ls ∧ TreeInv N s ls) c := by
  refine hc.invariant ⟨_, ⟨hboot.base, hboot.treeInv⟩, fun _ => rfl⟩ fun c e c' h hok hs => ?_
  refine Kernel.Tied.step _ ?_ c e c' h (fun _ call _ l hl => hl ▸ wp_syscall hboot.size call) hok hs
  intro s ls p a r s' hinv hpre hprudent hexec
  exact ⟨_, hinv.1.post hpre hexec, hinv.1.act hpre hexec, hinv.2.act hinv.1 hpre hprudent hexec⟩

omit [Fintype P] in
theorem exec_panic_noType [DecidableEq P] {s : Fs P} {p : P} {a : FsAct}
    (hpre : (fsRules N).pre a l) (h : Fs.exec p a s = .panic .ilockNoType) :
    ∃ i, a = .ilock i ∧ (s.inode i).type = .free := by
  cases Fs.exec_panic h with
  | called => exact absurd rfl hpre.2.1
  | @noType i hfree => exact ⟨i, rfl, hfree⟩

theorem TreeInv.tree {s : Fs P} {ls : P → Ledger} (ht : TreeInv N s ls) (hb : BaseInv N s ls)
    (hidle : ∀ p, ls p = .idle) : s.Tree N := by
  have hunfresh (d : Nat) : Unfresh ls d := fun p => by simp [hidle p, Ledger.idle]
  have hkept (d : Nat) : Kept ls d := fun p => by simp [hidle p, Ledger.idle]
  refine ⟨hb.nodes.range, hb.nodes.leaf, ht.root, ht.named, fun {d} hd => ?_, fun {d} hd => ?_⟩
  · obtain ⟨parent, hshape, hparent⟩ := ht.dots hd (hunfresh d)
    exact ⟨parent, hshape, hparent (hkept d)⟩
  · exact ht.entered hd (hunfresh d) (hkept d)

/-- In every prudent run no lookup comes upon a free inode: `ilock` does not panic for want of a type,
what `dirlookup` finds is allocated, and between calls so is every inode that a directory names. -/
theorem no_dangling_inodes [DecidableEq P] {N : Nat} {s₀ : Fs P} (hboot : s₀.Boot N) {c : FsPool P}
    (hc : PrudentReach N s₀ c) :
    (∀ e, (fsKernel P N).step c e ≠ .panic .ilockNoType) ∧
    (∀ p i, c.next p = some (.iget i) → (c.state.inode i).type ≠ .free) ∧
    ((∀ p, c.thread p = none) → ∀ d, ∀ e ∈ (c.state.inode d).ents, e.inum ≠ 0 →
      (c.state.inode e.inum).type ≠ .free) := by
  obtain ⟨ls, ⟨hb, ht⟩, hfit⟩ := tied_tree hboot hc
  refine ⟨fun e he => ?_, fun p i hp => (ht.lookup hb ((hfit p).pre hp)).1,
    fun hidle d e he hne => ?_⟩
  · obtain ⟨p, a, hnext, hexec⟩ := Kernel.step_panic he
    have hpre := (hfit p).pre hnext
    obtain ⟨i, rfl, hfree⟩ := exec_panic_noType hpre hexec
    exact ht.alloc (hb.ref_live hpre.2.1) hfree
  · have hidle' (p : P) : ls p = .idle := by
      have hp := hfit p
      rwa [hidle p] at hp
    exact (ht.tree hb hidle').entry_alloc he hne

/-- `mkdir("a")` and `unlink("a")` of one process are a prudent run. -/
theorem no_dangling_inodes_mkdirUnlink :
    ∃ c : FsPool (Fin 1), runEvents (fsKernel (Fin 1) 8).step (emptyImage (Fin 1) 8).boot
        (callFor 0 (.mkdir [97]) 28 ++ callFor 0 (.unlink [97]) 20) = .next c ∧
      ∀ e, (fsKernel (Fin 1) 8).step c e ≠ .panic .ilockNoType := by
  have hok : Along (fsKernel (Fin 1) 8).step (Kernel.allows fun s _ a => s.prudent a)
      (emptyImage (Fin 1) 8).boot (callFor 0 (.mkdir [97]) 28 ++ callFor 0 (.unlink [97]) 20) := by
    decide +kernel
  have hrun : (runEvents (fsKernel (Fin 1) 8).step (emptyImage (Fin 1) 8).boot
      (callFor 0 (.mkdir [97]) 28 ++ callFor 0 (.unlink [97]) 20)).holds fun _ => True := trivial
  obtain ⟨c, hc, _⟩ := Outcome.exists_of_holds hrun
  exact ⟨c, hc, (no_dangling_inodes (emptyImage_boot (by decide) (by decide))
    (Reach.of_runEvents .init _ hok hc)).1⟩

set_option maxRecDepth 2000 in
/-- A process in `/a/b` removes `/a/b` and then `/a`, which is free from then on: `chdir("..")` looks
it up. -/
theorem dangling_dotdot : runEvents (fsKernel (Fin 1) 8).step (emptyImage (Fin 1) 8).boot
      (callFor 0 (.mkdir [97]) 28 ++ callFor 0 (.mkdir [97, 47, 98]) 36 ++
        callFor 0 (.chdir [97, 47, 98]) 23 ++ callFor 0 (.unlink [47, 97, 47, 98]) 26 ++
        callFor 0 (.unlink [47, 97]) 20 ++ callFor 0 (.chdir dotdot) 9) = .panic .ilockNoType :=
  rfl

end Xv6
