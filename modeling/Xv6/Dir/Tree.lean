import Xv6.Dir.Deadlock

/-!
# The tree of directories while calls run

The invariant that is kept when a directory is only removed while nothing but the removing call
refers to it: link counts are the numbers of entries and of links under way, every directory has one
entry, and no directory that can still be looked up names a free inode.  This module has the
invariant, what a lookup finds, and the actions that only move references.
-/

namespace Xv6

open Function (update_of_ne update_self)

variable {P : Type}

theorem countP_putSlot_emptySlot {q : Dirent → Bool} (hq : ∀ e : Dirent, e.inum = 0 → q e = false)
    (ents : List Dirent) (de : Dirent) :
    (putSlot ents (emptySlot ents) de).countP q = ents.countP q + if q de then 1 else 0 := by
  rcases putSlot_emptySlot ents de with ⟨a, x, b, hents, hx, hput⟩ | hput
  · rw [hput, hents]
    simp [List.countP_append, List.countP_cons, hq x hx]
    omega
  · rw [hput, List.countP_append, List.countP_singleton]

theorem countP_putSlot_clear {q : Dirent → Bool} {ents : List Dirent} {slot : Nat} {de old : Dirent}
    (hq : q de = false) (hold : ents[slot]? = some old) :
    (putSlot ents slot de).countP q + (if q old then 1 else 0) = ents.countP q := by
  obtain ⟨hlt, rfl⟩ := List.getElem?_eq_some_iff.mp hold
  have hsplit : ents = ents.take slot ++ ents[slot] :: ents.drop (slot + 1) := by
    rw [List.cons_getElem_drop_succ, List.take_append_drop]
  have hset : putSlot ents slot de = ents.take slot ++ de :: ents.drop (slot + 1) := by
    rw [putSlot, if_pos hlt, List.set_eq_take_append_cons_drop, if_pos hlt]
  rw [hset]
  conv_rhs => rw [hsplit]
  simp only [List.countP_append, List.countP_cons, hq]
  simp [Nat.add_assoc]

namespace Fs

variable {N : Nat} {s s' : Fs P}

theorem inCount_congr (h : ∀ d, (s'.inode d).ents = (s.inode d).ents) (i : Nat) :
    s'.inCount N i = s.inCount N i := by
  simp only [inCount, h]

theorem subCount_congr (hents : ∀ d, (s'.inode d).ents = (s.inode d).ents)
    (htype : ∀ d, (s'.inode d).type = (s.inode d).type) (i : Nat) :
    s'.subCount i = s.subCount i := by
  simp only [subCount, hents, htype]

theorem inCount_setInode {d : Nat} (hd : d < N) (n : Inode P) (i : Nat) :
    (s.setInode d n).inCount N i + (s.inode d).ents.countP (fun e => e.ordinary ∧ e.inum = i) =
      s.inCount N i + n.ents.countP fun e => e.ordinary ∧ e.inum = i := by
  have hsum := sum_balance_on
    (f := fun j => (s.inode j).ents.countP fun e => e.ordinary ∧ e.inum = i)
    (g := fun j => ((s.setInode d n).inode j).ents.countP fun e => e.ordinary ∧ e.inum = i)
    (Finset.range N) (Finset.mem_range.mpr hd) (fun j hj => by rw [inode_setInode_ne s n hj])
  rw [inode_setInode_self] at hsum
  exact hsum

variable {i : Nat} (hempty : ∀ j, ¬ (s.view i).names j)
include hempty

theorem countP_empty (f : Dirent → Prop) [DecidablePred f] :
    (s.inode i).ents.countP (fun e => e.ordinary ∧ f e) = 0 := by
  rw [List.countP_eq_zero]
  intro e he
  simp only [decide_eq_true_eq, not_and]
  exact fun hord _ => hempty e.inum ⟨e, he, hord, rfl⟩

theorem names_iputFree (d j : Nat) : ((s.iputFree i).view d).names j ↔ (s.view d).names j := by
  by_cases hd : d = i
  · subst hd
    refine iff_of_false ?_ (hempty j)
    rintro ⟨e, he, _⟩
    simp [view, iputFree, Inode.free] at he
  · rw [view, view, iputFree, inode_setInode_ne s _ hd]

theorem inCount_iputFree (hi : i < N) (j : Nat) : (s.iputFree i).inCount N j = s.inCount N j := by
  have hbal := inCount_setInode (s := s) hi { (s.inode i).free with lock := none } j
  rwa [countP_empty hempty] at hbal

end Fs

/-- No call has the inode as a new one. -/
def Unfresh (ls : P → Ledger) (i : Nat) : Prop := ∀ p, (ls p).fresh ≠ some i

/-- No call is removing the directory. -/
def Kept (ls : P → Ledger) (i : Nat) : Prop := ∀ p, i ∉ (ls p).gone

variable [Fintype P]

/-- A new inode is known to the call that has claimed it only. -/
structure FreshInv (s : Fs P) (ls : P → Ledger) (p : P) (c : Nat) : Prop where
  notRoot : c ≠ ROOTINO
  type : (s.inode c).type = (ls p).ftype
  alloc : (s.inode c).type ≠ .free
  sole : ∀ q, (ls q).fresh = some c → q = p
  /-- An `iput` that has freed the inode may still have to decrement. -/
  ref : (s.inode c).ref = (ls p).refs.count c + drops ls c
  unnamed : ∀ d, ∀ e ∈ (s.inode d).ents, e.inum = c → d = c ∨ ¬ Kept ls d
  nlink : (ls p).pend = 0 → (s.inode c).nlink = 0
  ents : (s.inode c).ents = [] ∨ (s.inode c).ents = [⟨c, dot⟩] ∨
    ∃ d v, (s.inode c).ents = [⟨c, dot⟩, ⟨d, dotdot⟩] ∧ (d, v) ∈ (ls p).held ∧ d ≠ c

/-- An inode that is going to be freed has no entry, names nothing and is known to one call only. -/
structure GoneInv (N : Nat) (s : Fs P) (ls : P → Ledger) (p : P) (c : Nat) : Prop where
  notRoot : c ≠ ROOTINO
  alloc : (s.inode c).type ≠ .free
  held : c ∈ (ls p).refs
  ref : (s.inode c).ref = 1
  valid : (s.inode c).valid = true
  unnamed : s.inCount N c = 0
  empty : ∀ i, ¬ (s.view c).names i
  old : Unfresh ls c

/-- Entries for the inode, entries of its subdirectories, and links under way. -/
def owed (N : Nat) (s : Fs P) (ls : P → Ledger) (i : Nat) : Nat :=
  s.inCount N i + s.subCount i + (if i = ROOTINO then 1 else 0) + ∑ p, (ls p).pend.count i

structure TreeInv (N : Nat) (s : Fs P) (ls : P → Ledger) : Prop where
  root : (s.inode ROOTINO).type = .dir
  alloc : ∀ {i}, drops ls i < (s.inode i).ref → (s.inode i).type ≠ .free
  named : ∀ {d i}, (s.view d).names i → (s.inode i).type ≠ .free
  fresh : ∀ {p c}, (ls p).fresh = some c → FreshInv s ls p c
  gone : ∀ {p c}, c ∈ (ls p).gone → GoneInv N s ls p c
  dots : ∀ {d}, (s.inode d).type = .dir → Unfresh ls d → ∃ parent, s.shaped d parent ∧
    (Kept ls d → if d = ROOTINO then parent = ROOTINO else (s.view parent).names d)
  entered : ∀ {d}, (s.inode d).type = .dir → Unfresh ls d → Kept ls d →
    s.inCount N d = if d = ROOTINO then 0 else 1
  links : ∀ {i}, (s.inode i).type ≠ .free →
    (s.inode i).nlink = owed N s ls i ∧ (s.inode i).nlink ≤ 32767

section Lookup

variable {N : Nat} {s s' : Fs P} {ls : P → Ledger} {p q : P} {c d i : Nat}

section

variable (hb : BaseInv N s ls) (h : (s.view d).names i)
include hb h

theorem BaseInv.names_dir : (s.inode d).type = .dir := by
  by_contra hdir
  obtain ⟨e, he, _⟩ := h
  simp [Fs.view, hb.nodes.leaf hdir] at he

theorem BaseInv.names_lt : d < N := by
  have hdir := hb.names_dir h
  exact (hb.nodes.range (by simp [hdir])).2

theorem BaseInv.inCount_pos : 0 < s.inCount N i :=
  Fs.inCount_pos (hb.names_lt h) h

end

variable [DecidableEq P]

section

variable (ht : TreeInv N s ls) (hb : BaseInv N s ls)
include ht hb

theorem TreeInv.fresh_owner (hq : (ls q).fresh = some c) (hp : c ∈ (ls p).refs) : p = q := by
  by_contra hne
  have hcount : 0 < (ls p).countRef (s.cwd p) c := Nat.add_pos_left (Multiset.count_pos.mpr hp) _
  have hle := hb.refs_le_two hne c
  have href := (ht.fresh hq).ref
  omega

theorem TreeInv.gone_owner (hq : c ∈ (ls q).gone) (hp : c ∈ (ls p).refs) : p = q :=
  hb.sole (ht.gone hq).held (ht.gone hq).ref hp

theorem TreeInv.kept_of_ref (hgone : (ls p).gone = ∅) (hp : c ∈ (ls p).refs) : Kept ls c := by
  intro q hq
  obtain rfl := ht.gone_owner hb hq hp
  simp [hgone] at hq

/-- What a lookup may find: an allocated inode that is not being removed, and a new inode only if it
is the caller's own. -/
theorem TreeInv.lookup (hpre : (fsRules N).pre (.iget i) (ls p)) :
    (s.inode i).type ≠ .free ∧ Kept ls i ∧ ∀ q, (ls q).fresh = some i → q = p := by
  obtain ⟨_, hgone, rfl | ⟨⟨d, v⟩, hx, e, he, rfl, hne⟩ | hfresh⟩ := hpre
  · refine ⟨by simp [ht.root], fun q hq => (ht.gone hq).notRoot rfl, fun q hq => ?_⟩
    exact absurd rfl (ht.fresh hq).notRoot
  · -- The entry is one of a directory that the caller has locked.
    obtain rfl := hb.locks.view hx
    have hdp := (hb.own p).held hx
    have hkept := ht.kept_of_ref hb hgone hdp
    have howner (q : P) (hq : (ls q).fresh = some e.inum) : q = p := by
      rcases (ht.fresh hq).unnamed d e he rfl with rfl | hnot
      · exact (ht.fresh_owner hb hq hdp).symm
      · exact absurd hkept hnot
    by_cases hfresh : ∃ q, (ls q).fresh = some d
    · obtain ⟨q, hq⟩ := hfresh
      obtain rfl := ht.fresh_owner hb hq hdp
      rcases (ht.fresh hq).ents with hents | hents | ⟨dd, v, hents, hv, _⟩
      · simp [Fs.view, hents] at he
      · obtain rfl : e = ⟨d, dot⟩ := by simpa [Fs.view, hents] using he
        exact ⟨(ht.fresh hq).alloc, hkept, howner⟩
      · have hcase : e = ⟨d, dot⟩ ∨ e = ⟨dd, dotdot⟩ := by simpa [Fs.view, hents] using he
        rcases hcase with rfl | rfl
        · exact ⟨(ht.fresh hq).alloc, hkept, howner⟩
        · exact ⟨hb.locks.alloc hb.nodes hv, ht.kept_of_ref hb hgone ((hb.own p).held hv), howner⟩
    · have hdir : (s.inode d).type = .dir := by
        by_contra hdir
        simp [Fs.view, hb.nodes.leaf hdir] at he
      have hunfresh : Unfresh ls d := fun q hq => hfresh ⟨q, hq⟩
      obtain ⟨parent, hshape, hparent⟩ := ht.dots hdir hunfresh
      rcases hshape.entry he hne with rfl | rfl | hord
      · exact ⟨by simp [hdir], hkept, howner⟩
      · have hparent := hparent hkept
        split at hparent
        · subst hparent
          exact ⟨by simp [ht.root], fun q hq => (ht.gone hq).notRoot rfl, howner⟩
        · exact ⟨by simp [hb.names_dir hparent], fun q hq => (ht.gone hq).empty d hparent, howner⟩
      · have hnames : (s.view d).names e.inum := ⟨e, he, hord, rfl⟩
        refine ⟨ht.named hnames, fun q hq => ?_, howner⟩
        have hpos := hb.inCount_pos hnames
        have hzero := (ht.gone hq).unnamed
        omega
  · exact ⟨(ht.fresh hfresh).alloc, fun q hq => (ht.gone hq).old p hfresh, (ht.fresh hfresh).sole⟩

end

end Lookup

/-- Nothing changes but references, locks and what is read. -/
structure SameLinks (s s' : Fs P) (ls ls' : P → Ledger) : Prop where
  type : ∀ i, (s'.inode i).type = (s.inode i).type
  ents : ∀ i, (s'.inode i).ents = (s.inode i).ents
  nlink : ∀ i, (s'.inode i).nlink = (s.inode i).nlink
  fresh : ∀ q, (ls' q).fresh = (ls q).fresh
  ftype : ∀ q, (ls' q).ftype = (ls q).ftype
  pend : ∀ q, (ls' q).pend = (ls q).pend
  gone : ∀ q, (ls' q).gone = (ls q).gone
  held : ∀ q x, (ls q).fresh ≠ none → x ∈ (ls q).held → x ∈ (ls' q).held

/-- The links may change, too, and inodes may become such that are to be freed. -/
structure SameNames (s s' : Fs P) (ls ls' : P → Ledger) : Prop where
  type : ∀ i, (s'.inode i).type = (s.inode i).type
  ents : ∀ i, (s'.inode i).ents = (s.inode i).ents
  fresh : ∀ q, (ls' q).fresh = (ls q).fresh
  ftype : ∀ q, (ls' q).ftype = (ls q).ftype
  gone : ∀ q, (ls q).gone ⊆ (ls' q).gone
  held : ∀ q x, (ls q).fresh ≠ none → x ∈ (ls q).held → x ∈ (ls' q).held

section References

variable {N : Nat} {s s' : Fs P} {ls ls' : P → Ledger} {p : P} {i : Nat}

omit [Fintype P] in
theorem SameNames.view (h : SameNames s s' ls ls') (d : Nat) : s'.view d = s.view d := by
  simp only [Fs.view, h.type, h.ents]

omit [Fintype P] in
theorem SameNames.kept (h : SameNames s s' ls ls') {d : Nat} (hd : Kept ls' d) : Kept ls d :=
  fun q hq => hd q (h.gone q hq)

omit [Fintype P] in
theorem SameNames.unfresh (h : SameNames s s' ls ls') (d : Nat) : Unfresh ls' d ↔ Unfresh ls d := by
  simp only [Unfresh, h.fresh]

theorem TreeInv.sameNames (ht : TreeInv N s ls) (h : SameNames s s' ls ls')
    (halloc : ∀ i, drops ls' i < (s'.inode i).ref → (s.inode i).type ≠ .free)
    (hfresh : ∀ q c, (ls q).fresh = some c → (s'.inode c).ref = (ls' q).refs.count c + drops ls' c ∧
      ((ls' q).pend = 0 → (s'.inode c).nlink = 0))
    (hgone : ∀ q c, c ∈ (ls' q).gone → GoneInv N s ls q c ∧
      c ∈ (ls' q).refs ∧ (s'.inode c).ref = 1 ∧ (s'.inode c).valid = true)
    (hlinks : ∀ i, (s.inode i).type ≠ .free →
      (s'.inode i).nlink = owed N s' ls' i ∧ (s'.inode i).nlink ≤ 32767) : TreeInv N s' ls' where
  root := (h.type _).trans ht.root
  alloc {i} hi := by
    rw [h.type]
    exact halloc i hi
  named {d i} hd := by
    rw [h.view] at hd
    rw [h.type]
    exact ht.named hd
  fresh {q c} hq := by
    rw [h.fresh] at hq
    have hf := ht.fresh hq
    obtain ⟨href, hnlink⟩ := hfresh q c hq
    refine ⟨hf.notRoot, ?_, ?_, fun r hr => ?_, href, fun d e he hec => ?_, hnlink, ?_⟩
    · rw [h.type, h.ftype, hf.type]
    · rw [h.type]
      exact hf.alloc
    · exact hf.sole r (h.fresh r ▸ hr)
    · exact (hf.unnamed d e (h.ents d ▸ he) hec).imp_right (mt h.kept)
    · rw [h.ents]
      rcases hf.ents with hents | hents | ⟨d, v, hents, hv, hne⟩
      · exact .inl hents
      · exact .inr (.inl hents)
      · exact .inr (.inr ⟨d, v, hents, h.held q _ (by simp [hq]) hv, hne⟩)
  gone {q c} hq := by
    obtain ⟨hg, hrefs, href, hvalid⟩ := hgone q c hq
    refine ⟨hg.notRoot, ?_, hrefs, href, hvalid, ?_, fun i => ?_, (h.unfresh c).mpr hg.old⟩
    · rw [h.type]
      exact hg.alloc
    · rw [Fs.inCount_congr h.ents, hg.unnamed]
    · rw [h.view]
      exact hg.empty i
  dots {d} hdir hd := by
    rw [h.type] at hdir
    rw [h.unfresh] at hd
    obtain ⟨parent, hshape, hparent⟩ := ht.dots hdir hd
    refine ⟨parent, ?_, fun hkept => ?_⟩
    · simpa only [Fs.shaped, h.ents] using hshape
    · simpa only [h.view] using hparent (h.kept hkept)
  entered {d} hdir hd hkept := by
    rw [Fs.inCount_congr h.ents]
    exact ht.entered (h.type d ▸ hdir) ((h.unfresh d).mp hd) (h.kept hkept)
  links {i} hi := hlinks i (h.type i ▸ hi)

theorem TreeInv.sameLinks (ht : TreeInv N s ls) (h : SameLinks s s' ls ls')
    (halloc : ∀ i, drops ls' i < (s'.inode i).ref → (s.inode i).type ≠ .free)
    (hfresh : ∀ q c, (ls q).fresh = some c → (s'.inode c).ref = (ls' q).refs.count c + drops ls' c)
    (hgone : ∀ q c, c ∈ (ls q).gone →
      c ∈ (ls' q).refs ∧ (s'.inode c).ref = 1 ∧ (s'.inode c).valid = true) : TreeInv N s' ls' := by
  refine ht.sameNames ⟨h.type, h.ents, h.fresh, h.ftype, fun q => (h.gone q).ge, h.held⟩ halloc
    (fun q c hq => ?_) (fun q c hq => ?_) fun i hi => ?_
  · rw [h.nlink, h.pend]
    exact ⟨hfresh q c hq, (ht.fresh hq).nlink⟩
  · rw [h.gone] at hq
    exact ⟨ht.gone hq, hgone q c hq⟩
  · rw [h.nlink]
    simp only [owed, Fs.inCount_congr h.ents, Fs.subCount_congr h.ents h.type, h.pend]
    exact ht.links hi

variable [DecidableEq P]

omit [Fintype P] in
theorem SameLinks.update {l : Ledger} (htype : ∀ i, (s'.inode i).type = (s.inode i).type)
    (hents : ∀ i, (s'.inode i).ents = (s.inode i).ents)
    (hnlink : ∀ i, (s'.inode i).nlink = (s.inode i).nlink) (hfresh : l.fresh = (ls p).fresh)
    (hftype : l.ftype = (ls p).ftype) (hpend : l.pend = (ls p).pend) (hgone : l.gone = (ls p).gone)
    (hheld : ∀ x, (ls p).fresh ≠ none → x ∈ (ls p).held → x ∈ l.held) :
    SameLinks s s' ls (Function.update ls p l) where
  type := htype
  ents := hents
  nlink := hnlink
  fresh := Kernel.field_update Ledger.fresh hfresh
  ftype := Kernel.field_update Ledger.ftype hftype
  pend := Kernel.field_update Ledger.pend hpend
  gone := Kernel.field_update Ledger.gone hgone
  held q x := by
    by_cases hq : q = p
    · subst hq
      rw [update_self]
      exact hheld x
    · rw [update_of_ne hq]
      exact fun _ hx => hx

theorem TreeInv.moveRefs (ht : TreeInv N s ls) {l : Ledger}
    (h : SameLinks s s' ls (Function.update ls p l)) (href : ∀ i, (s'.inode i).ref = (s.inode i).ref)
    (hvalid : ∀ i, (s.inode i).valid = true → (s'.inode i).valid = true) (hput : l.put = (ls p).put)
    (hfresh : ∀ c, (ls p).fresh = some c → l.refs.count c = (ls p).refs.count c)
    (hgone : ∀ c ∈ (ls p).gone, c ∈ l.refs) : TreeInv N s' (Function.update ls p l) := by
  refine ht.sameLinks h (fun i hi => ?_) (fun q c hq => ?_) fun q c hq => ?_
  · rw [href, drops_congr hput] at hi
    exact ht.alloc hi
  · rw [href, (ht.fresh hq).ref, drops_congr hput]
    by_cases hqp : q = p
    · subst hqp
      rw [update_self, hfresh c hq]
    · rw [update_of_ne hqp]
  · rw [href, (ht.gone hq).ref]
    refine ⟨?_, rfl, hvalid c (ht.gone hq).valid⟩
    by_cases hqp : q = p
    · subst hqp
      rw [update_self]
      exact hgone c hq
    · rw [update_of_ne hqp]
      exact (ht.gone hq).held

theorem TreeInv.addRef (ht : TreeInv N s ls) {n : Inode P} (hi : (s.inode i).type ≠ .free)
    (hkept : Kept ls i) (howner : ∀ q, (ls q).fresh = some i → q = p)
    (hn : n.type = (s.inode i).type ∧ n.ents = (s.inode i).ents ∧ n.nlink = (s.inode i).nlink)
    (href : n.ref = (s.inode i).ref + 1) : TreeInv N (s.setInode i n) (Function.update ls p ((ls p).addRef i)) := by
  have hlinks : SameLinks s (s.setInode i n) ls (Function.update ls p ((ls p).addRef i)) :=
    .update (Fs.field_setInode Inode.type hn.1) (Fs.field_setInode Inode.ents hn.2.1)
      (Fs.field_setInode Inode.nlink hn.2.2) rfl rfl rfl rfl fun _ _ hx => hx
  have hother {j : Nat} (hj : j ≠ i) : (s.setInode i n).inode j = s.inode j :=
    Fs.inode_setInode_ne s n hj
  have hdrops : ∀ j, drops (Function.update ls p ((ls p).addRef i)) j = drops ls j := drops_congr rfl
  refine ht.sameLinks hlinks (fun j hj => ?_) (fun q c hq => ?_) fun q c hq => ?_
  · by_cases hji : j = i
    · rwa [hji]
    · rw [hother hji, hdrops] at hj
      exact ht.alloc hj
  · have hcount := (ht.fresh hq).ref
    rw [hdrops]
    by_cases hci : c = i
    · subst hci
      obtain rfl := howner q hq
      simp only [Fs.inode_setInode_self, href, hcount, update_self, Ledger.refs_addRef,
        Multiset.count_cons_self]
      omega
    · rw [hother hci, hcount]
      by_cases hqp : q = p
      · subst hqp
        simp [Multiset.count_cons_of_ne hci]
      · rw [update_of_ne hqp]
  · have hci : c ≠ i := by
      rintro rfl
      exact hkept q hq
    rw [hother hci, (ht.gone hq).ref]
    refine ⟨?_, rfl, (ht.gone hq).valid⟩
    by_cases hqp : q = p
    · subst hqp
      simp [(ht.gone hq).held]
    · rw [update_of_ne hqp]
      exact (ht.gone hq).held

omit [DecidableEq P] in
theorem TreeInv.settled (ht : TreeInv N s ls)
    (h : ∀ q, (ls q).refs.count i + drops ls i < (s.inode i).ref) :
    Unfresh ls i ∧ Kept ls i := by
  refine ⟨fun q hq => ?_, fun q hq => ?_⟩
  · have hlt := h q
    rw [(ht.fresh hq).ref] at hlt
    omega
  · have hlt := h q
    have hpos := Multiset.count_pos.mpr (ht.gone hq).held
    rw [(ht.gone hq).ref] at hlt
    omega

theorem BaseInv.count_lt_cwd (hb : BaseInv N s ls) (hcwd : s.cwd p = some i)
    (hfalse : (ls p).cwd = false) (q : P) : (ls q).refs.count i + drops ls i < (s.inode i).ref := by
  have hp : (ls p).countRef (s.cwd p) i = (ls p).refs.count i + 1 := by
    simp [Ledger.countRef, hcwd, hfalse]
  by_cases hqp : p = q
  · subst hqp
    have hle := le_sum_univ (fun q => (ls q).countRef (s.cwd q) i) p
    have hrefs := hb.refs i
    omega
  · have hle := hb.refs_le_two hqp i
    omega

omit [DecidableEq P] in
theorem BaseInv.count_lt_file (hb : BaseInv N s ls) {f : FileId} (htype : (s.file f).type = .inode)
    (hip : (s.file f).ip = i) (q : P) : (ls q).refs.count i + drops ls i < (s.inode i).ref := by
  have hfile := fileRefs_pos htype
  have hle := hb.refs_le q i
  rw [hip] at hfile
  omega

section

variable (ht : TreeInv N s ls)
include ht

omit [DecidableEq P] in
theorem TreeInv.unlinked (hi : (s.inode i).type ≠ .free) (hz : (s.inode i).nlink = 0) :
    i ≠ ROOTINO ∧ s.inCount N i = 0 ∧ s.subCount i = 0 ∧ ∀ q, i ∉ (ls q).pend := by
  have howed : owed N s ls i = 0 := by
    have hlinks := (ht.links hi).1
    omega
  simp only [owed, Nat.add_eq_zero_iff, Finset.sum_eq_zero_iff, Finset.mem_univ, true_imp_iff,
    Multiset.count_eq_zero] at howed
  obtain ⟨⟨⟨hin, hsub⟩, hroot⟩, hpend⟩ := howed
  exact ⟨fun h => by simp [h] at hroot, hin, hsub, hpend⟩

section

variable (hb : BaseInv N s ls) (hpre : (fsRules N).pre (.iputTest i) (ls p))
  (hlock : (s.inode i).lock = none)
include hb hpre hlock

theorem TreeInv.unfresh_of_iputTest : Unfresh ls i := by
  intro q hq
  obtain ⟨_, hi, hheld, _⟩ := hpre
  obtain rfl := ht.fresh_owner hb hq hi
  obtain ⟨v, hv⟩ := hheld hq
  exact hb.locks.unheld hlock p v hv

omit hlock in
theorem TreeInv.gone_dying (hgone : i ∈ (ls p).gone) : (s.inode i).dying = true := by
  have hg := ht.gone hgone
  have hpend (q : P) : (ls q).pend.count i = 0 := by
    rw [Multiset.count_eq_zero]
    intro hq
    obtain rfl := ht.gone_owner hb hgone ((hb.own q).pend hq)
    exact (hpre.2.2.2 hq).2 hgone
  have hsub : s.subCount i = 0 := Fs.countP_empty hg.empty _
  have hz : (s.inode i).nlink = 0 := by
    rw [(ht.links hg.alloc).1, owed, hg.unnamed, hsub, if_neg hg.notRoot]
    simp [hpend]
  simp [Inode.dying, hg.valid, hz, hg.ref]

/-- An inode that is not to be freed: its reference is given up. -/
theorem TreeInv.iputKeep (hdying : (s.inode i).dying = false) :
    TreeInv N s (Function.update ls p { (ls p).dropRef i with put := .drop i }) := by
  obtain ⟨hput, hi, -⟩ := id hpre
  have hunfresh := ht.unfresh_of_iputTest hb hpre hlock
  have hkept : Kept ls i := by
    intro q hq
    obtain rfl := ht.gone_owner hb hq hi
    simp [ht.gone_dying hb hpre hq] at hdying
  have hdrops (j : Nat) : drops (Function.update ls p { (ls p).dropRef i with put := .drop i }) j =
      drops ls j + if i = j then 1 else 0 := drops_giveUp (Put.ne_drop hput) rfl j
  have hlinks : SameLinks s s ls (Function.update ls p { (ls p).dropRef i with put := .drop i }) :=
    .update (fun _ => rfl) (fun _ => rfl) (fun _ => rfl) rfl rfl rfl
      (Finset.erase_eq_of_notMem (hkept p)) fun _ _ hx => hx
  refine ht.sameLinks hlinks (fun j hj => ?_) (fun q c hq => ?_) fun q c hq => ?_
  · rw [hdrops] at hj
    exact ht.alloc (Nat.lt_of_le_of_lt (Nat.le_add_right _ _) hj)
  · have hci : c ≠ i := by
      rintro rfl
      exact hunfresh q hq
    rw [hdrops, if_neg hci.symm, (ht.fresh hq).ref]
    by_cases hqp : q = p
    · subst hqp
      simp [Ledger.dropRef, Multiset.count_erase_of_ne hci]
    · rw [update_of_ne hqp, Nat.add_zero]
  · have hci : c ≠ i := by
      rintro rfl
      exact hkept q hq
    refine ⟨?_, (ht.gone hq).ref, (ht.gone hq).valid⟩
    by_cases hqp : q = p
    · subst hqp
      rw [update_self]
      exact (Multiset.mem_erase_of_ne hci).mpr (ht.gone hq).held
    · rw [update_of_ne hqp]
      exact (ht.gone hq).held

end

omit [DecidableEq P] in
theorem TreeInv.dying_empty (hb : BaseInv N s ls) (hunfresh : Unfresh ls i)
    (hi : (s.inode i).type ≠ .free) (hz : (s.inode i).nlink = 0) (j : Nat) :
    ¬ (s.view i).names j := by
  intro hnames
  have hdir := hb.names_dir hnames
  obtain ⟨hroot, hin, _⟩ := ht.unlinked hi hz
  by_cases hkept : Kept ls i
  · have hentered := ht.entered hdir hunfresh hkept
    rw [if_neg hroot] at hentered
    omega
  · simp only [Kept, not_forall, not_not] at hkept
    obtain ⟨q, hq⟩ := hkept
    exact (ht.gone hq).empty j hnames

/-- An inode that is to be freed is locked for that. -/
theorem TreeInv.doom (hb : BaseInv N s ls) (hpre : (fsRules N).pre (.iputTest i) (ls p))
    (hlock : (s.inode i).lock = none) (hdying : (s.inode i).dying = true) :
    TreeInv N (s.setInode i { s.inode i with lock := some p })
      (Function.update ls p { ls p with gone := insert i (ls p).gone, put := .free i }) := by
  obtain ⟨hput, hi, -⟩ := id hpre
  have halloc := ht.alloc (hb.ref_live hi)
  have hunfresh := ht.unfresh_of_iputTest hb hpre hlock
  simp only [Inode.dying, Bool.and_eq_true, beq_iff_eq] at hdying
  obtain ⟨⟨hvalid, hz⟩, hone⟩ := hdying
  obtain ⟨hroot, hin, _, _⟩ := ht.unlinked halloc hz
  have hempty := ht.dying_empty hb hunfresh halloc hz
  have hnew : GoneInv N s ls p i := ⟨hroot, halloc, hi, hone, hvalid, hin, hempty, hunfresh⟩
  set s' := s.setInode i { s.inode i with lock := some p } with hs'
  set ls' := Function.update ls p { ls p with gone := insert i (ls p).gone, put := .free i } with hls'
  have hkeep {β : Type} (f : Inode P → β) (hf : f { s.inode i with lock := some p } = f (s.inode i)) :
      ∀ j, f (s'.inode j) = f (s.inode j) := Fs.field_setInode f hf
  have hrefs : ∀ q, (ls' q).refs = (ls q).refs := Kernel.field_update Ledger.refs (by rfl)
  have hpend : ∀ q, (ls' q).pend = (ls q).pend := Kernel.field_update Ledger.pend (by rfl)
  have hdrops : ∀ j, drops ls' j = drops ls j := drops_other (Put.ne_drop hput) (by simp)
  have hgone {q : P} {c : Nat} : c ∈ (ls' q).gone ↔ c ∈ (ls q).gone ∨ q = p ∧ c = i := by
    by_cases hqp : q = p
    · subst hqp
      simp [hls', or_comm]
    · simp [hls', hqp]
  have hsame : SameNames s s' ls ls' := by
    refine ⟨hkeep Inode.type rfl, hkeep Inode.ents rfl, Kernel.field_update Ledger.fresh (by rfl),
      Kernel.field_update Ledger.ftype (by rfl), fun q c hc => hgone.mpr (.inl hc), fun q x _ hx => ?_⟩
    rwa [show (ls' q).held = (ls q).held from Kernel.field_update Ledger.held (by rfl) q]
  refine ht.sameNames hsame (fun j hj => ?_) (fun q c hq => ?_) (fun q c hq => ?_) fun j hj => ?_
  · rw [hdrops, hkeep Inode.ref rfl] at hj
    exact ht.alloc hj
  · rw [hrefs, hdrops, hpend, hkeep Inode.ref rfl, hkeep Inode.nlink rfl]
    exact ⟨(ht.fresh hq).ref, (ht.fresh hq).nlink⟩
  · rw [hrefs, hkeep Inode.ref rfl, hkeep Inode.valid rfl]
    have hg : GoneInv N s ls q c := by
      rcases hgone.mp hq with hc | ⟨rfl, rfl⟩
      · exact ht.gone hc
      · exact hnew
    exact ⟨hg, hg.held, hg.ref, hg.valid⟩
  · rw [hkeep Inode.nlink rfl]
    simp only [owed, Fs.inCount_congr hsame.ents, Fs.subCount_congr hsame.ents hsame.type, hpend]
    exact ht.links hj

theorem TreeInv.iputFree (hb : BaseInv N s ls) (hpre : (fsRules N).pre (.iputFree i) (ls p)) :
    TreeInv N (s.iputFree i) (Function.update ls p { (ls p).dropRef i with put := .drop i }) := by
  obtain ⟨hput, hi, hmem, -⟩ := id hpre
  obtain ⟨hroot, halloc, -, hone, -, hin, hempty, hunfresh⟩ := ht.gone hmem
  set s' := s.iputFree i with hs'
  set ls' := Function.update ls p { (ls p).dropRef i with put := .drop i } with hls'
  have hother {j : Nat} (hj : j ≠ i) : s'.inode j = s.inode j := Fs.inode_setInode_ne s _ hj
  have hself : s'.inode i = { (s.inode i).free with lock := none } :=
    Fs.inode_setInode_self s i _
  have htype {j : Nat} (hj : (s'.inode j).type ≠ .free) : j ≠ i := by
    rintro rfl
    exact hj (by rw [hself]; rfl)
  have hnames : ∀ d j, (s'.view d).names j ↔ (s.view d).names j := Fs.names_iputFree hempty
  have hunnamed {d j : Nat} (h : (s.view d).names j) : j ≠ i := by
    rintro rfl
    have hpos := hb.inCount_pos h
    omega
  have hinCount : ∀ j, s'.inCount N j = s.inCount N j :=
    Fs.inCount_iputFree hempty (hb.nodes.range halloc).2
  have hsubCount {j : Nat} (hj : j ≠ i) : s'.subCount j = s.subCount j := by
    rw [Fs.subCount, Fs.subCount, hother hj]
    refine List.countP_congr fun e he => ?_
    simp only [decide_eq_true_eq, and_congr_right_iff]
    intro hord
    rw [hother (hunnamed ⟨e, he, hord, rfl⟩)]
  have hfresh (q : P) : (ls' q).fresh = (ls q).fresh := Kernel.field_update Ledger.fresh (by rfl) q
  have hdrops : ∀ j, drops ls' j = drops ls j + if i = j then 1 else 0 :=
    drops_giveUp (by simp [hput, FsAct.put]) rfl
  have hgone {q : P} {c : Nat} : c ∈ (ls' q).gone ↔ c ∈ (ls q).gone ∧ c ≠ i := by
    by_cases hq : q = p
    · subst hq
      simp [hls', Ledger.dropRef, and_comm]
    · rw [hls', update_of_ne hq]
      refine ⟨fun hc => ⟨hc, ?_⟩, fun hc => hc.1⟩
      rintro rfl
      exact hq (ht.gone_owner hb hc hi).symm
  have hkept {d : Nat} (hd : d ≠ i) : Kept ls' d ↔ Kept ls d := by
    simp [Kept, hgone, hd]
  have hpend (q : P) : (ls' q).pend = (ls q).pend := Kernel.field_update Ledger.pend (by rfl) q
  have hheld (q : P) : (ls' q).held = (ls q).held := Kernel.field_update Ledger.held (by rfl) q
  have hrefs {q : P} {c : Nat} (hc : c ≠ i) : (ls' q).refs.count c = (ls q).refs.count c := by
    by_cases hq : q = p
    · rw [hq, hls', update_self]
      exact Multiset.count_erase_of_ne hc _
    · rw [hls', update_of_ne hq]
  have hftype (q : P) : (ls' q).ftype = (ls q).ftype := Kernel.field_update Ledger.ftype (by rfl) q
  refine ⟨?_, fun {j} hj => ?_, fun {d j} h => ?_, fun {q c} hq => ?_, fun {q c} hq => ?_,
    fun {d} hd hu => ?_, fun {d} hd hu hk => ?_, fun {j} hj => ?_⟩
  · rw [hother hroot.symm]
    exact ht.root
  · have hji : j ≠ i := by
      rintro rfl
      rw [hdrops, hself, if_pos rfl] at hj
      exact absurd (hj.trans_eq hone) (by omega)
    rw [hdrops, if_neg hji.symm, hother hji] at hj
    rw [hother hji]
    exact ht.alloc hj
  · rw [hnames] at h
    rw [hother (hunnamed h)]
    exact ht.named h
  · rw [hfresh] at hq
    have hf := ht.fresh hq
    have hci : c ≠ i := by
      rintro rfl
      exact hunfresh q hq
    refine ⟨hf.notRoot, ?_, ?_, fun r hr => hf.sole r (hfresh r ▸ hr), ?_, fun d e he hec => ?_,
      fun hp => ?_, ?_⟩
    · rw [hother hci, hftype, hf.type]
    · rw [hother hci]
      exact hf.alloc
    · rw [hother hci, hrefs hci, hf.ref, hdrops, if_neg hci.symm, Nat.add_zero]
    · have hdi : d ≠ i := by
        rintro rfl
        simp [hself, Inode.free] at he
      rw [hother hdi] at he
      rw [hkept hdi]
      exact hf.unnamed d e he hec
    · rw [hother hci]
      exact hf.nlink (hpend q ▸ hp)
    · rw [hother hci, hheld]
      exact hf.ents
  · obtain ⟨hq, hci⟩ := hgone.mp hq
    have hg := ht.gone hq
    refine ⟨hg.notRoot, ?_, ?_, ?_, ?_, ?_, fun j => ?_, fun r => hfresh r ▸ hg.old r⟩
    · rw [hother hci]
      exact hg.alloc
    · rw [← Multiset.count_pos, hrefs hci, Multiset.count_pos]
      exact hg.held
    · rw [hother hci, hg.ref]
    · rw [hother hci, hg.valid]
    · rw [hinCount, hg.unnamed]
    · rw [hnames]
      exact hg.empty j
  · have hdi := htype (j := d) (by simp [hd])
    rw [hother hdi] at hd
    obtain ⟨parent, hshape, hparent⟩ := ht.dots hd fun q => hfresh q ▸ hu q
    refine ⟨parent, by simpa only [Fs.shaped, hother hdi] using hshape, fun hk => ?_⟩
    simpa only [hnames] using hparent ((hkept hdi).mp hk)
  · have hdi := htype (j := d) (by simp [hd])
    rw [hother hdi] at hd
    rw [hinCount]
    exact ht.entered hd (fun q => hfresh q ▸ hu q) ((hkept hdi).mp hk)
  · have hji := htype hj
    rw [hother hji] at hj ⊢
    have howed : owed N s' ls' j = owed N s ls j := by
      simp only [owed, hinCount, hsubCount hji, hpend]
    rw [howed]
    exact ht.links hj

theorem TreeInv.iputDrop (hb : BaseInv N s ls) (hput : (ls p).put = .drop i) :
    TreeInv N (s.iputDrop i) (Function.update ls p { ls p with put := .none }) := by
  have hdrops := drops_given hput (l := { ls p with put := .none }) rfl
  have hlinks : SameLinks s (s.iputDrop i) ls (Function.update ls p { ls p with put := .none }) :=
    .update (Fs.field_setInode Inode.type (by rfl)) (Fs.field_setInode Inode.ents (by rfl))
      (Fs.field_setInode Inode.nlink (by rfl)) rfl rfl rfl rfl fun _ _ hx => hx
  have href (j : Nat) : ((s.iputDrop i).inode j).ref = (s.inode j).ref - if i = j then 1 else 0 := by
    by_cases hj : j = i
    · simp [Fs.iputDrop, hj]
    · simp [Fs.iputDrop, hj, Ne.symm hj]
  have hrefs : ∀ q, (Function.update ls p { ls p with put := .none } q).refs = (ls q).refs :=
    Kernel.field_update Ledger.refs (by rfl)
  refine ht.sameLinks hlinks (fun j hj => ?_) (fun q c hq => ?_) fun q c hq => ?_
  · have hj' := hdrops j
    rw [href] at hj
    exact ht.alloc (by omega)
  · have hc := hdrops c
    rw [href, hrefs, (ht.fresh hq).ref]
    omega
  · have hg := ht.gone hq
    have hc := hdrops c
    have hlive := hb.ref_live hg.held
    have hci : c ≠ i := by
      rintro rfl
      rw [if_pos rfl] at hc
      have hone := hg.ref
      omega
    refine ⟨by rw [hrefs]; exact hg.held, by rw [href, hg.ref, if_neg hci.symm], ?_⟩
    rw [Fs.iputDrop, Fs.field_setInode Inode.valid (by rfl)]
    exact hg.valid

end

end References

end Xv6
