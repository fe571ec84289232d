import Xv6.Disk.Blocks

/-!
# Block maps of inodes

The places of an inode that name blocks: the slots of `addrs` and the entries of the indirect block.
`bmap` fills the next place of one inode and leaves the places of all others alone.
-/

namespace Xv6

open Function (update_apply update_of_ne)

inductive Place where
  | slot (k : Fin (NDIRECT + 1))
  | entry (j : Nat)
  deriving DecidableEq

/-- The place is needed by files with more blocks than this. -/
def Place.index : Place → Nat
  | slot k => k.val
  | entry j => NDIRECT + j

/-- The place that names the `bn`th block of a file. -/
def Place.ofBlock (bn : Nat) : Place :=
  if h : bn < NDIRECT then .slot ⟨bn, Nat.lt_succ_of_lt h⟩ else .entry (bn - NDIRECT)

theorem Place.index_ofBlock (bn : Nat) : (Place.ofBlock bn).index = bn := by
  rw [ofBlock]
  split
  · rfl
  · rw [index]
    omega

/-- The slot of the indirect block. -/
abbrev indirect : Fin (NDIRECT + 1) := Fin.last NDIRECT

/-- The block that a place of the inode names, or 0. -/
def ptr (block : Nat → Block) (d : Dinode) : Place → Nat
  | .slot k => d.addrs k
  | .entry j => if d.addrs indirect = 0 then 0 else (block (d.addrs indirect)).word j

variable {block block' : Nat → Block}

theorem ptr_congr {d : Dinode}
    (h : d.addrs indirect ≠ 0 → block' (d.addrs indirect) = block (d.addrs indirect)) (p : Place) :
    ptr block' d p = ptr block d p := by
  cases p with
  | slot k => rfl
  | entry j =>
    simp only [ptr]
    split
    · rfl
    · rw [h ‹_›]

/-- The file has its first `c` blocks, and the indirect block if one of them needs it. -/
def Mapped (block : Nat → Block) (d : Dinode) (c : Nat) : Prop :=
  c ≤ MAXFILE ∧ ∀ p, ptr block d p ≠ 0 ↔ p.index < c

theorem Mapped.congr {d d' : Dinode} {c : Nat} (h : Mapped block d c)
    (hptr : ∀ p, ptr block' d' p = ptr block d p) : Mapped block' d' c :=
  ⟨h.1, fun p => by rw [hptr, h.2]⟩

/-- Blocks of a file of the given size. -/
def blocksOf (size : Nat) : Nat := (size + BSIZE - 1) / BSIZE

namespace Store

variable {s s' : Store} {i : Nat}

/-- The inode as the kernel sees it. -/
def cur (s : Store) (i : Nat) : Dinode :=
  if (s.inode i).valid then (s.inode i).d else s.diskDinode i

def allocated (s : Store) (i : Nat) : Prop := i < s.sb.ninodes ∧ (s.cur i).type ≠ 0

instance (s : Store) (i : Nat) : Decidable (s.allocated i) := inferInstanceAs (Decidable (_ ∧ _))

/-- The block that a place of an allocated inode names. -/
def names (s : Store) (x : Nat × Place) : Option Nat :=
  if s.allocated x.1 ∧ ptr s.block (s.cur x.1) x.2 ≠ 0 then some (ptr s.block (s.cur x.1) x.2)
  else none

variable {x : Nat × Place}

theorem names_eq_some {b : Nat} :
    s.names x = some b ↔ s.allocated x.1 ∧ b ≠ 0 ∧ ptr s.block (s.cur x.1) x.2 = b := by
  rw [names]
  split
  · rename_i h
    constructor
    · intro hb
      obtain rfl := Option.some.inj hb
      exact ⟨h.1, h.2, rfl⟩
    · rintro ⟨_, _, rfl⟩
      rfl
  · rename_i h
    constructor
    · nofun
    · rintro ⟨halloc, hne, rfl⟩
      exact absurd ⟨halloc, hne⟩ h

theorem names_eq_none (h : ptr s.block (s.cur x.1) x.2 = 0) : s.names x = none := by
  simp [names, h]

theorem cur_of_valid (h : (s.inode i).valid = true) : s.cur i = (s.inode i).d := by
  rw [cur, if_pos h]

/-- Owners of blocks are the places of allocated inodes; an inode in memory is one of those. -/
structure Inv (s : Store) : Prop where
  owned : s.Owned s.names
  valid : ∀ {i}, (s.inode i).valid = true → s.allocated i

/-- Two inodes that differ at most in size and blocks. -/
structure SameNode (d d' : Dinode) : Prop where
  type : d'.type = d.type
  major : d'.major = d.major
  minor : d'.minor = d.minor
  nlink : d'.nlink = d.nlink

/-- What an operation on the blocks of inode `i` leaves alone. -/
structure Frame (i : Nat) (s s' : Store) : Prop where
  sb : s'.sb = s.sb
  inode : ∀ {j}, j ≠ i → s'.inode j = s.inode j
  ref : (s'.inode i).ref = (s.inode i).ref
  valid : (s'.inode i).valid = (s.inode i).valid
  node : SameNode (s.inode i).d (s'.inode i).d
  size : (s'.inode i).d.size = (s.inode i).d.size
  dinode : ∀ {j}, j < s.sb.ninodes → s'.diskDinode j = s.diskDinode j
  ptr : ∀ {j}, j ≠ i → s.allocated j → ∀ p, ptr s'.block (s.cur j) p = ptr s.block (s.cur j) p

variable {j : Nat}

namespace Frame

theorem refl (i : Nat) (s : Store) : Frame i s s where
  sb := rfl
  inode _ := rfl
  ref := rfl
  valid := rfl
  node := ⟨rfl, rfl, rfl, rfl⟩
  size := rfl
  dinode _ := rfl
  ptr _ _ _ := rfl

section

variable (h : Frame i s s')
include h

theorem cur (hj : j < s.sb.ninodes) (hne : j ≠ i) : s'.cur j = s.cur j := by
  rw [Store.cur, Store.cur, h.inode hne, h.dinode hj]

theorem allocated (hne : j ≠ i) : s'.allocated j ↔ s.allocated j := by
  rw [Store.allocated, Store.allocated, h.sb]
  exact and_congr_right fun hj => by rw [h.cur hj hne]

theorem trans {t : Store} (h' : Frame i s' t) : Frame i s t where
  sb := h'.sb.trans h.sb
  inode hj := (h'.inode hj).trans (h.inode hj)
  ref := h'.ref.trans h.ref
  valid := h'.valid.trans h.valid
  node := ⟨h'.node.type.trans h.node.type, h'.node.major.trans h.node.major,
    h'.node.minor.trans h.node.minor, h'.node.nlink.trans h.node.nlink⟩
  size := h'.size.trans h.size
  dinode hj := (h'.dinode (h.sb ▸ hj)).trans (h.dinode hj)
  ptr {j} hne hj p := by
    have hcur := h.cur hj.1 hne
    have hptr := h'.ptr hne ((h.allocated hne).mpr hj) p
    rw [hcur] at hptr
    exact hptr.trans (h.ptr hne hj p)

theorem names (hne : j ≠ i) (p : Place) : s'.names (j, p) = s.names (j, p) := by
  rw [Store.names, Store.names]
  by_cases hj : s.allocated j
  · rw [h.cur hj.1 hne, h.ptr hne hj]
    simp [hj, (h.allocated hne).mpr hj]
  · have hj' : ¬s'.allocated j := fun h' => hj ((h.allocated hne).mp h')
    simp [hj, hj']

theorem mapped {j c : Nat} (hne : j ≠ i) (hj : s.allocated j)
    (hm : Mapped s.block (s.cur j) c) : Mapped s'.block (s'.cur j) c := by
  rw [h.cur hj.1 hne]
  exact hm.congr (h.ptr hne hj)

end

end Frame

/-- Change the slots of the inode in memory. -/
def putSlot (s : Store) (i : Nat) (k : Fin (NDIRECT + 1)) (addr : Nat) : Store :=
  s.setIncore i { s.inode i with
    d := { (s.inode i).d with addrs := Function.update (s.inode i).d.addrs k addr } }

@[simp]
theorem block_putSlot (s : Store) (i : Nat) (k : Fin (NDIRECT + 1)) (addr : Nat) :
    (s.putSlot i k addr).block = s.block := rfl

theorem putSlot_inode (hk : s'.inode = s.inode) (k : Fin (NDIRECT + 1)) (addr : Nat) :
    (s'.putSlot i k addr).inode i = { s.inode i with
      d := { (s.inode i).d with addrs := Function.update (s.inode i).d.addrs k addr } } := by
  simp [putSlot, setIncore, hk]

theorem Frame.putSlot (hk : Keeps s s') (k : Fin (NDIRECT + 1)) (addr : Nat)
    (hptr : ∀ {j}, j ≠ i → s.allocated j → ∀ p,
      Xv6.ptr s'.block (s.cur j) p = Xv6.ptr s.block (s.cur j) p) :
    Frame i s (s'.putSlot i k addr) := by
  refine ⟨hk.sb, fun {j} hj => ?_, ?_, ?_, ⟨?_, ?_, ?_, ?_⟩, ?_, fun {j} hj => hk.dinode hj, hptr⟩
  · exact (update_of_ne hj _ _).trans (congrFun hk.inode j)
  all_goals rw [putSlot_inode hk.inode]

variable {E : StorePanic → Prop} {k : Fin (NDIRECT + 1)}

theorem wp_setAddr {addr : Nat} {Q : Unit → Store → Prop} (hQ : Q () (s.putSlot i k addr)) :
    Run.wp E (setAddr i k addr) Q s := by
  rw [setAddr, modifyInode, Run.wp_modify]
  exact hQ

namespace Inv

theorem of_owned (h : s.Inv) (hf : Frame i s s') (hi : (s.inode i).valid = true)
    {name : Nat × Place → Option Nat} (howned : s'.Owned name)
    (hothers : ∀ j q, j ≠ i → name (j, q) = s.names (j, q))
    (hself : ∀ q, name (i, q) = if Xv6.ptr s'.block (s'.inode i).d q ≠ 0
      then some (Xv6.ptr s'.block (s'.inode i).d q) else none) : s'.Inv := by
  have hi' : (s'.inode i).valid = true := hf.valid.trans hi
  have halloc : s'.allocated i := by
    obtain ⟨hlt, htype⟩ := h.valid hi
    refine ⟨hf.sb ▸ hlt, ?_⟩
    rw [cur_of_valid hi] at htype
    rw [cur_of_valid hi', hf.node.type]
    exact htype
  have hnames : s'.names = name := by
    funext ⟨j, q⟩
    by_cases hj : j = i
    · subst hj
      rw [hself, names, cur_of_valid hi']
      simp [halloc]
    · rw [hothers j q hj, hf.names hj]
  refine ⟨hnames ▸ howned, fun {j} hj => ?_⟩
  by_cases hji : j = i
  · exact hji ▸ halloc
  · rw [hf.inode hji] at hj
    exact (hf.allocated hji).mpr (h.valid hj)

variable {b : Nat}

section

variable (h : s.Inv)
include h

theorem ptr_ne_free (hfree : s.marked b = false) (hj : s.allocated j) {p : Place}
    (hp : ptr s.block (s.cur j) p ≠ 0) :
    ptr s.block (s.cur j) p ≠ b ∧ s.dataArea (ptr s.block (s.cur j) p) := by
  have huse := h.owned.tenancy.used_of_name (i := (j, p)) (names_eq_some.mpr ⟨hj, hp, rfl⟩)
  refine ⟨?_, huse.1⟩
  intro hpb
  rw [hpb, inUse, hfree] at huse
  exact absurd huse.2 (by decide)

theorem bblock_ne (hx : s.names x = some b) {c : Nat} (hc : c < s.sb.size) : BBLOCK c s.sb ≠ b :=
  Nat.ne_of_lt (lt_of_lt_of_le (h.owned.formatted.layout.bblock_lt hc) (h.owned.dataArea hx).1)

theorem block_alloc (hb : s.dataArea b) (hfree : s.marked b = false) {c : Nat}
    (hx : s.names x = some c) : (s.alloc b).block c = s.block c := by
  have huse := h.owned.tenancy.used_of_name hx
  refine block_alloc_ne h.owned.formatted.layout hb.2 huse.1.1 ?_
  intro hcb
  rw [hcb, inUse, hfree] at huse
  exact absurd huse.2 (by decide)

theorem ptr_alloc (hb : s.dataArea b) (hfree : s.marked b = false) (hj : s.allocated j)
    (p : Place) :
    ptr (s.alloc b).block (s.cur j) p = ptr s.block (s.cur j) p := by
  refine ptr_congr (fun hne => ?_) p
  obtain ⟨hnb, harea⟩ := h.ptr_ne_free hfree hj (p := .slot indirect) hne
  exact block_alloc_ne h.owned.formatted.layout hb.2 harea.1 hnb

theorem dataArea_ne_zero (hb : s.dataArea b) : b ≠ 0 := by
  have hlayout := h.owned.formatted.layout
  have hbmap := hlayout.bmapstart_le
  have hstart := hlayout.inodestart
  have hlog := hlayout.log
  have hboot := hlayout.boot
  have hle := hb.1
  omega

theorem frame_alloc (hb : s.dataArea b) (hfree : s.marked b = false)
    (k : Fin (NDIRECT + 1)) : Frame i s ((s.alloc b).putSlot i k b) :=
  .putSlot (keeps_alloc h.owned.formatted.layout hb) k b fun _ hj p => h.ptr_alloc hb hfree hj p

theorem takeSlot (hi : (s.inode i).valid = true) (hk : (s.inode i).d.addrs k = 0)
    (hb : s.dataArea b) (hfree : s.marked b = false) :
    ((s.alloc b).putSlot i k b).Inv ∧
      ∀ q, ptr ((s.alloc b).putSlot i k b).block (((s.alloc b).putSlot i k b).inode i).d q =
        if q = .slot k then b else ptr s.block (s.inode i).d q := by
  have hcur := cur_of_valid hi
  have hd : (((s.alloc b).putSlot i k b).inode i).d =
      { (s.inode i).d with addrs := Function.update (s.inode i).d.addrs k b } := by
    rw [putSlot_inode (keeps_alloc h.owned.formatted.layout hb).inode]
  have hptr : ∀ q, ptr ((s.alloc b).putSlot i k b).block (((s.alloc b).putSlot i k b).inode i).d q =
      if q = .slot k then b else ptr s.block (s.inode i).d q := by
    intro q
    rw [hd]
    cases q with
    | slot k' => simp [ptr, update_apply]
    | entry j =>
      rw [if_neg nofun]
      by_cases hind : indirect = k
      · -- The indirect block is new: it has been zeroed.
        subst hind
        simp only [ptr, Function.update_self, hk, if_true]
        rw [block_putSlot, block_alloc_self, Bytes.word_zero, ite_self]
      · have hsame := h.ptr_alloc hb hfree (h.valid hi) (.entry j)
        rw [hcur] at hsame
        simpa [ptr, update_of_ne hind] using hsame
  have hnone : s.names (i, .slot k) = none := names_eq_none (by rw [hcur]; exact hk)
  have hzero := h.dataArea_ne_zero hb
  refine ⟨h.of_owned (h.frame_alloc hb hfree k) hi
    ((h.owned.alloc hnone hb hfree).of_blocks rfl rfl) (fun j q hj => ?_) fun q => ?_, hptr⟩
  · exact update_of_ne (fun he => hj (congrArg Prod.fst he)) _ _
  · rw [hptr, update_apply]
    by_cases hq : q = .slot k
    · simp [hq, hzero]
    · simp [hq, names, hcur, h.valid hi]

theorem takeEntry (hi : (s.inode i).valid = true) {a j : Nat} (hj : j < NINDIRECT)
    (ha : (s.inode i).d.addrs indirect = a) (hne : a ≠ 0) (hw : (s.block a).word j = 0)
    (hb : s.dataArea b) (hfree : s.marked b = false) :
    ((s.alloc b).write a ((s.block a).putWord j b)).Inv ∧
      Frame i s ((s.alloc b).write a ((s.block a).putWord j b)) ∧
      ∀ q, ptr ((s.alloc b).write a ((s.block a).putWord j b)).block (s.inode i).d q =
        if q = .entry j then b else ptr s.block (s.inode i).d q := by
  have hcur := cur_of_valid hi
  have hlayout := h.owned.formatted.layout
  have hkeeps := keeps_alloc hlayout hb
  have haname : s.names (i, .slot indirect) = some a := names_eq_some.mpr
    ⟨h.valid hi, hne, by rw [hcur]; exact ha⟩
  have haarea := h.owned.dataArea haname
  have hasize : (s.alloc b).dataArea a := haarea
  have hwrite := keeps_write (s := s.alloc b) hlayout (le_trans hlayout.bmapstart_le haarea.1)
    ((s.block a).putWord j b)
  have hptr : ∀ q, ptr ((s.alloc b).write a ((s.block a).putWord j b)).block (s.inode i).d q =
      if q = .entry j then b else ptr s.block (s.inode i).d q := by
    intro q
    cases q with
    | slot k => rfl
    | entry j' =>
      simp only [ptr, ha, hne, if_false, block_write_self, Place.entry.injEq]
      by_cases hj' : j' = j
      · have hfit : 4 * j + 4 ≤ BSIZE := by
          simp only [NINDIRECT, BSIZE] at hj ⊢
          omega
        have hlt := hb.2
        have hsize := hlayout.size
        rw [hj', if_pos rfl, Bytes.word_putWord_same _ _ _ hfit, Nat.mod_eq_of_lt (by omega)]
      · rw [if_neg hj', Bytes.word_putWord_ne _ _ _ _ hj']
  have hframe : Frame i s ((s.alloc b).write a ((s.block a).putWord j b)) := by
    have hk := hkeeps.trans hwrite
    refine ⟨hk.sb, fun {j} _ => congrFun hk.inode j, ?_, ?_, ⟨?_, ?_, ?_, ?_⟩, ?_, hk.dinode,
      fun {j'} hj' halloc p => ?_⟩
    iterate 7 rw [hk.inode]
    · rw [← h.ptr_alloc hb hfree halloc p]
      refine ptr_congr (fun hne' => block_write_ne _ _ fun heq => ?_) p
      -- The indirect block of another inode is another block.
      have hother : s.names (j', .slot indirect) = some a := names_eq_some.mpr ⟨halloc, hne, heq⟩
      exact hj' (congrArg Prod.fst (h.owned.tenancy.unique hother haname))
  have hnone : s.names (i, .entry j) = none := by
    refine names_eq_none ?_
    rw [hcur]
    simp [ptr, ha, hw]
  refine ⟨h.of_owned hframe hi ((h.owned.alloc hnone hb hfree).write_data hasize _)
    (fun j' q hj' => ?_) fun q => ?_, hframe, hptr⟩
  · exact update_of_ne (fun he => hj' (congrArg Prod.fst he)) _ _
  · have hd : ((s.alloc b).write a ((s.block a).putWord j b)).inode i = s.inode i :=
      congrFun (hkeeps.trans hwrite).inode i
    rw [hd, hptr, update_apply]
    by_cases hq : q = .entry j
    · simp [hq, h.dataArea_ne_zero hb]
    · simp [hq, names, hcur, h.valid hi]

end

end Inv

/-- The blocks of a file with `c` data blocks -/
def footprint (c : Nat) : Nat := c + if NDIRECT < c then 1 else 0

theorem footprint_succ (c : Nat) : footprint (c + 1) = footprint c + if c = NDIRECT then 2 else 1 := by
  simp only [footprint]
  split_ifs <;> omega

theorem footprint_mono {c c' : Nat} (h : c ≤ c') : footprint c ≤ footprint c' := by
  simp only [footprint]
  split_ifs <;> omega

/-- Places in the log that the indirect block may need, with the block of the bitmap for it -/
def indirectCost (s : Store) (i : Nat) : Nat :=
  if (s.inode i).d.addrs indirect ≠ 0 ∧ (s.inode i).d.addrs indirect ∈ s.lh then 0 else 2

/-- Blocks at other places than `y` have the same contents. -/
def Intact (y : Nat × Place) (s s' : Store) : Prop :=
  ∀ ⦃x b⦄, x ≠ y → s.names x = some b → s'.block b = s.block b

/-- What `bmap` does to add the next block to a file of `c` blocks. -/
structure Extends (i c : Nat) (s : Store) (b : Nat) (s' : Store) : Prop where
  inv : s'.Inv
  frame : Frame i s s'
  mapped : Mapped s'.block (s'.inode i).d (c + 1)
  ptr : Xv6.ptr s'.block (s'.inode i).d (Place.ofBlock c) = b
  /-- Blocks that the file has stay where they are. -/
  keep : ∀ {p}, Xv6.ptr s.block (s.inode i).d p ≠ 0 →
    Xv6.ptr s'.block (s'.inode i).d p = Xv6.ptr s.block (s.inode i).d p
  intact : Intact (i, .slot indirect) s s'
  spends : Spends s s' (footprint (c + 1) - footprint c)
    (2 + if c < NDIRECT then 0 else s.indirectCost i)
  logged : b ∈ s'.lh
  cost : s'.indirectCost i ≤ if c < NDIRECT then s.indirectCost i else 0

variable {Q : Nat → Store → Prop}

theorem wp_slotBlock (h : s.Inv) (ha : (s.inode i).d.addrs k = 0 → s.Affords E 1 2)
    (hold : (s.inode i).d.addrs k ≠ 0 → Q ((s.inode i).d.addrs k) s)
    (hnew : (s.inode i).d.addrs k = 0 → ∀ b, s.dataArea b → s.marked b = false →
      Q b ((s.alloc b).putSlot i k b)) : Run.wp E (slotBlock i k) Q s := by
  rw [slotBlock, Run.wp_bind, Run.wp_get]
  split
  · rename_i hk
    rw [Run.wp_bind]
    refine wp_balloc h.owned.formatted (ha hk) fun b hb hfree => ?_
    rw [Run.wp_bind]
    refine wp_setAddr ?_
    rw [Run.wp_pure]
    exact hnew hk b hb hfree
  · rw [Run.wp_pure]
    exact hold ‹_›

theorem wp_entryBlock (h : s.Inv) {a j : Nat} (ha : (s.block a).word j = 0 → s.Affords E 1 3)
    (hold : (s.block a).word j ≠ 0 → Q ((s.block a).word j) s)
    (hnew : (s.block a).word j = 0 → ∀ b, s.dataArea b → s.marked b = false →
      Q b ((s.alloc b).write a ((s.block a).putWord j b))) :
    Run.wp E (do
      let bp ← bread a
      if bp.word j = 0 then do
        let b ← balloc
        logWrite a (bp.putWord j b)
        pure b
      else pure (bp.word j)) Q s := by
  rw [Run.wp_bind]
  refine wp_bread ?_
  split
  · rename_i hw
    have haffords := ha hw
    rw [Run.wp_bind]
    refine wp_balloc h.owned.formatted (haffords.mono (Nat.le_refl _) (by decide)) fun b hb hfree => ?_
    rw [Run.wp_bind]
    refine wp_logWrite (haffords.rest (spends_alloc h.owned.formatted.layout hb hfree)) ?_
    rw [Run.wp_pure]
    exact hnew hw b hb hfree
  · rw [Run.wp_pure]
    exact hold ‹_›

theorem mapped_succ {d d' : Dinode} {c b : Nat} (hc : c < MAXFILE)
    (hm : ∀ p, p ≠ Place.ofBlock c → (ptr block d p ≠ 0 ↔ p.index < c + 1)) (hb : b ≠ 0)
    (hptr : ∀ p, ptr block' d' p = if p = Place.ofBlock c then b else ptr block d p) :
    Mapped block' d' (c + 1) := by
  refine ⟨hc, fun p => ?_⟩
  rw [hptr]
  by_cases hp : p = Place.ofBlock c
  · simp [hp, hb, Place.index_ofBlock]
  · rw [if_neg hp, hm p hp]

theorem index_ne {c : Nat} {p : Place} (hp : p ≠ Place.ofBlock c) (hind : p ≠ .slot indirect) :
    p.index ≠ c := by
  intro hc
  cases p with
  | slot k =>
    have hk : k.val < NDIRECT := by
      have hle := k.isLt
      have hne : k.val ≠ NDIRECT := fun he => hind (congrArg Place.slot (Fin.ext he))
      omega
    have hck : c < NDIRECT := hc ▸ hk
    apply hp
    rw [Place.ofBlock, dif_pos hck]
    exact congrArg Place.slot (Fin.ext hc)
  | entry j =>
    rw [Place.index] at hc
    apply hp
    rw [Place.ofBlock, dif_neg (by omega)]
    exact congrArg Place.entry (by omega)

section

variable (h : s.Inv) (hi : (s.inode i).valid = true)
include h hi

theorem Inv.extends_direct {c b : Nat} (hm : Mapped s.block (s.inode i).d c) (hmax : c < MAXFILE)
    (hdirect : c < NDIRECT) (hb : s.dataArea b) (hfree : s.marked b = false) :
    Extends i c s b ((s.alloc b).putSlot i ⟨c, Nat.lt_succ_of_lt hdirect⟩ b) := by
  have hplace : Place.ofBlock c = .slot ⟨c, Nat.lt_succ_of_lt hdirect⟩ := by
    rw [Place.ofBlock, dif_pos hdirect]
  have hempty : (s.inode i).d.addrs ⟨c, Nat.lt_succ_of_lt hdirect⟩ = 0 := by
    by_contra hne
    exact lt_irrefl c ((hm.2 (.slot ⟨c, Nat.lt_succ_of_lt hdirect⟩)).mp hne)
  obtain ⟨hinv, hptr⟩ := h.takeSlot hi hempty hb hfree
  have hptr' := hptr
  rw [← hplace] at hptr'
  have hspends := (spends_alloc h.owned.formatted.layout hb hfree).trans
    (spends_setIncore (s.alloc b) i { (s.alloc b).inode i with d :=
      { ((s.alloc b).inode i).d with
        addrs := Function.update ((s.alloc b).inode i).d.addrs ⟨c, Nat.lt_succ_of_lt hdirect⟩ b } })
  refine
    { inv := hinv
      frame := h.frame_alloc hb hfree _
      mapped := ?_
      ptr := by rw [hptr', if_pos rfl]
      keep := ?_
      intact := fun x b' _ hx => h.block_alloc hb hfree hx
      spends := hspends.mono ?_ ?_
      logged := mem_lh_alloc s b
      cost := ?_ }
  · refine mapped_succ hmax (fun p hp => (hm.2 p).trans ?_) (h.dataArea_ne_zero hb) hptr'
    by_cases hind : p = .slot indirect
    · simp only [hind, Place.index, Fin.val_last]
      omega
    · have hne := index_ne hp hind
      omega
  · intro p hp
    rw [hptr, if_neg]
    rintro rfl
    exact hp hempty
  · rw [footprint_succ]
    split_ifs <;> omega
  · rw [if_pos hdirect]
  · rw [if_pos hdirect]
    have hne : indirect ≠ (⟨c, Nat.lt_succ_of_lt hdirect⟩ : Fin (NDIRECT + 1)) := by
      intro heq
      exact absurd (congrArg Fin.val heq) (Nat.ne_of_gt hdirect)
    have haddr : (((s.alloc b).putSlot i ⟨c, Nat.lt_succ_of_lt hdirect⟩ b).inode i).d.addrs indirect =
        (s.inode i).d.addrs indirect := by
      rw [putSlot_inode (keeps_alloc h.owned.formatted.layout hb).inode]
      exact update_of_ne hne _ _
    rw [indirectCost, indirectCost, haddr]
    split
    · exact Nat.zero_le _
    · rename_i hcost
      rw [if_neg]
      exact fun hin => hcost ⟨hin.1, hspends.logged hin.2⟩

theorem Inv.spends_entry {a j b : Nat} (ha : (s.inode i).d.addrs indirect = a) (hne : a ≠ 0)
    (hb : s.dataArea b) (hfree : s.marked b = false) :
    Spends s ((s.alloc b).write a ((s.block a).putWord j b)) 1 (2 + s.indirectCost i) := by
  have hlayout := h.owned.formatted.layout
  have haname : s.names (i, .slot indirect) = some a := names_eq_some.mpr
    ⟨h.valid hi, hne, by rw [cur_of_valid hi]; exact ha⟩
  have hbitmap : ∀ c, c < (s.alloc b).sb.size → BBLOCK c (s.alloc b).sb ≠ a :=
    fun c hc => h.bblock_ne haname hc
  have halloc := spends_alloc hlayout hb hfree
  rw [indirectCost, ha]
  split
  · rename_i hcost
    exact halloc.trans (spends_absorbed hbitmap (halloc.logged hcost.2))
  · exact (halloc.trans (spends_write hbitmap)).mono (Nat.le_refl _) (by omega)

theorem Inv.extends_entry {a c b : Nat}
    (hmapped : ∀ p, p ≠ Place.ofBlock c → (ptr s.block (s.inode i).d p ≠ 0 ↔ p.index < c + 1))
    (hmax : c < MAXFILE) (hindirect : NDIRECT ≤ c) (ha : (s.inode i).d.addrs indirect = a)
    (hne : a ≠ 0) (hw : (s.block a).word (c - NDIRECT) = 0) (hb : s.dataArea b)
    (hfree : s.marked b = false) :
    Extends i c s b ((s.alloc b).write a ((s.block a).putWord (c - NDIRECT) b)) := by
  have hplace : Place.ofBlock c = .entry (c - NDIRECT) := by
    rw [Place.ofBlock, dif_neg (Nat.not_lt.mpr hindirect)]
  have hentry : c - NDIRECT < NINDIRECT := by
    simp only [MAXFILE] at hmax
    omega
  have hlayout := h.owned.formatted.layout
  have hd := congrFun (keeps_alloc hlayout hb).inode i
  have haname : s.names (i, .slot indirect) = some a := names_eq_some.mpr
    ⟨h.valid hi, hne, by rw [cur_of_valid hi]; exact ha⟩
  obtain ⟨hinv, hframe, hptr⟩ := h.takeEntry hi hentry ha hne hw hb hfree
  have hempty : ptr s.block (s.inode i).d (.entry (c - NDIRECT)) = 0 := by
    rw [ptr, ha, if_neg hne, hw]
  refine
    { inv := hinv
      frame := hframe
      mapped := ?_
      ptr := ?_
      keep := ?_
      intact := ?_
      spends := ?_
      logged := subset_absorb _ _ (mem_lh_alloc s b)
      cost := ?_ }
  · refine mapped_succ hmax hmapped (h.dataArea_ne_zero hb) fun p => ?_
    rw [inode_write, hd, hptr, hplace]
  · rw [inode_write, hd, hptr, hplace, if_pos rfl]
  · intro p hp
    rw [inode_write, hd, hptr, if_neg]
    rintro rfl
    exact hp hempty
  · intro x b' hx hname
    rw [block_write_ne, h.block_alloc hb hfree hname]
    rintro rfl
    exact hx (h.owned.tenancy.unique hname haname)
  · rw [if_neg (Nat.not_lt.mpr hindirect)]
    refine (h.spends_entry hi ha hne hb hfree).mono ?_ (Nat.le_refl _)
    rw [footprint_succ]
    split_ifs <;> omega
  · rw [if_neg (Nat.not_lt.mpr hindirect), indirectCost, inode_write, hd, ha, if_pos]
    exact ⟨hne, mem_lh_write ..⟩

theorem Inv.extends_indirect {a b : Nat} {s' : Store} (hm : Mapped s.block (s.inode i).d NDIRECT)
    (ha : s.dataArea a) (hfree : s.marked a = false)
    (hnext : Extends i NDIRECT ((s.alloc a).putSlot i indirect a) b s')
    (hspends : Spends ((s.alloc a).putSlot i indirect a) s' 1
      (2 + ((s.alloc a).putSlot i indirect a).indirectCost i)) : Extends i NDIRECT s b s' := by
  have hempty : (s.inode i).d.addrs indirect = 0 := by
    by_contra hne
    exact lt_irrefl NDIRECT ((hm.2 (.slot indirect)).mp hne)
  obtain ⟨hinv, hptr⟩ := h.takeSlot hi hempty ha hfree
  have hframe := h.frame_alloc (i := i) ha hfree indirect
  have hkeep {p : Place} (hp : ptr s.block (s.inode i).d p ≠ 0) :
      ptr ((s.alloc a).putSlot i indirect a).block (((s.alloc a).putSlot i indirect a).inode i).d p =
        ptr s.block (s.inode i).d p := by
    rw [hptr, if_neg]
    rintro rfl
    exact hp hempty
  have hslot : (((s.alloc a).putSlot i indirect a).inode i).d.addrs indirect = a := by
    simpa [ptr] using hptr (.slot indirect)
  have hcost : ((s.alloc a).putSlot i indirect a).indirectCost i = 0 := by
    rw [indirectCost, hslot]
    exact if_pos ⟨h.dataArea_ne_zero ha, mem_lh_alloc s a⟩
  have hslotSpends := (spends_alloc h.owned.formatted.layout ha hfree).trans
    (spends_setIncore (s.alloc a) i { (s.alloc a).inode i with d :=
      { ((s.alloc a).inode i).d with
        addrs := Function.update ((s.alloc a).inode i).d.addrs indirect a } })
  rw [hcost] at hspends
  refine
    { inv := hnext.inv
      frame := hframe.trans hnext.frame
      mapped := hnext.mapped
      ptr := hnext.ptr
      keep := ?_
      intact := ?_
      spends := ?_
      logged := hnext.logged
      cost := ?_ }
  · intro p hp
    have hsame := hkeep hp
    rw [hnext.keep (hsame ▸ hp), hsame]
  · rintro ⟨j, p⟩ b' hx hname
    have hname' : ((s.alloc a).putSlot i indirect a).names (j, p) = some b' := by
      by_cases hj : j = i
      · subst hj
        obtain ⟨-, hne, hp⟩ := names_eq_some.mp hname
        rw [cur_of_valid hi] at hp
        have hi' := hframe.valid.trans hi
        refine names_eq_some.mpr ⟨hinv.valid hi', hne, ?_⟩
        rw [cur_of_valid hi']
        change ptr _ _ p = b' at hp
        exact (hkeep (hp ▸ hne)).trans hp
      · rw [hframe.names hj, hname]
    rw [hnext.intact hx hname']
    exact h.block_alloc ha hfree hname
  · have htotal := hslotSpends.trans hspends
    rw [if_neg (lt_irrefl NDIRECT), indirectCost, if_neg fun hin => hin.1 hempty, footprint_succ,
      if_pos rfl, Nat.add_sub_cancel_left]
    exact htotal
  · have hlast := hnext.cost
    rwa [if_neg (lt_irrefl NDIRECT)] at hlast ⊢

end

theorem wp_bmap_found {bn c : Nat} (hm : Mapped s.block (s.inode i).d c) (hbn : bn < c)
    (hQ : Q (ptr s.block (s.inode i).d (Place.ofBlock bn)) s) : Run.wp E (bmap i bn) Q s := by
  have hne : ptr s.block (s.inode i).d (Place.ofBlock bn) ≠ 0 :=
    (hm.2 _).mpr (by rwa [Place.index_ofBlock])
  have hmax := hm.1
  rw [bmap]
  rw [Place.ofBlock] at hne hQ
  split at hne
  · rename_i hdirect
    rw [dif_pos hdirect] at hQ ⊢
    rw [ptr] at hne hQ
    rw [slotBlock, Run.wp_bind, Run.wp_get, if_neg hne, Run.wp_pure]
    exact hQ
  · rename_i hdirect
    have hentry : bn - NDIRECT < NINDIRECT := by
      simp only [MAXFILE] at hmax
      omega
    have hind : (s.inode i).d.addrs indirect ≠ 0 := (hm.2 (.slot indirect)).mpr (by
      simp only [Place.index, Fin.val_last]
      omega)
    rw [dif_neg hdirect, ptr, if_neg hind] at hQ
    rw [ptr, if_neg hind] at hne
    rw [dif_neg hdirect, if_pos hentry, Run.wp_bind, slotBlock, Run.wp_bind, Run.wp_get,
      if_neg hind, Run.wp_pure, Run.wp_bind]
    refine wp_bread ?_
    rw [if_neg hne, Run.wp_pure]
    exact hQ

theorem wp_bmap (h : s.Inv) (hi : (s.inode i).valid = true) {bn c : Nat}
    (hm : Mapped s.block (s.inode i).d c) (hbn : bn ≤ c) (hmax : bn < MAXFILE)
    (ha : bn = c → s.Affords E (footprint (c + 1) - footprint c)
      (3 + if c < NDIRECT then 0 else s.indirectCost i))
    (hfound : bn < c → Q (ptr s.block (s.inode i).d (Place.ofBlock bn)) s)
    (hnew : bn = c → ∀ b s', Extends i c s b s' → Q b s') : Run.wp E (bmap i bn) Q s := by
  rcases Nat.lt_or_eq_of_le hbn with hlt | rfl
  · exact wp_bmap_found hm hlt (hfound hlt)
  have haffords := ha rfl
  have hnew := hnew rfl
  rw [bmap]
  split
  · rename_i hdirect
    refine wp_slotBlock h (fun _ => haffords.mono ?_ (by omega)) (fun hk => ?_) fun _ b hb hfree => ?_
    · rw [footprint_succ]
      split_ifs <;> omega
    · exact absurd ((hm.2 (.slot ⟨bn, Nat.lt_succ_of_lt hdirect⟩)).mp hk) (lt_irrefl bn)
    · exact hnew b _ (h.extends_direct hi hm hmax hdirect hb hfree)
  rename_i hdirect
  rw [if_pos (by simp only [MAXFILE] at hmax; omega), Run.wp_bind]
  rw [if_neg hdirect] at haffords
  have hfirst : 1 ≤ footprint (bn + 1) - footprint bn := by
    rw [footprint_succ]
    split_ifs <;> omega
  refine wp_slotBlock h (fun _ => haffords.mono hfirst (by omega)) (fun hind => ?_)
    fun hind a harea hafree => ?_
  · have hlast : NDIRECT < bn := (hm.2 (.slot indirect)).mp hind
    have hword : (s.block ((s.inode i).d.addrs indirect)).word (bn - NDIRECT) = 0 := by
      by_contra hne
      have hidx := (hm.2 (.entry (bn - NDIRECT))).mp (by rwa [ptr, if_neg hind])
      rw [Place.index] at hidx
      omega
    refine wp_entryBlock h (fun _ => haffords.mono hfirst (by omega)) (fun hw => absurd hword hw)
      fun _ b hb hfree => hnew b _ ?_
    refine h.extends_entry hi (fun p hp => (hm.2 p).trans ?_) hmax hlast.le rfl hind hword hb hfree
    by_cases hslot : p = .slot indirect
    · simp only [hslot, Place.index, Fin.val_last]
      omega
    · have hne := index_ne hp hslot
      omega
  · have hlast : ¬NDIRECT < bn := fun hlt => (hm.2 (.slot indirect)).mpr hlt hind
    obtain rfl : bn = NDIRECT := by omega
    obtain ⟨hinv, hptr⟩ := h.takeSlot hi hind harea hafree
    have hi' := (h.frame_alloc (i := i) harea hafree indirect).valid.trans hi
    have haddr : (((s.alloc a).putSlot i indirect a).inode i).d.addrs indirect = a := by
      simpa [ptr] using hptr (.slot indirect)
    have hazero := h.dataArea_ne_zero harea
    have hword : (((s.alloc a).putSlot i indirect a).block a).word (NDIRECT - NDIRECT) = 0 := by
      rw [block_putSlot, block_alloc_self, Bytes.word_zero]
    have hrest : ((s.alloc a).putSlot i indirect a).Affords E 1 3 := by
      rw [footprint_succ, if_pos rfl, Nat.add_sub_cancel_left, indirectCost,
        if_neg fun hin => hin.1 hind] at haffords
      exact Affords.rest (m := 1) (n := 2) haffords
        ((spends_alloc h.owned.formatted.layout harea hafree).trans (spends_setIncore (s.alloc a) i _))
    refine wp_entryBlock hinv (fun _ => hrest) (fun hw => absurd hword hw) fun _ b hb hfree => hnew b _ ?_
    refine h.extends_indirect hi hm harea hafree (hinv.extends_entry hi' (fun p hp => ?_) hmax
      (Nat.le_refl _) haddr hazero hword hb hfree) (hinv.spends_entry hi' haddr hazero hb hfree)
    rw [hptr]
    by_cases hslot : p = .slot indirect
    · simp [hslot, hazero, Place.index]
    · have hne := index_ne hp hslot
      rw [if_neg hslot, hm.2]
      omega

end Store

end Xv6
