import Xv6.Disk.State

/-!
# The regions of the disk

Dinodes and bitmap bits as fields of the disk.  Boot and super block, log, inode blocks, bitmap and
data blocks do not overlap, so a write to one of them changes nothing that is read from another.
-/

namespace Xv6

theorem short_ushort (x : Int) : short (ushort x) = short x := by
  simp only [short, ushort]
  omega

theorem short_short (x : Int) : short (short x) = short x := by
  simp only [short]
  omega

/-- Values that the fields of a dinode can hold. -/
structure Dinode.Fits (d : Dinode) : Prop where
  type : short d.type = d.type
  major : short d.major = d.major
  minor : short d.minor = d.minor
  nlink : short d.nlink = d.nlink
  size : d.size < 2 ^ 32
  addrs : ∀ k, d.addrs k < 2 ^ 32

theorem dinodeAt_fits (b : Block) (k : Nat) : (dinodeAt b k).Fits where
  type := short_short _
  major := short_short _
  minor := short_short _
  nlink := short_short _
  size := b.le_lt _ 4
  addrs _ := b.le_lt _ 4

theorem le_putAddrs_disjoint (b : Block) (off : Nat) (addrs : Fin (NDIRECT + 1) → Nat)
    {off' width : Nat} (h : off' + width ≤ off ∨ off + 52 ≤ off') :
    (putAddrs b off addrs).le off' width = b.le off' width := by
  rw [putAddrs]
  generalize List.finRange (NDIRECT + 1) = l
  induction l generalizing b with
  | nil => rfl
  | cons j l ih =>
    rw [List.foldl_cons, ih]
    have hj : j.val < 13 := j.isLt
    exact Bytes.le_putLe_disjoint _ _ _ _ _ _ (by omega)

theorem le_putAddrs_same (b : Block) {off : Nat} (addrs : Fin (NDIRECT + 1) → Nat)
    (hoff : off + 52 ≤ BSIZE) (j : Fin (NDIRECT + 1)) :
    (putAddrs b off addrs).le (off + 4 * j.val) 4 = addrs j % 2 ^ 32 := by
  rw [putAddrs]
  have hmem : j ∈ List.finRange (NDIRECT + 1) := List.mem_finRange j
  generalize List.finRange (NDIRECT + 1) = l at hmem
  have hj : j.val < 13 := j.isLt
  induction l using List.reverseRecOn with
  | nil => cases hmem
  | append_singleton l k ih =>
    rw [List.foldl_append, List.foldl_cons, List.foldl_nil]
    by_cases hk : j = k
    · rw [hk, Bytes.le_putLe_same _ _ _ _ (by omega)]
      norm_num
    · have hne : j.val ≠ k.val := fun h => hk (Fin.ext h)
      rw [Bytes.le_putLe_disjoint _ _ _ _ _ _ (by omega), ih (by simpa [hk] using hmem)]

theorem dinodeAt_putDinode_same (b : Block) {k : Nat} (hk : k < IPB) {d : Dinode} (hd : d.Fits) :
    dinodeAt (putDinode b k d) k = d := by
  have hk8 : k < 8 := hk
  have hend : DINODESIZE * k + 64 ≤ BSIZE := by
    change 64 * k + 64 ≤ 512
    omega
  have hshort {x : Int} (hx : short x = x) : short (ushort x % 256 ^ 2 : Nat) = x := by
    have hlt : ushort x < 256 ^ 2 := by
      simp only [ushort]
      omega
    rw [Nat.mod_eq_of_lt hlt, short_ushort, hx]
  have hword {x : Nat} (hx : x < 2 ^ 32) : x % 256 ^ 4 = x := Nat.mod_eq_of_lt hx
  have haddrs (j : Fin (NDIRECT + 1)) :
      (putDinode b k d).le (DINODESIZE * k + 12 + 4 * j.val) 4 = d.addrs j := by
    simp only [putDinode]
    rw [le_putAddrs_same _ _ (by omega), Nat.mod_eq_of_lt (hd.addrs j)]
  simp only [dinodeAt, haddrs]
  simp (disch := omega) only [putDinode, le_putAddrs_disjoint, Bytes.le_putLe_disjoint,
    Bytes.le_putLe_same, hshort hd.type, hshort hd.major, hshort hd.minor, hshort hd.nlink,
    hword hd.size]

theorem le_putDinode_disjoint (b : Block) (k : Nat) (d : Dinode) {off width : Nat}
    (h : off + width ≤ DINODESIZE * k ∨ DINODESIZE * k + 64 ≤ off) :
    (putDinode b k d).le off width = b.le off width := by
  simp (disch := omega) only [putDinode, le_putAddrs_disjoint, Bytes.le_putLe_disjoint]

theorem dinodeAt_putDinode_ne (b : Block) {k k' : Nat} (d : Dinode) (h : k' ≠ k) :
    dinodeAt (putDinode b k d) k' = dinodeAt b k' := by
  have hfield {off width : Nat} (h1 : DINODESIZE * k' ≤ off)
      (h2 : off + width ≤ DINODESIZE * k' + 64) :
      (putDinode b k d).le off width = b.le off width := by
    refine le_putDinode_disjoint b k d ?_
    simp only [DINODESIZE] at h1 h2 ⊢
    omega
  simp only [dinodeAt]
  rw [hfield (by omega) (by omega), hfield (by omega) (by omega), hfield (by omega) (by omega),
    hfield (by omega) (by omega), hfield (by omega) (by omega)]
  congr 1
  funext j
  have hj : j.val < 13 := j.isLt
  exact hfield (by omega) (by omega)

/-- The first data block. -/
def Superblock.datastart (sb : Superblock) : Nat := sb.size - sb.nblocks

/-- Boot block, super block, log, inode blocks, bitmap and data blocks follow one another. -/
structure Superblock.Layout (sb : Superblock) : Prop where
  boot : 2 ≤ sb.logstart
  log : sb.logstart + sb.nlog ≤ sb.inodestart
  inodestart : sb.inodestart ≤ sb.bmapstart
  inodes : sb.ninodes ≤ (sb.bmapstart - sb.inodestart) * IPB
  bitmap : sb.bmapstart + (sb.size + BPB - 1) / BPB ≤ sb.datastart
  /-- Block numbers are of type `int` in `balloc`. -/
  size : sb.size < 2 ^ 31

namespace Superblock.Layout

variable {sb : Superblock} {b i : Nat}

theorem iblock_lt (h : sb.Layout) (hi : i < sb.ninodes) : IBLOCK i sb < sb.bmapstart := by
  have hstart := h.inodestart
  have hlt : i / IPB < sb.bmapstart - sb.inodestart :=
    Nat.div_lt_of_lt_mul (by rw [Nat.mul_comm]; exact lt_of_lt_of_le hi h.inodes)
  rw [IBLOCK]
  omega

theorem le_iblock (h : sb.Layout) (i : Nat) : 2 ≤ IBLOCK i sb := by
  have hboot := h.boot
  have hlog := h.log
  have hle : sb.inodestart ≤ IBLOCK i sb := Nat.le_add_left _ _
  omega

theorem bblock_lt (h : sb.Layout) (hb : b < sb.size) : BBLOCK b sb < sb.datastart := by
  have hbitmap := h.bitmap
  simp only [BBLOCK, BPB, BSIZE] at hbitmap ⊢
  omega

theorem le_bblock (sb : Superblock) (b : Nat) : sb.bmapstart ≤ BBLOCK b sb := Nat.le_add_left _ _

theorem bmapstart_le (h : sb.Layout) : sb.bmapstart ≤ sb.datastart :=
  le_trans (Nat.le_add_right _ _) h.bitmap

theorem datastart_le (sb : Superblock) : sb.datastart ≤ sb.size := Nat.sub_le _ _

end Superblock.Layout

namespace Store

variable {s : Store}

def diskDinode (s : Store) (i : Nat) : Dinode := dinodeAt (s.block (IBLOCK i s.sb)) (i % IPB)

/-- The bit of the block in the bitmap. -/
def marked (s : Store) (b : Nat) : Bool := (s.block (BBLOCK b s.sb)).bit (b % BPB)

def dataArea (s : Store) (b : Nat) : Prop := s.sb.datastart ≤ b ∧ b < s.sb.size

/-- The state after `log_write`. -/
def write (s : Store) (b : Nat) (data : Block) : Store :=
  { s with block := Function.update s.block b data, lh := absorb s.lh b }

@[simp]
theorem sb_write (s : Store) (b : Nat) (data : Block) : (s.write b data).sb = s.sb := rfl

@[simp]
theorem inode_write (s : Store) (b : Nat) (data : Block) : (s.write b data).inode = s.inode := rfl

@[simp]
theorem block_write_self (s : Store) (b : Nat) (data : Block) : (s.write b data).block b = data :=
  Function.update_self ..

theorem block_write_ne (s : Store) {b c : Nat} (data : Block) (h : c ≠ b) :
    (s.write b data).block c = s.block c := Function.update_of_ne h ..

theorem diskDinode_write {b i : Nat} {data : Block} (h : IBLOCK i s.sb ≠ b) :
    (s.write b data).diskDinode i = s.diskDinode i := by
  rw [diskDinode, diskDinode, sb_write, block_write_ne s data h]

theorem marked_write {b c : Nat} {data : Block} (h : BBLOCK c s.sb ≠ b) :
    (s.write b data).marked c = s.marked c := by
  rw [marked, marked, sb_write, block_write_ne s data h]

theorem diskDinode_write_iblock {i : Nat} {d : Dinode} (hd : d.Fits) (j : Nat) :
    (s.write (IBLOCK i s.sb) (putDinode (s.block (IBLOCK i s.sb)) (i % IPB) d)).diskDinode j =
      if j = i then d else s.diskDinode j := by
  by_cases hblock : IBLOCK j s.sb = IBLOCK i s.sb
  · rw [diskDinode, sb_write, hblock, block_write_self]
    split
    · rename_i hj
      rw [hj, dinodeAt_putDinode_same _ (Nat.mod_lt i (by decide)) hd]
    · rename_i hj
      have hne : j % IPB ≠ i % IPB := by
        simp only [IBLOCK] at hblock
        intro hmod
        have hj' := Nat.div_add_mod j IPB
        have hi' := Nat.div_add_mod i IPB
        rw [hmod, show j / IPB = i / IPB by omega] at hj'
        omega
      rw [dinodeAt_putDinode_ne _ _ hne, diskDinode, hblock]
  · have hne : j ≠ i := by
      rintro rfl
      exact hblock rfl
    rw [diskDinode_write hblock, if_neg hne]

theorem marked_write_bit {data : Block} {g : Bool → Bool → Bool} (b c : Nat)
    (hdata : ∀ k, data.bit k = g ((s.block (BBLOCK b s.sb)).bit k) (decide (k = b % BPB)))
    (hg : ∀ x, g x false = x) :
    (s.write (BBLOCK b s.sb) data).marked c = g (s.marked c) (decide (c = b)) := by
  by_cases hblock : BBLOCK c s.sb = BBLOCK b s.sb
  · rw [marked, sb_write, hblock, block_write_self, hdata, marked, hblock]
    congr 1
    simp only [BBLOCK, BPB, BSIZE] at hblock ⊢
    exact decide_eq_decide.mpr (by omega)
  · have hne : c ≠ b := by
      rintro rfl
      exact hblock rfl
    rw [marked_write hblock, decide_eq_false hne, hg]

theorem marked_write_setBit (b c : Nat) :
    (s.write (BBLOCK b s.sb) ((s.block (BBLOCK b s.sb)).setBit (b % BPB))).marked c =
      (s.marked c || decide (c = b)) :=
  marked_write_bit b c (Bytes.bit_setBit _ (Nat.mod_lt b (by decide))) Bool.or_false

theorem marked_write_clearBit (b c : Nat) :
    (s.write (BBLOCK b s.sb) ((s.block (BBLOCK b s.sb)).clearBit (b % BPB))).marked c =
      (s.marked c && !decide (c = b)) :=
  marked_write_bit (g := fun x y => x && !y) b c (Bytes.bit_clearBit _ (Nat.mod_lt b (by decide)))
    Bool.and_true

end Store

end Xv6
