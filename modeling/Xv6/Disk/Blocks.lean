import Xv6.Disk.Room
import Xv6.Lib.Tenancy

/-!
# Allocation of blocks

What `balloc` and `bfree` do to the bitmap, and who owns a block: the data blocks marked in the bitmap
are exactly those that a place names, each by one place.
-/

namespace Xv6

namespace Store

/-- The disk is laid out as the super block says and its metadata blocks are marked. -/
structure Formatted (s : Store) : Prop where
  layout : s.sb.Layout
  super : Superblock.ofBlock (s.block 1) = s.sb
  reserved : ∀ {b}, b < s.sb.datastart → s.marked b = true

/-- Panics of a consistent file system: out of space, a transaction that is too large or missing, or a
caller's mistake. -/
def MayPanic (e : StorePanic) : Prop := e ≠ .freeingFree ∧ e ≠ .bmapRange

variable {s s' : Store} {E : StorePanic → Prop}
variable {b : Nat}

theorem wp_bread {Q : Block → Store → Prop} (hQ : Q (s.block b) s) :
    Run.wp E (bread b) Q s := by
  rw [bread, Run.wp_bind, Run.wp_get, Run.wp_pure]
  exact hQ

theorem mayPanic_affords (s : Store) (m n : Nat) : s.Affords MayPanic m n :=
  ⟨fun h => absurd ⟨nofun, nofun⟩ h, fun h => absurd ⟨nofun, nofun⟩ h, fun h => absurd ⟨nofun, nofun⟩ h⟩

theorem wp_logWrite {data : Block} {Q : Unit → Store → Prop} (ha : s.Affords E 0 1)
    (hQ : Q () (s.write b data)) : Run.wp E (logWrite b data) Q s := by
  rw [logWrite, Run.wp_bind, Run.wp_get]
  split
  · rename_i hfull
    rw [Run.wp_throw]
    by_contra he
    have hroom := ha.room he
    rw [logCap] at hroom
    omega
  split
  · rename_i hout
    rw [Run.wp_throw]
    by_contra he
    exact absurd (ha.trans he) (by omega)
  · exact (Run.wp_set ..).mpr hQ

theorem freeBit_some {bp : Block} {b size k n bi : Nat} (h : freeBit bp b size n k = some bi) :
    (k ≤ bi ∧ bi < k + n) ∧ b + bi < size ∧ bp.bit bi = false ∧
      ∀ bj, k ≤ bj → bj < bi → bp.bit bj = true := by
  induction n generalizing k with
  | zero => cases h
  | succ n ih =>
    rw [freeBit] at h
    split_ifs at h with hsize hbit
    · obtain rfl := Option.some.inj h
      exact ⟨⟨Nat.le_refl _, by omega⟩, hsize, hbit, fun _ _ _ => by omega⟩
    · obtain ⟨hrange, hlt, hfree, hfull⟩ := ih h
      refine ⟨⟨by omega, by omega⟩, hlt, hfree, fun bj hk hbj => ?_⟩
      by_cases hbk : bj = k
      · rw [hbk]
        simpa using hbit
      · exact hfull bj (by omega) hbj

theorem freeBit_none {bp : Block} {b size k n : Nat} (h : freeBit bp b size n k = none) {bi : Nat}
    (hk : k ≤ bi) (hn : bi < k + n) (hsize : b + bi < size) : bp.bit bi = true := by
  induction n generalizing k with
  | zero => omega
  | succ n ih =>
    rw [freeBit] at h
    split_ifs at h with hlt hbit
    · by_cases hbk : bi = k
      · rw [hbk]
        simpa using hbit
      · exact ih h (by omega) (by omega)
    · omega

/-- The state after `balloc` has returned `b`. -/
def alloc (s : Store) (b : Nat) : Store :=
  (s.write (BBLOCK b s.sb) ((s.block (BBLOCK b s.sb)).setBit (b % BPB))).write b Bytes.zero

theorem wp_ballocFrom {n start : Nat} {Q : Nat → Store → Prop} (ha : s.Affords E 1 2)
    (hstart : start % BPB = 0) (hend : s.sb.size ≤ start + n * BPB) (hbelow : ∀ c, c < start → c < s.sb.size → s.marked c = true)
    (hQ : ∀ b, b < s.sb.size → s.marked b = false → (∀ c, c < b → s.marked c = true) →
      Q b (s.alloc b)) :
    Run.wp E (ballocFrom (List.range' start n BPB)) Q s := by
  induction n generalizing start with
  | zero =>
    rw [List.range'_zero, ballocFrom, Run.wp_throw]
    by_contra he
    obtain ⟨c, hc⟩ := Finset.card_pos.mp (ha.free he)
    obtain ⟨hsize, hfree⟩ := Finset.mem_filter.mp hc
    have hlt := Finset.mem_range.mp hsize
    rw [hbelow c (by omega) hlt] at hfree
    cases hfree
  | succ n ih =>
    -- A bit of this bitmap block is the bit of a block from `start` on.
    have hbit (bi : Nat) (hbi : bi < BPB) :
        BBLOCK (start + bi) s.sb = BBLOCK start s.sb ∧ (start + bi) % BPB = bi := by
      simp only [BBLOCK, BPB, BSIZE] at hstart hbi ⊢
      omega
    rw [List.range'_succ, ballocFrom, Run.wp_bind, Run.wp_get, Run.wp_bind]
    refine wp_bread ?_
    cases hfree : freeBit (s.block (BBLOCK start s.sb)) start s.sb.size BPB 0 with
    | some bi =>
      obtain ⟨⟨_, hbi⟩, hlt, hzero, hfull⟩ := freeBit_some hfree
      have hbi : bi < BPB := by omega
      obtain ⟨hblock, hmod⟩ := hbit bi hbi
      have hmark : s.marked (start + bi) = false := by rw [marked, hblock, hmod, hzero]
      have hleast : ∀ c, c < start + bi → s.marked c = true := by
        intro c hc
        by_cases hcs : c < start
        · exact hbelow c hcs (by omega)
        · obtain ⟨bj, rfl⟩ := Nat.exists_eq_add_of_le (Nat.le_of_not_lt hcs)
          obtain ⟨hblock', hmod'⟩ := hbit bj (by omega)
          rw [marked, hblock', hmod']
          exact hfull bj (Nat.zero_le _) (by omega)
      have hpost := hQ (start + bi) hlt hmark hleast
      rw [alloc, hblock, hmod] at hpost
      rw [Run.wp_bind]
      refine wp_logWrite (ha.mono (Nat.zero_le _) (by decide)) ?_
      rw [Run.wp_bind]
      refine wp_logWrite ?_ ((Run.wp_pure ..).mpr hpost)
      exact ⟨fun _ => Nat.zero_le _, fun he => le_trans
        (Nat.add_le_add_right (length_absorb_le ..) 1) (ha.room he), ha.trans⟩
    | none =>
      refine ih ?_ ?_ ?_
      · simpa using hstart
      · rw [Nat.succ_mul] at hend
        omega
      · intro c hc hsize
        by_cases hcs : c < start
        · exact hbelow c hcs hsize
        · obtain ⟨bi, rfl⟩ := Nat.exists_eq_add_of_le (Nat.le_of_not_lt hcs)
          obtain ⟨hblock, hmod⟩ := hbit bi (by omega)
          rw [marked, hblock, hmod]
          exact freeBit_none hfree (Nat.zero_le _) (by omega) hsize

/-- `balloc` returns the first free block. -/
theorem wp_balloc_least (ha : s.Affords E 1 2) {Q : Nat → Store → Prop}
    (hQ : ∀ b, b < s.sb.size → s.marked b = false → (∀ c, c < b → s.marked c = true) → Q b (s.alloc b)) :
    Run.wp E balloc Q s := by
  have hend : s.sb.size ≤ 0 + (s.sb.size + BPB - 1) / BPB * BPB := by
    simp only [BPB, BSIZE]
    omega
  rw [balloc, Run.wp_bind, Run.wp_get]
  exact wp_ballocFrom ha rfl hend (fun c hc => absurd hc (Nat.not_lt_zero c)) hQ

theorem wp_balloc (h : s.Formatted) (ha : s.Affords E 1 2) {Q : Nat → Store → Prop}
    (hQ : ∀ b, s.dataArea b → s.marked b = false → Q b (s.alloc b)) : Run.wp E balloc Q s := by
  refine wp_balloc_least ha fun b hb hfree _ => hQ b ⟨?_, hb⟩ hfree
  by_contra hlt
  rw [h.reserved (by omega)] at hfree
  cases hfree

/-- The state after `bfree`. -/
def free (s : Store) (b : Nat) : Store :=
  s.write (BBLOCK b s.sb) ((s.block (BBLOCK b s.sb)).clearBit (b % BPB))

theorem wp_bfree (h : Superblock.ofBlock (s.block 1) = s.sb) (hb : s.marked b = true) (ha : s.Affords E 0 1)
    {Q : Unit → Store → Prop} (hQ : Q () (s.free b)) : Run.wp E (bfree b) Q s := by
  have hsb : { s with sb := Superblock.ofBlock (s.block 1) } = s := by rw [h]
  rw [bfree, Run.wp_bind, readsb, Run.wp_modify, hsb, Run.wp_bind, Run.wp_get, Run.wp_bind]
  refine wp_bread ?_
  rw [marked] at hb
  rw [hb, if_neg (by decide)]
  exact wp_logWrite ha hQ

/-- Everything but the bitmap and the data blocks is the same. -/
structure Keeps (s s' : Store) : Prop where
  sb : s'.sb = s.sb
  super : s'.block 1 = s.block 1
  inode : s'.inode = s.inode
  dinode : ∀ {i}, i < s.sb.ninodes → s'.diskDinode i = s.diskDinode i

theorem Keeps.trans {t : Store} (h : Keeps s s') (h' : Keeps s' t) : Keeps s t where
  sb := h'.sb.trans h.sb
  super := h'.super.trans h.super
  inode := h'.inode.trans h.inode
  dinode hi := (h'.dinode (by rwa [h.sb])).trans (h.dinode hi)

theorem keeps_write (h : s.sb.Layout) (hb : s.sb.bmapstart ≤ b) (data : Block) :
    Keeps s (s.write b data) where
  sb := rfl
  super := by
    have hboot := h.boot
    have hlog := h.log
    have hstart := h.inodestart
    exact block_write_ne s data (by omega)
  inode := rfl
  dinode {i} hi := by
    have hlt := h.iblock_lt hi
    exact diskDinode_write (by omega)

theorem keeps_alloc (h : s.sb.Layout) (hb : s.dataArea b) : Keeps s (s.alloc b) := by
  have hbitmap := keeps_write h (Superblock.Layout.le_bblock s.sb b)
    ((s.block (BBLOCK b s.sb)).setBit (b % BPB))
  refine hbitmap.trans (keeps_write ?_ ?_ _)
  · exact h
  · exact le_trans h.bmapstart_le hb.1

theorem keeps_free (h : s.sb.Layout) (b : Nat) : Keeps s (s.free b) :=
  keeps_write h (Superblock.Layout.le_bblock s.sb b) _

theorem marked_alloc_of_ne {b c : Nat} (hne : BBLOCK c s.sb ≠ b) :
    (s.alloc b).marked c = (s.marked c || decide (c = b)) := by
  rw [alloc, ← marked_write_setBit]
  exact marked_write hne

theorem marked_alloc (h : s.sb.Layout) {b c : Nat} (hb : s.dataArea b) (hc : c < s.sb.size) :
    (s.alloc b).marked c = (s.marked c || decide (c = b)) := by
  have hlt := h.bblock_lt hc
  have hle := hb.1
  exact marked_alloc_of_ne (by omega)

theorem freeBlocks_alloc (h : s.sb.Layout) (hb : s.dataArea b) (hfree : s.marked b = false) :
    (s.alloc b).freeBlocks + 1 = s.freeBlocks := by
  have hmem : b ∈ (Finset.range s.sb.size).filter fun c => s.marked c = false :=
    Finset.mem_filter.mpr ⟨Finset.mem_range.mpr hb.2, hfree⟩
  rw [freeBlocks, freeBlocks, ← Finset.card_erase_add_one hmem]
  congr 2
  ext c
  change c ∈ (Finset.range s.sb.size).filter _ ↔ _
  simp only [Finset.mem_filter, Finset.mem_erase, Finset.mem_range]
  by_cases hc : c < s.sb.size
  · rw [marked_alloc h hb hc]
    simp [hc, and_comm]
  · simp [hc]

theorem spends_alloc (h : s.sb.Layout) (hb : s.dataArea b) (hfree : s.marked b = false) :
    Spends s (s.alloc b) 1 2 where
  free := (freeBlocks_alloc h hb hfree).ge
  log := by
    have hfirst := length_absorb_le s.lh (BBLOCK b s.sb)
    have hsecond := length_absorb_le (absorb s.lh (BBLOCK b s.sb)) b
    change (absorb (absorb s.lh (BBLOCK b s.sb)) b).length ≤ _
    omega
  logged _ hc := subset_absorb _ _ (subset_absorb _ _ hc)
  logsize := rfl
  outstanding := rfl

theorem mem_lh_alloc (s : Store) (b : Nat) : b ∈ (s.alloc b).lh := mem_lh_write ..

theorem marked_free (b c : Nat) : (s.free b).marked c = (s.marked c && !decide (c = b)) :=
  marked_write_clearBit b c

theorem block_alloc_self (s : Store) (b : Nat) : (s.alloc b).block b = Bytes.zero :=
  block_write_self _ _ _

theorem block_alloc_ne (h : s.sb.Layout) {b c : Nat} (hb : b < s.sb.size) (hc : s.sb.datastart ≤ c)
    (hne : c ≠ b) : (s.alloc b).block c = s.block c := by
  have hlt := h.bblock_lt hb
  rw [alloc, block_write_ne _ _ hne, block_write_ne _ _ (by omega)]

theorem block_free (h : s.sb.Layout) {b c : Nat} (hb : b < s.sb.size) (hc : s.sb.datastart ≤ c) :
    (s.free b).block c = s.block c := by
  have hlt := h.bblock_lt hb
  rw [free, block_write_ne _ _ (by omega)]

variable {ι : Type} {name : ι → Option Nat}

/-- A data block that is marked in the bitmap. -/
def inUse (s : Store) (b : Nat) : Prop := s.dataArea b ∧ s.marked b = true

/-- Data blocks in use are those that `name` assigns to a place. -/
structure Owned (s : Store) (name : ι → Option Nat) : Prop where
  formatted : s.Formatted
  tenancy : Tenancy name s.inUse

namespace Owned

theorem dataArea (h : s.Owned name) {x : ι} (hx : name x = some b) : s.dataArea b :=
  (h.tenancy.used_of_name hx).1

theorem formatted_of_keeps (h : s.Formatted) (hk : Keeps s s')
    (hmarked : ∀ b, b < s.sb.datastart → s'.marked b = s.marked b) : s'.Formatted where
  layout := by
    rw [hk.sb]
    exact h.layout
  super := by rw [hk.super, hk.sb, h.super]
  reserved {b} hb := by
    rw [hk.sb] at hb
    rw [hmarked b hb, h.reserved hb]

theorem inUse_congr (hsb : s'.sb = s.sb) (hm : s'.marked b = s.marked b) :
    s'.inUse b ↔ s.inUse b := by
  rw [inUse, inUse, hm, Store.dataArea, Store.dataArea, hsb]

section

variable (h : s.Owned name)
include h

theorem alloc [DecidableEq ι] {x : ι} (hx : name x = none) (hb : s.dataArea b)
    (hfree : s.marked b = false) :
    (s.alloc b).Owned (Function.update name x (some b)) where
  formatted := by
    refine formatted_of_keeps h.formatted (keeps_alloc h.formatted.layout hb) fun c hc => ?_
    have hle := Superblock.Layout.datastart_le s.sb
    have hne : c ≠ b := fun hcb => absurd hb.1 (by omega)
    simp [marked_alloc h.formatted.layout hb (show c < s.sb.size by omega), hne]
  tenancy := by
    refine h.tenancy.take hx ?_ fun c => ?_
    · rintro ⟨_, hm⟩
      rw [hfree] at hm
      cases hm
    · by_cases hc : c < s.sb.size
      · simp only [inUse, Store.dataArea, marked_alloc h.formatted.layout hb hc,
          (keeps_alloc h.formatted.layout hb).sb, Bool.or_eq_true, decide_eq_true_eq]
        constructor
        · rintro ⟨harea, hm | rfl⟩
          · exact .inl ⟨harea, hm⟩
          · exact .inr rfl
        · rintro (⟨harea, hm⟩ | rfl)
          · exact ⟨harea, .inl hm⟩
          · exact ⟨hb, .inr rfl⟩
      · have hne : c ≠ b := fun hcb => absurd hb.2 (by omega)
        simp [inUse, Store.dataArea, (keeps_alloc h.formatted.layout hb).sb, hc, hne]

theorem free [DecidableEq ι] {x : ι} (hx : name x = some b) :
    (s.free b).Owned (Function.update name x none) where
  formatted := by
    refine formatted_of_keeps h.formatted (keeps_free h.formatted.layout b) fun c hc => ?_
    have harea := h.dataArea hx
    have hne : c ≠ b := fun hcb => absurd harea.1 (by omega)
    simp [marked_free, hne]
  tenancy := by
    refine h.tenancy.drop hx fun c => ?_
    simp only [inUse, Store.dataArea, marked_free, (keeps_free h.formatted.layout b).sb,
      Bool.and_eq_true, Bool.not_eq_true', decide_eq_false_iff_not, and_assoc]

theorem write {data : Block} (hone : b ≠ 1)
    (hbitmap : ∀ c, c < s.sb.size → BBLOCK c s.sb ≠ b) : (s.write b data).Owned name where
  formatted := by
    refine ⟨h.formatted.layout, ?_, fun {c} hc => ?_⟩
    · rw [block_write_ne s data hone.symm]
      exact h.formatted.super
    · have hle := Superblock.Layout.datastart_le s.sb
      rw [marked_write (hbitmap c (lt_of_lt_of_le hc hle))]
      exact h.formatted.reserved hc
  tenancy := by
    refine h.tenancy.congr (fun _ => rfl) fun c => ?_
    by_cases hc : c < s.sb.size
    · exact inUse_congr (sb_write s b data) (marked_write (hbitmap c hc))
    · simp [inUse, Store.dataArea, hc]

theorem write_data (hb : s.dataArea b) (data : Block) :
    (s.write b data).Owned name := by
  have hlayout := h.formatted.layout
  have hle := hb.1
  have hbmap := hlayout.bmapstart_le
  have hstart := hlayout.inodestart
  have hlog := hlayout.log
  have hboot := hlayout.boot
  refine h.write (by omega) fun c hc => ?_
  have hlt := hlayout.bblock_lt hc
  omega

theorem write_iblock {i : Nat} (hi : i < s.sb.ninodes) (data : Block) :
    (s.write (IBLOCK i s.sb) data).Owned name := by
  have hlt := h.formatted.layout.iblock_lt hi
  have hge := h.formatted.layout.le_iblock i
  refine h.write (by omega) fun c _ => ?_
  have hle := Superblock.Layout.le_bblock s.sb c
  omega

theorem of_blocks (hsb : s'.sb = s.sb) (hblock : s'.block = s.block) :
    s'.Owned name where
  formatted := by
    refine ⟨hsb ▸ h.formatted.layout, by rw [hblock, hsb, h.formatted.super], fun {b} hb => ?_⟩
    rw [marked, hblock, hsb]
    exact h.formatted.reserved (hsb ▸ hb)
  tenancy := h.tenancy.congr (fun _ => rfl) fun b =>
    inUse_congr hsb (by rw [marked, marked, hblock, hsb])

end

end Owned

end Store

end Xv6
