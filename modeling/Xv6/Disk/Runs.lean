import Xv6.Disk.Free

/-!
# Runs of inode operations

Block ownership, block maps without holes and the write-through inode cache hold in every run of
inode operations.
-/

namespace Xv6

open Run (wp_bind wp_get wp_mono wp_pure wp_set wp_throw)

namespace Store

variable {s s' : Store} {i : Nat}

theorem wp_iget (h : s.Sound) :
    Run.wp MayPanic (iget i) (fun _ s' => s'.Sound ∧ ∀ j, s.held j → s'.held j) s := by
  rw [iget, wp_bind, wp_get]
  dsimp only
  split
  · rename_i href
    rw [wp_set]
    refine ⟨h.setRef rfl fun hv => hv, fun j hj => ?_⟩
    by_cases hji : j = i
    · subst hji
      rw [held, inode_setIncore_self]
      exact ⟨Nat.succ_pos _, hj.2⟩
    · rwa [held, inode_setIncore_ne hji]
  · rename_i href
    split
    · exact (wp_throw ..).mpr ⟨nofun, nofun⟩
    · rw [wp_set]
      refine ⟨h.setRef rfl nofun, fun j hj => ?_⟩
      have hji : j ≠ i := by
        rintro rfl
        exact href hj.1
      rwa [held, inode_setIncore_ne hji]

theorem wp_ilock (h : s.Sound) (hi : i < s.sb.ninodes) :
    Run.wp MayPanic (ilock i) (fun _ s' => s'.Sound) s := by
  rw [ilock, wp_bind, wp_get]
  dsimp only
  split
  · exact (wp_throw ..).mpr ⟨nofun, nofun⟩
  split
  · exact (wp_pure ..).mpr h
  · rename_i hvalid
    rw [wp_bind]
    refine wp_bread ?_
    rw [wp_bind, wp_set]
    split
    · exact (wp_throw ..).mpr ⟨nofun, nofun⟩
    · rename_i htype
      rw [wp_pure]
      exact h.load hi (by simpa using hvalid) htype

theorem freshDinode_fits (type : Int) : (freshDinode type).Fits where
  type := short_short type
  major := rfl
  minor := rfl
  nlink := rfl
  size := Nat.two_pow_pos 32
  addrs _ := Nat.two_pow_pos 32

section

variable (h : s.Sound)
include h

theorem wp_iallocFrom {type : Int} {inums : List Nat}
    (hinums : ∀ inum ∈ inums, inum < s.sb.ninodes) :
    Run.wp MayPanic (iallocFrom type inums) (fun _ s' => s'.Sound) s := by
  induction inums with
  | nil => exact (wp_throw ..).mpr ⟨nofun, nofun⟩
  | cons inum rest ih =>
    rw [iallocFrom, wp_bind, wp_get, wp_bind]
    refine wp_bread ?_
    split
    · rename_i hfree
      have hlt := hinums inum List.mem_cons_self
      -- An inode in memory is allocated on the disk, too.
      have hinvalid : (s.inode inum).valid = false := by
        by_contra hv
        rw [Bool.not_eq_false] at hv
        have htype := (h.valid hv).2
        rw [cur_of_valid hv, ← h.through hv] at htype
        exact htype hfree
      have hnames : ∀ q, s.names (inum, q) = none := by
        intro q
        refine if_neg ?_
        rintro ⟨⟨_, htype⟩, _⟩
        rw [cur, hinvalid, if_neg (by decide)] at htype
        exact htype hfree
      have hmade := h.replace hlt (freshDinode_fits type) hnames (fun _ => ⟨rfl, fun _ => rfl⟩)
        (n := s.inode inum) hinvalid
      rw [wp_bind]
      refine wp_logWrite (mayPanic_affords ..) ?_
      rw [wp_bind]
      have hself : (s.write (IBLOCK inum s.sb) (putDinode (s.block (IBLOCK inum s.sb)) (inum % IPB)
          (freshDinode type))).setIncore inum (s.inode inum) =
          s.write (IBLOCK inum s.sb) (putDinode (s.block (IBLOCK inum s.sb)) (inum % IPB)
            (freshDinode type)) := by
        simp [setIncore, write]
      rw [hself] at hmade
      exact wp_mono (wp_iget hmade) fun _ s2 h2 => (wp_pure ..).mpr h2.1
    · exact ih fun inum' hin => hinums inum' (List.mem_cons_of_mem inum hin)

theorem wp_setNode (hi : (s.inode i).valid = true) (major minor nlink : Int) :
    Run.wp MayPanic (Op.prog (.setNode i major minor nlink)) (fun _ s' => s'.Sound) s := by
  have htype : (s.inode i).d.type ≠ 0 := by
    have hne := (h.valid hi).2
    rwa [cur_of_valid hi] at hne
  have hfits := h.fits hi
  simp only [Op.prog]
  rw [wp_bind, modifyInode, Run.wp_modify]
  refine wp_iupdate (mayPanic_affords ..) ?_
  have hinv := h.setD hi (d := { (s.inode i).d with
    major := short major, minor := short minor, nlink := short nlink }) htype rfl
  refine hinv.updated ?_ ?_ ?_ ?_
  · rw [inode_setIncore_self]
    exact hi
  · rw [inode_setIncore_self]
    exact ⟨hfits.type, short_short _, short_short _, short_short _, hfits.size, hfits.addrs⟩
  · intro j hj
    by_cases hji : j = i
    · subst hji
      rw [cur_of_valid (by rw [inode_setIncore_self]; exact hi), inode_setIncore_self]
      exact (h.mapped_valid hi).congr fun q => ptr_of_addrs rfl q
    · rw [allocated, cur_setIncore_ne hji] at hj
      rw [cur_setIncore_ne hji]
      exact h.mapped hj
  · intro j hji hj
    rw [inode_setIncore_ne hji] at hj ⊢
    exact h.through hj

theorem wp_dirlookup (hi : s.held i) {name : List UInt8} :
    Run.wp MayPanic (dirlookup i name) (fun _ s' => s'.Sound ∧ s'.held i) s := by
  rw [dirlookup, wp_bind, wp_get]
  split
  · exact (wp_throw ..).mpr ⟨nofun, nofun⟩
  · rw [wp_bind]
    refine wp_mono (wp_direntLoop (E := MayPanic) (e := .dirlookupRead) ⟨nofun, nofun⟩ (h.mapped_valid hi.2)) fun r s1 h1 => ?_
    subst h1
    dsimp only
    split
    · rw [wp_pure]
      exact ⟨h, hi⟩
    · rw [wp_bind]
      exact wp_mono (wp_iget h) fun _ s2 h2 => (wp_pure ..).mpr ⟨h2.1, h2.2 i hi⟩

theorem wp_dirlink (hi : s.held i) {name : List UInt8} {inum : Nat} :
    Run.wp MayPanic (dirlink i name inum) (fun _ s' => s'.Sound) s := by
  rw [dirlink, wp_bind]
  refine wp_mono (wp_dirlookup h hi) fun found s1 h1 => ?_
  obtain ⟨h1, hi1⟩ := h1
  split
  · rw [wp_bind]
    exact wp_mono (wp_iput h1) fun _ s2 h2 => (wp_pure ..).mpr h2
  · rw [wp_bind, wp_get, wp_bind]
    refine wp_mono (wp_direntLoop (E := MayPanic) (e := .dirlinkRead) ⟨nofun, nofun⟩ (h1.mapped_valid hi1.2)) fun r s2 h2 => ?_
    subst h2
    rw [wp_bind]
    refine wp_mono (wp_writei h1 hi1.2) fun n s3 h3 => ?_
    split
    · exact (wp_throw ..).mpr ⟨nofun, nofun⟩
    · exact (wp_pure ..).mpr h3

theorem wp_clearDirent (hi : s.held i) {off : Nat} :
    Run.wp MayPanic (clearDirent i off) (fun _ s' => s'.Sound) s := by
  rw [clearDirent, wp_bind]
  refine wp_mono (wp_writei h hi.2) fun n s1 h1 => ?_
  split
  · exact (wp_throw ..).mpr ⟨nofun, nofun⟩
  · exact (wp_pure ..).mpr h1

theorem wp_prog {op : Op} (hop : op.ready s) :
    Run.wp MayPanic op.prog (fun _ s' => s'.Sound) s := by
  cases op with
  | beginOp | endOp =>
    simp only [Op.prog]
    rw [Run.wp_modify]
    exact h.of_cur rfl rfl (fun _ => rfl) fun hj => ⟨h.valid hj, h.through hj⟩
  | ialloc type =>
    simp only [Op.prog]
    rw [wp_bind, ialloc, wp_bind, wp_get]
    refine wp_mono (wp_iallocFrom h fun inum hin => ?_) fun _ s1 h1 => (wp_pure ..).mpr h1
    have hin := List.mem_range'_1.mp hin
    omega
  | iget j => exact wp_mono (wp_iget h) fun _ _ h1 => h1.1
  | ilock j => exact wp_ilock h hop
  | iput j => exact wp_iput h
  | setNode j major minor nlink => exact wp_setNode h hop.2 major minor nlink
  | readi j off n =>
    simp only [Op.prog]
    rw [wp_bind]
    exact wp_readi (h.mapped_valid hop.2) ((wp_pure ..).mpr h)
  | writei j off src =>
    simp only [Op.prog]
    rw [wp_bind]
    exact wp_mono (wp_writei h hop.2) fun _ s1 h1 => (wp_pure ..).mpr h1
  | dirlink j name inum =>
    simp only [Op.prog]
    rw [wp_bind]
    exact wp_mono (wp_dirlink h hop) fun _ s1 h1 => (wp_pure ..).mpr h1
  | clearDirent j off => exact wp_clearDirent h hop
  | itrunc j => exact wp_mono (wp_itrunc h hop.2) fun _ _ h1 => h1.1

theorem Sound.step {op : Op} (hs : step s op = .next s') : s'.Sound := by
  rw [Store.step] at hs
  split at hs
  · rename_i hop
    split at hs
    · rename_i r t hprog
      cases hs
      exact Run.wp_ok (wp_prog h hop) hprog
    · cases hs
  · cases hs

theorem Sound.panic {op : Op} {e : StorePanic} (hs : Store.step s op = .panic e) :
    MayPanic e := by
  rw [Store.step] at hs
  split at hs
  · rename_i hop
    split at hs
    · cases hs
    · rename_i hprog
      cases hs
      exact Run.wp_error (wp_prog h hop) hprog
  · cases hs

end

theorem Sound.reach {s₀ : Store} (h₀ : s₀.Sound) (h : Reach Store.step (fun _ _ => True) s₀ s) :
    s.Sound := h.invariant h₀ fun _ _ _ hs _ hstep => hs.step hstep

/-- A small disk without inodes: boot, super, log, inode and bitmap block and three data blocks. -/
def blankSuper : Superblock := ⟨8, 3, 8, 1, 2, 3, 4⟩

def blank : Store where
  sb := blankSuper
  block b :=
    if b = 1 then
      ((((((Bytes.zero.putWord 0 8).putWord 1 3).putWord 2 8).putWord 3 1).putWord 4 2).putWord 5 3).putWord 6 4
    else if b = 4 then Bytes.zero.put 0 31
    else Bytes.zero
  inode _ := ⟨0, false, ⟨0, 0, 0, 0, 0, fun _ => 0⟩⟩
  outstanding := 0
  lh := []
  logsize := LOGSIZE
  devread _ := none
  devwrite _ := none

theorem sound_of_empty (hf : s.Formatted) (htype : ∀ i, i < s.sb.ninodes → (s.diskDinode i).type = 0)
    (hinode : ∀ i, (s.inode i).valid = false) (hfree : ∀ b, s.dataArea b → s.marked b = false) :
    s.Sound := by
  have halloc (i : Nat) : ¬s.allocated i := by
    rintro ⟨hi, hne⟩
    rw [cur, hinode, if_neg Bool.false_ne_true] at hne
    exact hne (htype i hi)
  have hnames (x : Nat × Place) (b : Nat) : s.names x ≠ some b := by
    intro hx
    exact halloc x.1 (names_eq_some.mp hx).1
  have hvalid {i : Nat} (hi : (s.inode i).valid = true) : False := by
    rw [hinode] at hi
    cases hi
  refine
    { owned := ⟨hf, ?_, ?_, ?_⟩
      valid := fun hi => (hvalid hi).elim
      mapped := fun hi => absurd hi (halloc _)
      through := fun hi => (hvalid hi).elim }
  · exact fun hx => absurd hx (hnames _ _)
  · exact fun hx => absurd hx (hnames _ _)
  · rintro b ⟨hb, hm⟩
    rw [hfree b hb] at hm
    cases hm

theorem blank_sound : blank.Sound := by
  have hmarked : ∀ b, b < 8 → blank.marked b = decide (b < 5) := by decide
  have hdata : blank.sb.datastart = 5 := rfl
  refine sound_of_empty ⟨?_, ?_, ?_⟩ ?_ (fun _ => rfl) ?_
  · exact ⟨by decide, by decide, by decide, by decide, by decide, by decide⟩
  · decide +kernel
  · intro b hb
    rw [hdata] at hb
    rw [hmarked b (by omega)]
    exact decide_eq_true hb
  · intro i hi
    have hblock : IBLOCK i blank.sb = 3 := by
      simp only [IBLOCK, blank, blankSuper, IPB, BSIZE, DINODESIZE] at hi ⊢
      omega
    rw [diskDinode, hblock]
    change (dinodeAt Bytes.zero (i % IPB)).type = 0
    simp [dinodeAt, short]
  · rintro b ⟨hge, hlt⟩
    rw [hmarked b hlt]
    rw [hdata] at hge
    exact decide_eq_false (by omega)

/-- A file is created, locked and written. -/
def makeFile : List Op :=
  [.beginOp, .ialloc T_FILE, .ilock 1, .setNode 1 0 0 1, .writei 1 0 [104, 105], .endOp]

theorem makeFile_runs : ∃ s, runEvents Store.step blank makeFile = .next s ∧ s.sb = blankSuper ∧
    s.marked 5 = true ∧ s.held 1 ∧ s.outstanding = 0 := by
  refine Outcome.exists_of_holds (Q := fun s : Store => s.sb = blankSuper ∧ s.marked 5 = true ∧
    s.held 1 ∧ s.outstanding = 0) ?_
  decide +kernel

/-- A data block is marked exactly when one place names it; metadata blocks are marked and have no
owner.  So `bfree` finds every block marked, `balloc` returns data blocks and files share none. -/
theorem block_ownership {s₀ : Store} (h₀ : s₀.Sound) (h : Reach Store.step (fun _ _ => True) s₀ s) :
    (∀ b, s.dataArea b → (s.marked b = true ↔ ∃! x, s.names x = some b) ∧
      (s.marked b = false → ∀ x, s.names x ≠ some b)) ∧
    (∀ b, ¬ s.dataArea b → (b < s.sb.datastart → s.marked b = true) ∧ ∀ x, s.names x ≠ some b) ∧
    (∀ op, Store.step s op ≠ .panic .freeingFree) ∧
    (∀ b s', balloc s = .ok (b, s') → s.dataArea b) ∧
    ∀ i j p q b, i ≠ j → s.names (i, p) = some b → s.names (j, q) ≠ some b := by
  have hsound := h₀.reach h
  have htenancy := hsound.owned.tenancy
  refine ⟨fun b hb => ⟨⟨fun hm => ?_, ?_⟩, ?_⟩, fun b hb => ⟨hsound.owned.formatted.reserved, ?_⟩,
    fun op hpanic => (hsound.panic hpanic).1 rfl, fun b s' hrun => ?_, fun i j p q b hij hi hj => ?_⟩
  · obtain ⟨x, hx⟩ := htenancy.named ⟨hb, hm⟩
    exact ⟨x, hx, fun y hy => htenancy.unique hy hx⟩
  · rintro ⟨x, hx, _⟩
    exact (htenancy.used_of_name hx).2
  · intro hm x hx
    have huse := (htenancy.used_of_name hx).2
    rw [hm] at huse
    cases huse
  · exact fun x hx => hb (hsound.owned.dataArea hx)
  · exact Run.wp_ok (Q := fun b _ => s.dataArea b)
      (wp_balloc hsound.owned.formatted (mayPanic_affords ..) fun b hb _ => hb) hrun
  · exact hij (congrArg Prod.fst (htenancy.unique hi hj))

/-- The file that `makeFile` writes owns the first data block. -/
theorem block_ownership_makeFile : ∃ s, runEvents Store.step blank makeFile = .next s ∧
    ∃! x, s.names x = some 5 := by
  obtain ⟨s, hs, hsb, hm, _⟩ := makeFile_runs
  have hreach : Reach Store.step (fun _ _ => True) blank s :=
    .of_runEvents .init makeFile (Along.of_forall (fun _ _ => trivial) _ _) hs
  have harea : s.dataArea 5 := by
    rw [dataArea, hsb]
    decide
  exact ⟨s, hs, ((block_ownership blank_sound hreach).1 5 harea).1.mp hm⟩

/-- Every allocated inode has exactly the blocks of its size, the copies in memory are those of the
disk, and `readi` returns without a change, whether or not a transaction is open. -/
theorem no_holes_write_through {s₀ : Store} (h₀ : s₀.Sound)
    (h : Reach Store.step (fun _ _ => True) s₀ s) :
    (∀ i, s.allocated i → Mapped s.block (s.cur i) (blocksOf (s.cur i).size)) ∧
    (∀ i, (s.inode i).valid = true → s.diskDinode i = (s.inode i).d) ∧
    ∀ i off n, s.held i → ∃ r, readi i off n s = .ok (r, s) := by
  have hsound := h₀.reach h
  refine ⟨fun _ => hsound.mapped, fun _ => hsound.through, fun i off n hi => ?_⟩
  have hread : Run.wp (fun _ => False) (readi i off n) (fun _ s' => s' = s) s :=
    wp_readi (hsound.mapped_valid hi.2) rfl
  obtain ⟨r, s', hrun, rfl⟩ := Run.exists_of_wp hread
  exact ⟨r, hrun⟩

theorem no_holes_write_through_makeFile : ∃ s, runEvents Store.step blank makeFile = .next s ∧
    s.held 1 ∧ s.outstanding = 0 ∧ s.diskDinode 1 = (s.inode 1).d ∧
    ∃ r, readi 1 0 2 s = .ok (r, s) := by
  obtain ⟨s, hs, _, _, hheld, hout⟩ := makeFile_runs
  have hreach : Reach Store.step (fun _ _ => True) blank s :=
    .of_runEvents .init makeFile (Along.of_forall (fun _ _ => trivial) _ _) hs
  obtain ⟨_, hthrough, hread⟩ := no_holes_write_through blank_sound hreach
  exact ⟨s, hs, hheld, hout, hthrough 1 hheld.2, hread 1 0 2 hheld⟩

/-- A file with an indirect block. -/
def longFile : Dinode := ⟨T_FILE, 0, 0, 1, 13 * BSIZE, fun k => 5 + k.val⟩

/-- A file of one block, which is the indirect block of `longFile`. -/
def thief : Dinode := ⟨T_FILE, 0, 0, 1, BSIZE, fun k => if k = 0 then 17 else 0⟩

def crossLinked : Store :=
  { blank with
    sb := ⟨32, 27, 8, 1, 2, 3, 4⟩
    block := fun b =>
      if b = 3 then putDinode (putDinode Bytes.zero 1 longFile) 2 thief
      else if b = 17 then Bytes.zero.putWord 0 18
      else Bytes.zero
    inode := fun i =>
      if i = 1 then ⟨1, true, longFile⟩
      else if i = 2 then ⟨1, true, thief⟩
      else blank.inode i
    outstanding := 1 }

theorem longFile_fits : longFile.Fits := by
  refine ⟨rfl, rfl, rfl, rfl, by decide, fun k => ?_⟩
  have hk : k.val < 13 := k.isLt
  change 5 + k.val < 2 ^ 32
  omega

theorem thief_fits : thief.Fits := by
  refine ⟨rfl, rfl, rfl, rfl, by decide, fun k => ?_⟩
  simp only [thief]
  split <;> decide

theorem crossLinked_dinode {i : Nat} (hi : i < 8) : crossLinked.diskDinode i =
    if i = 1 then longFile else if i = 2 then thief else dinodeAt Bytes.zero i := by
  have hblock : IBLOCK i crossLinked.sb = 3 := by
    simp only [IBLOCK, crossLinked, IPB, BSIZE, DINODESIZE]
    omega
  have hmod : i % IPB = i := Nat.mod_eq_of_lt hi
  have hthree : crossLinked.block 3 = putDinode (putDinode Bytes.zero 1 longFile) 2 thief := rfl
  rw [diskDinode, hblock, hthree, hmod]
  by_cases h2 : i = 2
  · subst h2
    exact dinodeAt_putDinode_same _ (by decide) thief_fits
  · rw [dinodeAt_putDinode_ne _ _ h2, if_neg h2]
    by_cases h1 : i = 1
    · subst h1
      exact dinodeAt_putDinode_same _ (by decide) longFile_fits
    · rw [dinodeAt_putDinode_ne _ _ h1, if_neg h1]

theorem longFile_mapped : Mapped crossLinked.block longFile (blocksOf longFile.size) := by
  refine ⟨by decide, fun p => ?_⟩
  cases p with
  | slot k =>
    have hk : k.val < 13 := k.isLt
    change 5 + k.val ≠ 0 ↔ k.val < 13
    omega
  | entry j =>
    have hptr : ptr crossLinked.block longFile (.entry j) = (Bytes.zero.putWord 0 18 : Block).word j := rfl
    rw [hptr]
    by_cases hj : j = 0
    · subst hj
      decide
    · rw [Bytes.word_putWord_ne _ _ _ _ hj, Bytes.word_zero]
      refine iff_of_false (not_not.mpr rfl) ?_
      change ¬ 12 + j < 13
      omega

theorem thief_mapped : Mapped crossLinked.block thief (blocksOf thief.size) := by
  refine ⟨by decide, fun p => ?_⟩
  cases p with
  | slot k =>
    change (if k = 0 then 17 else 0) ≠ 0 ↔ k.val < 1
    by_cases hk : k = 0
    · subst hk
      decide
    · have hne : k.val ≠ 0 := fun h => hk (Fin.ext h)
      simp [hk]
  | entry j =>
    refine iff_of_false (not_not.mpr rfl) ?_
    change ¬ 12 + j < 1
    omega

/-- With a block in two files, a write to one of them makes a hole in the other. -/
theorem cross_linked_hole : (∀ i, crossLinked.allocated i →
      Mapped crossLinked.block (crossLinked.cur i) (blocksOf (crossLinked.cur i).size)) ∧
    (∀ i, (crossLinked.inode i).valid = true →
      crossLinked.diskDinode i = (crossLinked.inode i).d) ∧
    ∃ s, Store.step crossLinked (.writei 2 0 [0, 0, 0, 0]) = .next s ∧ s.allocated 1 ∧
      ¬ Mapped s.block (s.cur 1) (blocksOf (s.cur 1).size) := by
  refine ⟨fun i hi => ?_, fun i hi => ?_, ?_⟩
  · have hcur : crossLinked.cur i = if i = 1 then longFile else if i = 2 then thief
        else dinodeAt Bytes.zero i := by
      rw [cur, crossLinked_dinode hi.1]
      by_cases h1 : i = 1
      · simp [h1, crossLinked]
      · by_cases h2 : i = 2
        · simp [h2, crossLinked]
        · simp [h1, h2, crossLinked, blank]
    have htype := hi.2
    rw [hcur] at htype ⊢
    split
    · exact longFile_mapped
    · rename_i h1
      rw [if_neg h1] at htype
      split
      · exact thief_mapped
      · rename_i h2
        rw [if_neg h2] at htype
        simp [dinodeAt, short] at htype
  · by_cases h1 : i = 1
    · subst h1
      exact crossLinked_dinode (by decide)
    · by_cases h2 : i = 2
      · subst h2
        exact crossLinked_dinode (by decide)
      · simp [crossLinked, h1, h2, blank] at hi
  · have hrun : ∃ s, Store.step crossLinked (.writei 2 0 [0, 0, 0, 0]) = .next s ∧ s.allocated 1 ∧
        ptr s.block (s.cur 1) (.entry 0) = 0 ∧ (s.cur 1).size = 13 * BSIZE := by
      refine Outcome.exists_of_holds (Q := fun s : Store => s.allocated 1 ∧
        ptr s.block (s.cur 1) (.entry 0) = 0 ∧ (s.cur 1).size = 13 * BSIZE) ?_
      decide +kernel
    obtain ⟨s, hs, halloc, hzero, hsize⟩ := hrun
    refine ⟨s, hs, halloc, fun hm => (hm.2 (.entry 0)).mpr ?_ hzero⟩
    rw [hsize]
    decide

end Store

end Xv6
