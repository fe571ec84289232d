import Xv6.Disk.Runs

/-!
# Files as byte arrays

`readi` and `writei` of a file that has all its blocks read and write an array of bytes, as long as there
are free blocks and room in the log.
-/

namespace Xv6

theorem fileBytes_add (block : Nat → Block) (d : Dinode) (off m n : Nat) :
    fileBytes block d off (m + n) = fileBytes block d off m ++ fileBytes block d (off + m) n := by
  rw [fileBytes, List.range_add, List.map_append, List.map_map, fileBytes, fileBytes]
  congr 2
  funext k
  rw [Function.comp, Nat.add_assoc]

theorem length_fileBytes (block : Nat → Block) (d : Dinode) (off n : Nat) :
    (fileBytes block d off n).length = n := by
  rw [fileBytes, List.length_map, List.length_range]

theorem fileBytes_congr {block block' : Nat → Block} {d d' : Dinode} {off n : Nat}
    (h : ∀ x, off ≤ x → x < off + n → fileByte block' d' x = fileByte block d x) :
    fileBytes block' d' off n = fileBytes block d off n := by
  refine List.map_congr_left fun k hk => h (off + k) (Nat.le_add_right ..) ?_
  exact Nat.add_lt_add_left (List.mem_range.mp hk) off

theorem fileBytes_eq {block : Nat → Block} {d : Dinode} {off : Nat} {l : List UInt8}
    (h : ∀ k (hk : k < l.length), fileByte block d (off + k) = l[k]) :
    fileBytes block d off l.length = l := by
  refine List.ext_getElem (length_fileBytes ..) fun k hk hk' => ?_
  simp only [fileBytes, List.getElem_map, List.getElem_range, h k hk']

theorem take_fileBytes (block : Nat → Block) (d : Dinode) {off m n : Nat} (h : m ≤ n) :
    (fileBytes block d off n).take m = fileBytes block d off m := by
  obtain ⟨k, rfl⟩ := Nat.exists_eq_add_of_le h
  rw [fileBytes_add, List.take_left' (length_fileBytes ..)]

theorem drop_fileBytes (block : Nat → Block) (d : Dinode) (off m n : Nat) :
    (fileBytes block d off n).drop m = fileBytes block d (off + m) (n - m) := by
  rcases Nat.le_total m n with h | h
  · obtain ⟨k, rfl⟩ := Nat.exists_eq_add_of_le h
    rw [fileBytes_add, List.drop_left' (length_fileBytes ..), Nat.add_sub_cancel_left]
  · rw [List.drop_eq_nil_of_le (by rwa [length_fileBytes]), Nat.sub_eq_zero_of_le h]
    rfl

namespace Store

variable {s s' : Store} {i : Nat}

/-- The bytes of a file -/
def contents (s : Store) (i : Nat) : List UInt8 := fileBytes s.block (s.cur i) 0 (s.cur i).size

theorem length_contents (s : Store) (i : Nat) : (s.contents i).length = (s.cur i).size :=
  length_fileBytes ..

namespace Wrote

variable {off : Nat} {src : List UInt8}

theorem contents (h : Wrote i off src s s') (hi : (s.inode i).valid = true)
    (hoff : off ≤ (s.inode i).d.size) :
    s'.contents i = (s.contents i).take off ++ src ++ (s.contents i).drop (off + src.length) := by
  rw [Store.contents, Store.contents, cur_of_valid hi, cur_of_valid (h.valid.trans hi), h.size,
    take_fileBytes _ _ hoff, drop_fileBytes]
  have hsplit : max (s.inode i).d.size (off + src.length) =
      off + src.length + ((s.inode i).d.size - (off + src.length)) := by omega
  rw [hsplit, fileBytes_add, fileBytes_add]
  congr 1
  · congr 1
    · refine fileBytes_congr fun x _ hx => h.rest ?_ (.inl ?_) <;> omega
    · rw [Nat.zero_add]
      exact fileBytes_eq h.bytes
  · refine fileBytes_congr fun x hle hlt => h.rest ?_ (.inr ?_) <;> omega

theorem contents_other (h : Wrote i off src s s') {j : Nat} (hj : j ≠ i) (halloc : s.allocated j) :
    s'.cur j = s.cur j ∧ s'.contents j = s.contents j := by
  obtain ⟨hcur, hbytes⟩ := (h.other hj).2 halloc
  refine ⟨hcur, ?_⟩
  rw [Store.contents, Store.contents, hcur]
  refine fileBytes_congr fun x _ hx => hbytes ?_
  simp only [blocksOf, BSIZE]
  omega

end Wrote

/-- `readi` returns a slice of the file. -/
theorem fileRead_eq (hi : s.held i) (htype : (s.inode i).d.type ≠ T_DEV) {off n : Nat}
    (hoff : off < 2 ^ 32) (hn : n < 2 ^ 32) :
    s.fileRead i off n = if off > (s.cur i).size ∨ 2 ^ 32 ≤ off + n then none
      else some (((s.contents i).drop off).take n) := by
  have hover : (off + n) % 2 ^ 32 < off ↔ 2 ^ 32 ≤ off + n := by omega
  simp only [fileRead, if_neg htype, hover, contents, cur_of_valid hi.2]
  rw [drop_fileBytes, Nat.zero_add]
  split
  · rfl
  · rcases Nat.le_total n ((s.inode i).d.size - off) with hle | hle
    · rw [min_eq_left hle, take_fileBytes _ _ hle]
    · rw [min_eq_right hle, List.take_of_length_le (by rwa [length_fileBytes])]

/-- `readi` and `writei` fail only where they should, and then change nothing.  Otherwise `readi` returns
the bytes that are there, and `writei`, in a transaction with room in the log, replaces them; all other
files keep their inodes and bytes. -/
theorem flat_byte_array (h : s.Sound) (hi : s.held i)
    (htype : (s.cur i).type = T_FILE ∨ (s.cur i).type = T_DIR) {off n : Nat} {src : List UInt8}
    (hoff : off < 2 ^ 32) (hn : n < 2 ^ 32) (hsrc : src.length < 2 ^ 32) :
    readi i off n s = .ok (if off > (s.cur i).size ∨ 2 ^ 32 ≤ off + n then none
      else some (((s.contents i).drop off).take n), s) ∧
    (off > (s.cur i).size ∨ 2 ^ 32 ≤ off + src.length ∨ MAXFILE * BSIZE < off + src.length →
      writei i off src s = .ok (-1, s)) ∧
    (¬(off > (s.cur i).size ∨ 2 ^ 32 ≤ off + src.length ∨ MAXFILE * BSIZE < off + src.length) →
      footprint (max (blocksOf (s.cur i).size) (blocksOf (off + src.length))) -
        footprint (blocksOf (s.cur i).size) ≤ s.freeBlocks →
      0 < s.outstanding →
      s.lh.length + span off src.length + (blocksOf (off + src.length) - blocksOf (s.cur i).size) + 3 ≤
        min LOGSIZE (s.logsize - 1) →
      ∃ s', writei i off src s = .ok (src.length, s') ∧
        s'.contents i = (s.contents i).take off ++ src ++ (s.contents i).drop (off + src.length) ∧
        (s'.cur i).size = max (s.cur i).size (off + src.length) ∧
        ∀ j, j ≠ i → s.allocated j → s'.cur j = s.cur j ∧ s'.contents j = s.contents j) := by
  rw [cur_of_valid hi.2] at htype ⊢
  have hdev : (s.inode i).d.type ≠ T_DEV := by
    rcases htype with htype | htype <;> rw [htype] <;> decide
  have hrange : s.InRange i off src.length ↔
      ¬(off > (s.inode i).d.size ∨ 2 ^ 32 ≤ off + src.length ∨ MAXFILE * BSIZE < off + src.length) := by
    simp only [InRange, hdev, ne_eq, not_false_eq_true, true_and]
    omega
  refine ⟨?_, ?_, ?_⟩
  · have hread : Run.wp (fun _ => False) (readi i off n)
        (fun r s' => r = s.fileRead i off n ∧ s' = s) s := wp_readi (h.mapped_valid hi.2) ⟨rfl, rfl⟩
    obtain ⟨r, s', hrun, rfl, rfl⟩ := Run.exists_of_wp hread
    rw [hrun, fileRead_eq hi hdev hoff hn, cur_of_valid hi.2]
  · intro hout
    have hwrite : Run.wp (fun _ => False) (writei i off src) (fun r s' => r = -1 ∧ s' = s) s :=
      wp_writei_file h hi.2 (fun hin => absurd hout (hrange.mp hin)) (fun he => absurd he hdev)
        (fun _ _ => ⟨rfl, rfl⟩) fun hin => absurd hout (hrange.mp hin)
    obtain ⟨r, s', hrun, rfl, rfl⟩ := Run.exists_of_wp hwrite
    exact hrun
  · intro hin hfree htrans hroom
    have hwrite : Run.wp (fun _ => False) (writei i off src)
        (fun r s' => r = src.length ∧ Wrote i off src s s') s := by
      refine wp_writei_file h hi.2 (fun _ => ⟨fun _ => hfree, fun _ => ?_, fun _ => htrans⟩)
        (fun he => absurd he hdev) (fun _ hout => absurd (hrange.mpr hin) hout) fun _ s' hw => ⟨rfl, hw⟩
      rw [logCap]
      omega
    obtain ⟨r, s', hrun, rfl, hw⟩ := Run.exists_of_wp hwrite
    refine ⟨s', hrun, hw.contents hi.2 (by omega), ?_, fun j hj halloc => hw.contents_other hj halloc⟩
    rw [cur_of_valid (hw.valid.trans hi.2), hw.size]

/-- A file is created and locked. -/
def newFile : List Op := [.beginOp, .ialloc T_FILE, .ilock 1, .endOp]

theorem flat_byte_array_newFile : ∃ s s' : Store,
    runEvents Store.step blank (newFile ++ [.beginOp]) = .next s ∧
    writei 1 0 [104, 105] s = .ok (2, s') ∧ s'.contents 1 = [104, 105] := by
  obtain ⟨s, hrun, hheld, htype, hsize, hfree, hopen, hlh, hlog⟩ := Outcome.exists_of_holds
    (r := runEvents Store.step blank (newFile ++ [.beginOp]))
    (Q := fun s : Store => s.held 1 ∧ (s.cur 1).type = T_FILE ∧ (s.cur 1).size = 0 ∧ 1 ≤ s.freeBlocks ∧
      s.outstanding = 1 ∧ s.lh = [] ∧ s.logsize = LOGSIZE) (by decide +kernel)
  have hsound : s.Sound := blank_sound.reach
    (.of_runEvents .init _ (Along.of_forall (fun _ _ => trivial) _ _) hrun)
  have hempty : s.contents 1 = [] := List.eq_nil_of_length_eq_zero (by rw [length_contents, hsize])
  obtain ⟨-, -, hwrite⟩ := flat_byte_array hsound hheld (.inl htype) (show 0 < 2 ^ 32 by decide)
    (show 2 < 2 ^ 32 by decide) (show [(104 : UInt8), 105].length < 2 ^ 32 by decide)
  rw [hsize, hopen, hlh, hlog] at hwrite
  obtain ⟨s', hs', hcontents, -⟩ := hwrite (by decide) hfree (by decide) (by decide)
  rw [hempty] at hcontents
  exact ⟨s, s', hrun, hs', hcontents⟩

/-- A disk with the log that `mkfs` makes and 166 data blocks. -/
def wide : Store :=
  { blank with
    sb := ⟨200, 166, 8, 30, 2, 32, 33⟩
    block := fun b =>
      if b = 1 then
        ((((((Bytes.zero.putWord 0 200).putWord 1 166).putWord 2 8).putWord 3 30).putWord 4 2).putWord 5
          32).putWord 6 33
      else if b = 33 then ((((Bytes.zero.put 0 255).put 1 255).put 2 255).put 3 255).put 4 3
      else Bytes.zero }

theorem wide_sound : wide.Sound := by
  have hmarked : ∀ b, b < 200 → wide.marked b = decide (b < 34) := by decide +kernel
  have hdata : wide.sb.datastart = 34 := rfl
  refine sound_of_empty ⟨?_, ?_, ?_⟩ ?_ (fun _ => rfl) ?_
  · exact ⟨by decide, by decide, by decide, by decide, by decide, by decide⟩
  · decide +kernel
  · intro b hb
    rw [hdata] at hb
    rw [hmarked b (by omega)]
    exact decide_eq_true hb
  · decide +kernel
  · rintro b ⟨hge, hlt⟩
    rw [hmarked b hlt]
    rw [hdata] at hge
    exact decide_eq_false (by omega)

/-- A write of 28 blocks to an empty file does not fit into the log, however many blocks are free. -/
theorem writei_too_big : ∃ s : Store, s.Sound ∧ s.held 1 ∧ (s.cur 1).type = T_FILE ∧ (s.cur 1).size = 0 ∧
    footprint 28 ≤ s.freeBlocks ∧ 0 < s.outstanding ∧ s.lh = [] ∧
    writei 1 0 (List.replicate (28 * BSIZE) 0) s = .error .tooBig := by
  obtain ⟨s, hrun, hheld, htype, hsize, hfree, hopen, hlh, hpanic⟩ := Outcome.exists_of_holds
    (r := runEvents Store.step wide (newFile ++ [.beginOp]))
    (Q := fun s : Store => s.held 1 ∧ (s.cur 1).type = T_FILE ∧ (s.cur 1).size = 0 ∧
      footprint 28 ≤ s.freeBlocks ∧ 0 < s.outstanding ∧ s.lh = [] ∧
      (match writei 1 0 (List.replicate (28 * BSIZE) 0) s with
        | .error e => decide (e = .tooBig)
        | .ok _ => false) = true) (by decide +kernel)
  have hsound : s.Sound := wide_sound.reach
    (.of_runEvents .init _ (Along.of_forall (fun _ _ => trivial) _ _) hrun)
  refine ⟨s, hsound, hheld, htype, hsize, hfree, hopen, hlh, ?_⟩
  split at hpanic
  · rename_i e he
    rw [he, of_decide_eq_true hpanic]
  · cases hpanic

end Store

end Xv6
