import Xv6.Disk.Inodes

/-!
# Reading

`readi` of a file that has all its blocks returns the bytes of the blocks that the inode names, and
changes nothing.
-/

namespace Xv6

/-- A byte of the file with the given inode. -/
def fileByte (block : Nat → Block) (d : Dinode) (x : Nat) : UInt8 :=
  (block (ptr block d (Place.ofBlock (x / BSIZE)))).get (x % BSIZE)

def fileBytes (block : Nat → Block) (d : Dinode) (off n : Nat) : List UInt8 :=
  (List.range n).map fun k => fileByte block d (off + k)

theorem fileBytes_split (block : Nat → Block) (d : Dinode) {off n m : Nat} (hn : m ≤ n)
    (hm : m ≤ BSIZE - off % BSIZE) :
    fileBytes block d off n =
      (block (ptr block d (Place.ofBlock (off / BSIZE)))).slice (off % BSIZE) m ++
        fileBytes block d (off + m) (n - m) := by
  obtain ⟨k, rfl⟩ := Nat.exists_eq_add_of_le hn
  rw [fileBytes, List.range_add, List.map_append, Nat.add_sub_cancel_left]
  congr 1
  · refine List.map_congr_left fun x hx => ?_
    have hx := List.mem_range.mp hx
    have hdiv : (off + x) / BSIZE = off / BSIZE := by
      simp only [BSIZE] at hm ⊢
      omega
    have hmod : (off + x) % BSIZE = off % BSIZE + x := by
      simp only [BSIZE] at hm ⊢
      omega
    rw [fileByte, hdiv, hmod]
  · rw [List.map_map, fileBytes]
    refine List.map_congr_left fun x _ => ?_
    rw [Function.comp, Nat.add_assoc]

namespace Store

variable {s : Store} {i : Nat} {E : StorePanic → Prop}

theorem wp_readLoop {c fuel off left : Nat} (hm : Mapped s.block (s.inode i).d c)
    (hfuel : left ≤ fuel) (hend : off + left ≤ c * BSIZE) {Q : List UInt8 → Store → Prop}
    (hQ : Q (fileBytes s.block (s.inode i).d off left) s) :
    Run.wp E (readLoop i fuel off left) Q s := by
  induction fuel generalizing off left Q with
  | zero =>
    obtain rfl : left = 0 := by omega
    rw [readLoop, Run.wp_pure]
    exact hQ
  | succ fuel ih =>
    rw [readLoop]
    split
    · rename_i hleft
      subst hleft
      rw [Run.wp_pure]
      exact hQ
    · rename_i hleft
      have hmod := Nat.mod_lt off (show 0 < BSIZE by decide)
      have hbn : off / BSIZE < c := by
        refine Nat.div_lt_of_lt_mul ?_
        rw [Nat.mul_comm]
        omega
      rw [Run.wp_bind]
      refine wp_bmap_found hm hbn ?_
      rw [Run.wp_bind]
      refine wp_bread ?_
      rw [Run.wp_bind]
      refine ih (by omega) (by omega) ?_
      rw [Run.wp_pure, ← fileBytes_split s.block (s.inode i).d (by omega) (by omega)]
      exact hQ

/-- What `readi` returns for a file that has all its blocks. -/
def fileRead (s : Store) (i off n : Nat) : Option (List UInt8) :=
  let d := (s.inode i).d
  if d.type = T_DEV then
    if d.major < 0 ∨ NDEV ≤ d.major then none else (s.devread d.major.toNat).bind fun read => read n
  else if off > d.size ∨ (off + n) % 2 ^ 32 < off then none
  else some (fileBytes s.block d off (min n (d.size - off)))

theorem size_le_blocksOf (size : Nat) : size ≤ blocksOf size * BSIZE := by
  simp only [blocksOf, BSIZE]
  omega

theorem wp_readi {off n : Nat} (hm : Mapped s.block (s.inode i).d (blocksOf (s.inode i).d.size))
    {Q : Option (List UInt8) → Store → Prop} (hQ : Q (s.fileRead i off n) s) :
    Run.wp E (readi i off n) Q s := by
  rw [readi, Run.wp_bind, Run.wp_get]
  dsimp only
  simp only [fileRead] at hQ
  split
  · rename_i hdev
    rw [if_pos hdev] at hQ
    split
    · rename_i hrange
      rw [if_pos hrange] at hQ
      rw [Run.wp_pure]
      exact hQ
    · rename_i hrange
      rw [if_neg hrange] at hQ
      cases hread : s.devread (s.inode i).d.major.toNat with
      | none | some read =>
        rw [hread] at hQ
        exact (Run.wp_pure ..).mpr hQ
  rename_i hdev
  rw [if_neg hdev] at hQ
  split
  · rename_i hout
    rw [if_pos hout] at hQ
    rw [Run.wp_pure]
    exact hQ
  · rename_i hin
    rw [if_neg hin] at hQ
    have hmin : (if off + n > (s.inode i).d.size then (s.inode i).d.size - off else n) =
        min n ((s.inode i).d.size - off) := by
      split <;> omega
    have hsize := size_le_blocksOf (s.inode i).d.size
    simp only [hmin]
    rw [Run.wp_bind]
    refine wp_readLoop hm (Nat.le_refl _) (by omega) ?_
    rw [Run.wp_pure]
    exact hQ

theorem wp_direntLoop {e : StorePanic} (he : E e) {stop : List UInt8 → Bool} {fuel off : Nat}
    (hm : Mapped s.block (s.inode i).d (blocksOf (s.inode i).d.size)) :
    Run.wp E (direntLoop e i stop fuel off) (fun _ s' => s' = s) s := by
  induction fuel generalizing off with
  | zero =>
    rw [direntLoop, Run.wp_pure]
  | succ fuel ih =>
    rw [direntLoop, Run.wp_bind, Run.wp_get]
    split
    · rw [Run.wp_bind]
      refine wp_readi hm ?_
      split
      · rw [Run.wp_throw]
        exact he
      · split
        · rw [Run.wp_throw]
          exact he
        split
        · rw [Run.wp_pure]
        · exact ih
    · rw [Run.wp_pure]

end Store

end Xv6
