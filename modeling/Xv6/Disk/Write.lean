import Xv6.Disk.Read

/-!
# Writing and freeing

`writei`, `itrunc` and `iput` keep the block maps without holes and the dinodes on the disk equal to
the inodes in memory.
-/

namespace Xv6

namespace Store

variable {s s' : Store} {i : Nat}

/-- Every file has exactly its blocks, and inodes in memory are copies of those on the disk. -/
structure Sound (s : Store) : Prop extends s.Inv where
  mapped : ∀ {i}, s.allocated i → Mapped s.block (s.cur i) (blocksOf (s.cur i).size)
  through : ∀ {i}, (s.inode i).valid = true → s.diskDinode i = (s.inode i).d

theorem blocksOf_mono {m n : Nat} (h : m ≤ n) : blocksOf m ≤ blocksOf n :=
  Nat.div_le_div_right (by omega)

theorem Inv.writeData (h : s.Inv) (hi : (s.inode i).valid = true) {p : Place}
    (hp : p ≠ .slot indirect) {b : Nat} (hb : ptr s.block (s.inode i).d p = b) (hne : b ≠ 0)
    (data : Block) :
    (s.write b data).Inv ∧ Frame i s (s.write b data) ∧
      ∀ q, ptr (s.write b data).block (s.inode i).d q = ptr s.block (s.inode i).d q := by
  have hcur := cur_of_valid hi
  have hname : s.names (i, p) = some b := names_eq_some.mpr ⟨h.valid hi, hne, by rw [hcur, hb]⟩
  have harea := h.owned.dataArea hname
  have hlayout := h.owned.formatted.layout
  have hk := keeps_write hlayout (le_trans hlayout.bmapstart_le harea.1) data
  -- No inode has `b` as its indirect block.
  have hptr {j : Nat} (hj : s.allocated j) (q : Place) :
      ptr (s.write b data).block (s.cur j) q = ptr s.block (s.cur j) q := by
    refine ptr_congr (fun hind => block_write_ne s data fun heq => hp ?_) q
    have hother : s.names (j, .slot indirect) = some b := names_eq_some.mpr ⟨hj, hne, heq⟩
    exact (congrArg Prod.snd (h.owned.tenancy.unique hother hname)).symm
  have hself (q : Place) :
      ptr (s.write b data).block (s.inode i).d q = ptr s.block (s.inode i).d q := by
    have hq := hptr (h.valid hi) q
    rwa [hcur] at hq
  have hframe : Frame i s (s.write b data) := ⟨rfl, fun _ => rfl, rfl, rfl,
    ⟨rfl, rfl, rfl, rfl⟩, rfl, hk.dinode, fun _ hj q => hptr hj q⟩
  refine ⟨h.of_owned hframe hi (h.owned.write_data harea data) (fun _ _ _ => rfl) fun q => ?_,
    hframe, hself⟩
  rw [inode_write, hself]
  simp [names, hcur, h.valid hi]

/-- Blocks of other files keep their contents. -/
def Spares (i : Nat) (s s' : Store) : Prop :=
  ∀ ⦃j p b⦄, j ≠ i → s.names (j, p) = some b → s'.block b = s.block b

variable {t : Store}

theorem Spares.trans (h : Spares i s s') (hf : Frame i s s') (h' : Spares i s' t) :
    Spares i s t := by
  intro j p b hj hb
  rw [h' hj ((hf.names hj p).trans hb), h hj hb]

/-- What `writei` has done when it has copied `l` to the file of `c` blocks at `off`. -/
structure Written (i c off : Nat) (l : List UInt8) (s s' : Store) : Prop where
  inv : s'.Inv
  frame : Frame i s s'
  mapped : Mapped s'.block (s'.inode i).d (max c (blocksOf (off + l.length)))
  same : blocksOf (off + l.length) ≤ c → (s'.inode i).d = (s.inode i).d
  bytes : ∀ k (hk : k < l.length), fileByte s'.block (s'.inode i).d (off + k) = l[k]
  rest : ∀ {x}, x / BSIZE < c → x < off ∨ off + l.length ≤ x →
    fileByte s'.block (s'.inode i).d x = fileByte s.block (s.inode i).d x
  spares : Spares i s s'

variable {c off : Nat}

theorem Written.refl (h : s.Inv) (hm : Mapped s.block (s.inode i).d c)
    (hoff : off ≤ c * BSIZE) : Written i c off [] s s := by
  have hle : blocksOf off ≤ c := by
    simp only [blocksOf, BSIZE] at hoff ⊢
    omega
  exact ⟨h, Frame.refl i s, by rwa [List.length_nil, Nat.add_zero, Nat.max_eq_left hle], fun _ => rfl,
    by simp, fun _ _ => rfl, fun _ _ _ _ _ => rfl⟩

theorem Written.append {l l' : List UInt8} (h : Written i c off l s s')
    (h' : Written i (max c (blocksOf (off + l.length))) (off + l.length) l' s' t) :
    Written i c off (l ++ l') s t := by
  have hmono : blocksOf (off + l.length) ≤ blocksOf (off + (l ++ l').length) := by
    rw [List.length_append]
    exact blocksOf_mono (by omega)
  have hend : off + l.length + l'.length = off + (l ++ l').length := by
    rw [List.length_append, Nat.add_assoc]
  refine ⟨h'.inv, h.frame.trans h'.frame, ?_, ?_, ?_, ?_, h.spares.trans h.frame h'.spares⟩
  · have hmapped := h'.mapped
    rwa [hend, max_assoc, max_eq_right hmono] at hmapped
  · intro hle
    rw [h'.same (by rw [hend]; exact le_trans hle (le_max_left _ _)), h.same (hmono.trans hle)]
  · intro k hk
    by_cases hkl : k < l.length
    · have hlt : (off + k) / BSIZE < max c (blocksOf (off + l.length)) := by
        refine lt_of_lt_of_le ?_ (le_max_right ..)
        simp only [blocksOf, BSIZE]
        omega
      rw [h'.rest hlt (.inl (by omega)), h.bytes k hkl, List.getElem_append_left hkl]
    · obtain ⟨k, rfl⟩ := Nat.exists_eq_add_of_le (Nat.le_of_not_lt hkl)
      rw [List.length_append] at hk
      rw [← Nat.add_assoc, h'.bytes k (by omega), List.getElem_append_right (by omega)]
      simp
  · intro x hx hout
    rw [List.length_append] at hout
    rw [h'.rest (lt_of_lt_of_le hx (le_max_left _ _)) (by omega), h.rest hx (by omega)]

theorem ofBlock_ne_indirect (bn : Nat) : Place.ofBlock bn ≠ .slot indirect := by
  rw [Place.ofBlock]
  split
  · rename_i hlt
    intro he
    have hval := congrArg Place.index he
    simp only [Place.index, Fin.val_last] at hval
    omega
  · rintro ⟨⟩

theorem Inv.names_ofBlock (h : s.Inv) (hi : (s.inode i).valid = true) {bn c : Nat}
    (hm : Mapped s.block (s.inode i).d c) (hbn : bn < c) :
    s.names (i, .ofBlock bn) = some (ptr s.block (s.inode i).d (.ofBlock bn)) := by
  refine names_eq_some.mpr ⟨h.valid hi, (hm.2 _).mpr ?_, by rw [cur_of_valid hi]⟩
  rwa [Place.index_ofBlock]

variable {l : List UInt8}

theorem Inv.written (h : s.Inv) (hi : (s.inode i).valid = true) {c off b : Nat}
    (hm : Mapped s.block (s.inode i).d c) (hbn : off / BSIZE < c) (hl : l ≠ [])
    (hfit : off % BSIZE + l.length ≤ BSIZE) (hb : ptr s.block (s.inode i).d (.ofBlock (off / BSIZE)) = b) :
    Written i c off l s (s.write b ((s.block b).fill (off % BSIZE) l)) := by
  have hname := h.names_ofBlock hi hm hbn
  rw [hb] at hname
  obtain ⟨hinv, hframe, hptr⟩ := h.writeData hi (ofBlock_ne_indirect _) hb (names_eq_some.mp hname).2.1
    ((s.block b).fill (off % BSIZE) l)
  have hlen := List.length_pos_iff.mpr hl
  have hblocks : blocksOf (off + l.length) = off / BSIZE + 1 := by
    simp only [blocksOf, BSIZE] at hfit ⊢
    omega
  refine ⟨hinv, hframe, ?_, fun _ => rfl, ?_, ?_, ?_⟩
  · rw [hblocks, Nat.max_eq_left hbn]
    exact hm.congr hptr
  · intro k hk
    have hdiv : (off + k) / BSIZE = off / BSIZE := by
      simp only [BSIZE] at hfit ⊢
      omega
    have hmod : (off + k) % BSIZE = off % BSIZE + k := by
      simp only [BSIZE] at hfit ⊢
      omega
    rw [fileByte, inode_write, hptr, hdiv, hb, block_write_self, hmod, Bytes.get_fill_in _ hk (by omega)]
  · intro x hx hout
    rw [fileByte, fileByte, inode_write, hptr]
    by_cases hdiv : x / BSIZE = off / BSIZE
    · have hmod : x % BSIZE < off % BSIZE ∨ off % BSIZE + l.length ≤ x % BSIZE := by
        simp only [BSIZE] at hdiv hout ⊢
        omega
      rw [hdiv, hb, block_write_self, Bytes.get_fill_out _ hmod]
    · rw [block_write_ne]
      intro heq
      have hother := h.names_ofBlock hi hm hx
      rw [heq] at hother
      have hplace := congrArg (Place.index ∘ Prod.snd) (h.owned.tenancy.unique hother hname)
      simp only [Function.comp, Place.index_ofBlock] at hplace
      exact hdiv hplace
  · intro j p b' hj hb'
    refine block_write_ne _ _ ?_
    rintro rfl
    exact hj (congrArg Prod.fst (h.owned.tenancy.unique hb' hname))

theorem Extends.written {c off b : Nat} (h : s.Inv) (hi : (s.inode i).valid = true)
    (hm : Mapped s.block (s.inode i).d c) (hx : Extends i c s b s')
    (hblocks : blocksOf (off + l.length) = c + 1) (hw : Written i (c + 1) off l s' t) :
    Written i c off l s t := by
  have hspares : Spares i s s' := by
    intro j p b' hj hb'
    exact hx.intact (fun heq => hj (congrArg Prod.fst heq)) hb'
  refine ⟨hw.inv, hx.frame.trans hw.frame, ?_, ?_, hw.bytes, ?_, hspares.trans hx.frame hw.spares⟩
  · have hmapped := hw.mapped
    rw [hblocks, max_self] at hmapped
    rwa [hblocks, Nat.max_eq_right (Nat.le_succ c)]
  · intro hle
    omega
  · intro x hxc hout
    have hname := h.names_ofBlock hi hm hxc
    have hkeep := hx.keep (names_eq_some.mp hname).2.1
    rw [hw.rest (Nat.lt_succ_of_lt hxc) hout, fileByte, fileByte, hkeep,
      hx.intact (fun heq => ofBlock_ne_indirect _ (congrArg Prod.snd heq)) hname]

/-- The blocks that `n` bytes at `off` meet -/
def span (off n : Nat) : Nat := if n = 0 then 0 else blocksOf (off + n) - off / BSIZE

/-- At most `m` blocks and `n` places of the log have been used, not counting the indirect block. -/
def Costs (i : Nat) (s s' : Store) (m n : Nat) : Prop :=
  ∃ k, Spends s s' m k ∧ k + s'.indirectCost i ≤ n + s.indirectCost i

theorem Costs.refl (i : Nat) (s : Store) (m n : Nat) : Costs i s s m n :=
  ⟨0, (Spends.refl s).mono (Nat.zero_le _) (Nat.le_refl _), by omega⟩

variable {m n m' n' : Nat}

theorem Costs.mono (h : Costs i s s' m n) (hm : m ≤ m') (hn : n ≤ n') :
    Costs i s s' m' n' := by
  obtain ⟨k, hspends, hk⟩ := h
  exact ⟨k, hspends.mono hm (Nat.le_refl _), by omega⟩

theorem Costs.trans (h : Costs i s s' m n) (h' : Costs i s' t m' n') :
    Costs i s t (m + m') (n + n') := by
  obtain ⟨k, hspends, hk⟩ := h
  obtain ⟨k', hspends', hk'⟩ := h'
  exact ⟨k + k', hspends.trans hspends', by omega⟩

variable {E : StorePanic → Prop}

theorem Costs.rest (h : Costs i s s' m n)
    (ha : s.Affords E (m + m') (n + n' + s.indirectCost i + 1)) :
    s'.Affords E m' (n' + s'.indirectCost i + 1) := by
  obtain ⟨k, hspends, hk⟩ := h
  refine Affords.rest (ha.mono (Nat.le_refl _) ?_) hspends
  omega

theorem indirectCost_write_le (s : Store) (i b : Nat) (data : Block) :
    (s.write b data).indirectCost i ≤ s.indirectCost i := by
  rw [indirectCost, indirectCost, inode_write]
  split
  · exact Nat.zero_le _
  · rename_i hcost
    rw [if_neg]
    exact fun hin => hcost ⟨hin.1, subset_absorb _ _ hin.2⟩

theorem span_step (off : Nat) {n : Nat} (hn : 0 < n) :
    span off n = 1 + span (off + min n (BSIZE - off % BSIZE)) (n - min n (BSIZE - off % BSIZE)) := by
  have hmod := Nat.mod_lt off (show 0 < BSIZE by decide)
  rw [span, span, if_neg (Nat.ne_of_gt hn)]
  rcases Nat.le_total n (BSIZE - off % BSIZE) with hle | hle
  · rw [min_eq_left hle, Nat.sub_self, if_pos rfl]
    simp only [blocksOf, BSIZE] at hle ⊢
    omega
  · rw [min_eq_right hle]
    simp only [blocksOf, BSIZE] at hle ⊢
    split <;> omega

theorem blocksOf_step (off : Nat) {n : Nat} (hn : 0 < n) :
    0 < min n (BSIZE - off % BSIZE) ∧ off % BSIZE + min n (BSIZE - off % BSIZE) ≤ BSIZE ∧
      blocksOf (off + min n (BSIZE - off % BSIZE)) ≤ blocksOf (off + n) := by
  have hmod := Nat.mod_lt off (show 0 < BSIZE by decide)
  exact ⟨by omega, by omega, blocksOf_mono (by omega)⟩

theorem wp_writeBlock (h : s.Inv) (hi : (s.inode i).valid = true) {α : Type} {next : DiskM α}
    {Q : α → Store → Prop} (hm : Mapped s.block (s.inode i).d c) (hoff : off / BSIZE ≤ c)
    (hmax : off / BSIZE < MAXFILE) (hl : l ≠ []) (hfit : off % BSIZE + l.length ≤ BSIZE)
    (ha : s.Affords E (footprint (max c (blocksOf (off + l.length))) - footprint c)
      (1 + (blocksOf (off + l.length) - c) + s.indirectCost i + 1))
    (hnext : ∀ s', Written i c off l s s' →
      Costs i s s' (footprint (max c (blocksOf (off + l.length))) - footprint c)
        (1 + (blocksOf (off + l.length) - c)) → Run.wp E next Q s') :
    Run.wp E (do
      let b ← bmap i (off / BSIZE)
      let bp ← bread b
      logWrite b (bp.fill (off % BSIZE) l)
      next) Q s := by
  have hlen := List.length_pos_iff.mpr hl
  have hblocks : blocksOf (off + l.length) = off / BSIZE + 1 := by
    simp only [blocksOf, BSIZE] at hfit ⊢
    omega
  rw [hblocks] at ha hnext
  rw [Run.wp_bind]
  refine wp_bmap h hi hm hoff hmax ?_ (fun hlt => ?_) fun heq b s1 hx => ?_
  · rintro rfl
    rw [Nat.max_eq_right (Nat.le_succ _)] at ha
    refine ha.mono (Nat.le_refl _) ?_
    split <;> omega
  · have hname := h.names_ofBlock hi hm hlt
    have hcost := indirectCost_write_le s i (ptr s.block (s.inode i).d (.ofBlock (off / BSIZE)))
      ((s.block (ptr s.block (s.inode i).d (.ofBlock (off / BSIZE)))).fill (off % BSIZE) l)
    rw [Run.wp_bind]
    refine wp_bread ?_
    rw [Run.wp_bind]
    refine wp_logWrite (ha.mono (Nat.zero_le _) (by omega)) (hnext _ (h.written hi hm hlt hl hfit rfl) ?_)
    exact ⟨1, (spends_write fun c hc => h.bblock_ne hname hc).mono (Nat.zero_le _) (Nat.le_refl _),
      by omega⟩
  · obtain rfl : off / BSIZE = c := heq
    rw [Nat.max_eq_right (Nat.le_succ _)] at ha hnext
    have hi1 := hx.frame.valid.trans hi
    have hname := hx.inv.names_ofBlock hi1 hx.mapped (Nat.lt_succ_self _)
    rw [hx.ptr] at hname
    have hw := hx.inv.written hi1 hx.mapped (Nat.lt_succ_self _) hl hfit hx.ptr
    have hcost := indirectCost_write_le s1 i b ((s1.block b).fill (off % BSIZE) l)
    have hspent := hx.cost
    have hwrite : Spends s1 (s1.write b ((s1.block b).fill (off % BSIZE) l)) 0 0 :=
      spends_absorbed (fun c hc => hx.inv.bblock_ne hname hc) hx.logged
    rw [Run.wp_bind]
    refine wp_bread ?_
    rw [Run.wp_bind]
    have hone : s1.Affords E 0 1 := Affords.rest (ha.mono (Nat.le_refl _) (by split <;> omega)) hx.spends
    refine wp_logWrite hone
      (hnext _ (hx.written h hi hm hblocks hw) ⟨_, hx.spends.trans hwrite, ?_⟩)
    split_ifs at hspent ⊢ <;> omega

variable {src : List UInt8}

theorem wp_writeLoop (h : s.Inv) (hi : (s.inode i).valid = true) {c fuel off : Nat}
    (hm : Mapped s.block (s.inode i).d c) (hfuel : src.length ≤ fuel) (hoff : off ≤ c * BSIZE)
    (hmax : off + src.length ≤ MAXFILE * BSIZE)
    (ha : s.Affords E (footprint (max c (blocksOf (off + src.length))) - footprint c)
      (span off src.length + (blocksOf (off + src.length) - c) + s.indirectCost i + 1)) :
    Run.wp E (writeLoop i fuel off src) (fun off' s' => off' = off + src.length ∧
      Written i c off src s s' ∧
      Costs i s s' (footprint (max c (blocksOf (off + src.length))) - footprint c)
        (span off src.length + (blocksOf (off + src.length) - c))) s := by
  induction fuel generalizing s off src c with
  | zero =>
    obtain rfl : src = [] := List.length_eq_zero_iff.mp (by omega)
    rw [writeLoop, Run.wp_pure]
    exact ⟨rfl, .refl h hm hoff, .refl ..⟩
  | succ fuel ih =>
    rw [writeLoop]
    split
    · rename_i hsrc
      subst hsrc
      rw [Run.wp_pure]
      exact ⟨rfl, .refl h hm hoff, .refl ..⟩
    · rename_i hsrc
      have hlen := List.length_pos_iff.mpr hsrc
      have hmod := Nat.mod_lt off (show 0 < BSIZE by decide)
      have hle : min src.length (BSIZE - off % BSIZE) ≤ src.length := min_le_left ..
      have hstep := span_step off hlen
      have hmid := blocksOf_step off hlen
      generalize min src.length (BSIZE - off % BSIZE) = m at hle hstep hmid ⊢
      obtain ⟨hpos, hfit, hnext⟩ := hmid
      have htake : (src.take m).length = m := List.length_take_of_le hle
      have hdrop : off + m + (src.drop m).length = off + src.length := by
        rw [List.length_drop]
        omega
      have hfoot := footprint_mono (le_max_left c (blocksOf (off + m)))
      have hfoot' := footprint_mono (max_le_max_left c hnext)
      have hmax' : max (max c (blocksOf (off + m))) (blocksOf (off + src.length)) =
          max c (blocksOf (off + src.length)) := by
        rw [max_assoc, max_eq_right hnext]
      refine wp_writeBlock h hi hm ?_ ?_ ?_ (by rwa [htake]) ?_ fun s1 hw hcost => ?_
      · simp only [BSIZE] at hoff ⊢
        omega
      · simp only [BSIZE] at hmax ⊢
        omega
      · intro hnil
        rw [hnil] at htake
        exact absurd htake (Nat.ne_of_lt hpos)
      · rw [htake]
        exact ha.mono (by omega) (by omega)
      · rw [htake] at hcost
        have hmapped := hw.mapped
        have hi1 := hw.frame.valid.trans hi
        rw [htake] at hmapped
        have hrest : s1.Affords E (footprint (max c (blocksOf (off + src.length))) -
            footprint (max c (blocksOf (off + m)))) (span (off + m) (src.drop m).length +
            (blocksOf (off + src.length) - max c (blocksOf (off + m))) + s1.indirectCost i + 1) := hcost.rest (ha.mono ?_ ?_)
        · rw [← hmax', ← hdrop] at hrest
          have hrun := ih hw.inv hi1 hmapped (by omega) ?_ (by rwa [hdrop]) hrest
          · rw [hdrop] at hrun
            refine Run.wp_mono hrun ?_
            rintro off' s2 ⟨rfl, hw', hcost'⟩
            have happend : Written i c off (src.take m ++ src.drop m) s s2 := hw.append (by rwa [htake])
            rw [List.take_append_drop] at happend
            refine ⟨rfl, happend, (hcost.trans hcost').mono ?_ ?_⟩
            · rw [hmax']
              omega
            · rw [List.length_drop]
              omega
          · refine le_trans ?_ (Nat.mul_le_mul_right BSIZE (le_max_right c (blocksOf (off + m))))
            exact size_le_blocksOf _
        · omega
        · rw [List.length_drop]
          omega

variable {j : Nat}

theorem names_congr (halloc : s'.allocated j ↔ s.allocated j)
    (hptr : s.allocated j → ∀ q, ptr s'.block (s'.cur j) q = ptr s.block (s.cur j) q) (q : Place) :
    s'.names (j, q) = s.names (j, q) := by
  rw [names, names]
  by_cases hj : s.allocated j
  · simp [hj, halloc.mpr hj, hptr hj q]
  · have hj' : ¬ s'.allocated j := fun h => hj (halloc.mp h)
    simp [hj, hj']

theorem Inv.of_names (howned : s'.Owned s.names) (hnames : ∀ j q, s'.names (j, q) = s.names (j, q))
    (hvalid : ∀ {j}, (s'.inode j).valid = true → s'.allocated j) : s'.Inv := by
  have hfun : s'.names = s.names := funext fun x => hnames x.1 x.2
  exact ⟨hfun ▸ howned, hvalid⟩

theorem cur_setIncore_ne {n : Incore} (hj : j ≠ i) : (s.setIncore i n).cur j = s.cur j := by
  have hinode : (s.setIncore i n).inode j = s.inode j := Function.update_of_ne hj _ _
  rw [cur, hinode]
  rfl

@[simp]
theorem inode_setIncore_self (s : Store) (i : Nat) (n : Incore) : (s.setIncore i n).inode i = n :=
  Function.update_self ..

theorem inode_setIncore_ne {n : Incore} (hj : j ≠ i) :
    (s.setIncore i n).inode j = s.inode j := Function.update_of_ne hj ..

theorem ptr_of_addrs {block : Nat → Block} {d d' : Dinode} (h : d'.addrs = d.addrs) (q : Place) :
    ptr block d' q = ptr block d q := by
  cases q <;> simp only [ptr, h]

theorem Inv.setD (h : s.Inv) (hi : (s.inode i).valid = true) {d : Dinode} (htype : d.type ≠ 0)
    (haddrs : d.addrs = (s.inode i).d.addrs) : (s.setIncore i { s.inode i with d }).Inv := by
  have hcur : (s.setIncore i { s.inode i with d }).cur i = d := by
    rw [cur_of_valid (by rw [inode_setIncore_self]; exact hi), inode_setIncore_self]
  have halloc (j : Nat) : (s.setIncore i { s.inode i with d }).allocated j ↔ s.allocated j := by
    by_cases hj : j = i
    · rw [hj]
      exact iff_of_true ⟨(h.valid hi).1, by rw [hcur]; exact htype⟩ (h.valid hi)
    · rw [allocated, allocated, cur_setIncore_ne hj]
      rfl
  refine .of_names (h.owned.of_blocks rfl rfl) (fun j q => names_congr (halloc j) (fun _ q => ?_) q)
    fun {j} hj => (halloc j).mpr ?_
  · by_cases hj : j = i
    · rw [hj, hcur, cur_of_valid hi]
      exact ptr_of_addrs haddrs q
    · rw [cur_setIncore_ne hj]
      rfl
  · by_cases hji : j = i
    · exact hji ▸ h.valid hi
    · rw [inode_setIncore_ne hji] at hj
      exact h.valid hj

/-- The state after `iupdate`. -/
def updated (s : Store) (i : Nat) : Store :=
  s.write (IBLOCK i s.sb) (putDinode (s.block (IBLOCK i s.sb)) (i % IPB) (s.inode i).d)

theorem wp_iupdate {Q : Unit → Store → Prop} (ha : s.Affords E 0 1)
    (hQ : Q () (s.updated i)) : Run.wp E (iupdate i) Q s := by
  rw [iupdate, Run.wp_bind, Run.wp_get, Run.wp_bind]
  refine wp_bread ?_
  exact wp_logWrite ha hQ

theorem Inv.ptr_write_iblock (h : s.Inv) (hi : i < s.sb.ninodes) (data : Block) (hj : s.allocated j)
    (q : Place) :
    ptr (s.write (IBLOCK i s.sb) data).block (s.cur j) q = ptr s.block (s.cur j) q := by
  refine ptr_congr (fun hind => block_write_ne s data ?_) q
  have harea := h.owned.dataArea (x := (j, .slot indirect)) (names_eq_some.mpr ⟨hj, hind, rfl⟩)
  have hlayout := h.owned.formatted.layout
  have hlt := hlayout.iblock_lt hi
  have hle := hlayout.bmapstart_le
  have hge := harea.1
  omega

theorem cur_updated (hi : (s.inode i).valid = true) (hfits : (s.inode i).d.Fits) (j : Nat) :
    (s.updated i).cur j = s.cur j := by
  rw [cur, cur, updated, inode_write, diskDinode_write_iblock hfits]
  split
  · rfl
  · rename_i hj
    have hne : j ≠ i := by
      rintro rfl
      exact hj hi
    rw [if_neg hne]

theorem Inv.updated (h : s.Inv) (hi : (s.inode i).valid = true) (hfits : (s.inode i).d.Fits)
    (hm : ∀ {j}, s.allocated j → Mapped s.block (s.cur j) (blocksOf (s.cur j).size))
    (hthrough : ∀ {j}, j ≠ i → (s.inode j).valid = true → s.diskDinode j = (s.inode j).d) :
    (s.updated i).Sound := by
  have hlt := (h.valid hi).1
  have hcur := cur_updated hi hfits
  have halloc (j : Nat) : (s.updated i).allocated j ↔ s.allocated j := by
    rw [allocated, allocated, hcur]
    rfl
  have hptr {j : Nat} (hj : s.allocated j) (q : Place) :
      ptr (s.updated i).block ((s.updated i).cur j) q = ptr s.block (s.cur j) q := by
    rw [hcur]
    exact h.ptr_write_iblock hlt _ hj q
  refine { Inv.of_names (h.owned.write_iblock hlt _) (fun j q => names_congr (halloc j) hptr q)
    (fun {j} hj => (halloc j).mpr (h.valid hj)) with mapped := ?_, through := ?_ }
  · intro j hj
    have hj := (halloc j).mp hj
    rw [hcur]
    exact (hm hj).congr (h.ptr_write_iblock hlt _ hj)
  · intro j hj
    rw [Store.updated, diskDinode_write_iblock hfits]
    split
    · rename_i hji
      rw [hji]
      rfl
    · exact hthrough ‹_› hj

theorem Inv.fits (h : s.Inv) (hi : (s.inode i).valid = true) {d : Dinode} (hd : d.Fits)
    (hsame : SameNode d (s.inode i).d) (hsize : (s.inode i).d.size < 2 ^ 32) :
    (s.inode i).d.Fits where
  type := by rw [hsame.type, hd.type]
  major := by rw [hsame.major, hd.major]
  minor := by rw [hsame.minor, hd.minor]
  nlink := by rw [hsame.nlink, hd.nlink]
  size := hsize
  addrs k := by
    by_cases hk : (s.inode i).d.addrs k = 0
    · rw [hk]
      decide
    · have hname : s.names (i, .slot k) = some ((s.inode i).d.addrs k) :=
        names_eq_some.mpr ⟨h.valid hi, hk, by rw [cur_of_valid hi]; rfl⟩
      have hlt := (h.owned.dataArea hname).2
      have hsize := h.owned.formatted.layout.size
      omega

theorem Sound.fits (h : s.Sound) (hi : (s.inode i).valid = true) : (s.inode i).d.Fits := by
  rw [← h.through hi]
  exact dinodeAt_fits _ _

theorem Sound.mapped_valid (h : s.Sound) (hi : (s.inode i).valid = true) :
    Mapped s.block (s.inode i).d (blocksOf (s.inode i).d.size) := by
  have hm := h.mapped (h.valid hi)
  rwa [cur_of_valid hi] at hm

theorem Sound.others (h : s.Sound) (hf : Frame i s s') (hinv : s'.Inv) (hj : j ≠ i) :
    (s'.allocated j → Mapped s'.block (s'.cur j) (blocksOf (s'.cur j).size)) ∧
      ((s'.inode j).valid = true → s'.diskDinode j = (s'.inode j).d) := by
  refine ⟨fun halloc => ?_, fun hvalid => ?_⟩
  · have halloc := (hf.allocated hj).mp halloc
    have hm := hf.mapped hj halloc (h.mapped halloc)
    rwa [← hf.cur halloc.1 hj] at hm
  · have hlt := (hinv.valid hvalid).1
    rw [hf.inode hj] at hvalid
    rw [hf.dinode (hf.sb ▸ hlt), hf.inode hj, h.through hvalid]

theorem Sound.resize (h : s.Sound) (hi : (s.inode i).valid = true) (hf : Frame i s s')
    (hinv : s'.Inv) {size : Nat} (hsize : size < 2 ^ 32)
    (hm : Mapped s'.block (s'.inode i).d (blocksOf size)) :
    ((s'.setIncore i { s'.inode i with d := { (s'.inode i).d with size } }).updated i).Sound := by
  have hi' := hf.valid.trans hi
  have htype : (s'.inode i).d.type ≠ 0 := by
    have hne := (hinv.valid hi').2
    rwa [cur_of_valid hi'] at hne
  have hinv2 : (s'.setIncore i { s'.inode i with d := { (s'.inode i).d with size } }).Inv :=
    hinv.setD hi' htype rfl
  have hself := inode_setIncore_self s' i { s'.inode i with d := { (s'.inode i).d with size } }
  have hi2 : ((s'.setIncore i { s'.inode i with d := { (s'.inode i).d with size } }).inode i).valid =
      true := by rw [hself]; exact hi'
  refine hinv2.updated hi2 ?_ ?_ ?_
  · refine hinv2.fits hi2 (h.fits hi) ?_ ?_ <;> rw [hself]
    · exact ⟨hf.node.type, hf.node.major, hf.node.minor, hf.node.nlink⟩
    · exact hsize
  · intro j hj
    by_cases hji : j = i
    · subst hji
      rw [cur_of_valid hi2, hself]
      exact hm.congr fun q => ptr_of_addrs rfl q
    · rw [allocated, cur_setIncore_ne hji] at hj
      rw [cur_setIncore_ne hji]
      exact (h.others hf hinv hji).1 hj
  · intro j hji hj
    rw [inode_setIncore_ne hji] at hj ⊢
    exact (h.others hf hinv hji).2 hj

theorem Written.other (hw : Written i c off l s s') (h : s.Sound) (hj : j ≠ i)
    (halloc : s.allocated j) :
    s'.allocated j ∧ s'.cur j = s.cur j ∧ ∀ {x}, x / BSIZE < blocksOf (s.cur j).size →
      fileByte s'.block (s.cur j) x = fileByte s.block (s.cur j) x := by
  refine ⟨(hw.frame.allocated hj).mpr halloc, hw.frame.cur halloc.1 hj, fun {x} hx => ?_⟩
  have hne : ptr s.block (s.cur j) (.ofBlock (x / BSIZE)) ≠ 0 :=
    ((h.mapped halloc).2 _).mpr (by rwa [Place.index_ofBlock])
  rw [fileByte, fileByte, hw.frame.ptr hj halloc, hw.spares hj (names_eq_some.mpr ⟨halloc, hne, rfl⟩)]

theorem Inv.fileByte_updated (h : s.Inv) (hi : i < s.sb.ninodes) {j c x : Nat} (hj : s.allocated j)
    (hm : Mapped s.block (s.cur j) c) (hx : x / BSIZE < c) :
    fileByte (s.updated i).block (s.cur j) x = fileByte s.block (s.cur j) x := by
  have hne : ptr s.block (s.cur j) (.ofBlock (x / BSIZE)) ≠ 0 :=
    (hm.2 _).mpr (by rwa [Place.index_ofBlock])
  have harea := h.owned.dataArea (x := (j, .ofBlock (x / BSIZE))) (names_eq_some.mpr ⟨hj, hne, rfl⟩)
  have hlayout := h.owned.formatted.layout
  have hlt := hlayout.iblock_lt hi
  have hle := hlayout.bmapstart_le
  have hge := harea.1
  rw [fileByte, fileByte, Store.updated, h.ptr_write_iblock hi _ hj, block_write_ne _ _ (by omega)]

/-- What `writei` has done when it returns `src.length`. -/
structure Wrote (i off : Nat) (src : List UInt8) (s s' : Store) : Prop where
  sound : s'.Sound
  sb : s'.sb = s.sb
  ref : (s'.inode i).ref = (s.inode i).ref
  valid : (s'.inode i).valid = (s.inode i).valid
  node : SameNode (s.inode i).d (s'.inode i).d
  size : (s'.inode i).d.size = max (s.inode i).d.size (off + src.length)
  bytes : ∀ k (hk : k < src.length), fileByte s'.block (s'.inode i).d (off + k) = src[k]
  rest : ∀ {x}, x < (s.inode i).d.size → x < off ∨ off + src.length ≤ x →
    fileByte s'.block (s'.inode i).d x = fileByte s.block (s.inode i).d x
  other : ∀ {j}, j ≠ i → s'.inode j = s.inode j ∧ (s.allocated j → s'.cur j = s.cur j ∧
    ∀ {x}, x / BSIZE < blocksOf (s.cur j).size →
      fileByte s'.block (s.cur j) x = fileByte s.block (s.cur j) x)
  spends : Spends s s' (footprint (max (blocksOf (s.inode i).d.size) (blocksOf (off + src.length))) -
      footprint (blocksOf (s.inode i).d.size))
    (span off src.length + (blocksOf (off + src.length) - blocksOf (s.inode i).d.size) + 3)

theorem indirectCost_le (s : Store) (i : Nat) : s.indirectCost i ≤ 2 := by
  rw [indirectCost]
  split <;> omega

section

variable {off : Nat} (h : s.Sound) (hi : (s.inode i).valid = true)
  (hw : Written i (blocksOf (s.inode i).d.size) off src s s')
  (hcost : Costs i s s' (footprint (max (blocksOf (s.inode i).d.size) (blocksOf (off + src.length))) -
    footprint (blocksOf (s.inode i).d.size))
    (span off src.length + (blocksOf (off + src.length) - blocksOf (s.inode i).d.size)))
include h hi hw hcost

theorem Written.wrote (hsize : off + src.length ≤ (s.inode i).d.size) : Wrote i off src s s' := by
  have hle : blocksOf (off + src.length) ≤ blocksOf (s.inode i).d.size := blocksOf_mono hsize
  have hmapped := hw.mapped
  rw [max_eq_left hle] at hmapped
  have hlow := indirectCost_le s i
  obtain ⟨k, hspends, hk⟩ := hcost
  refine ⟨{ hw.inv with mapped := ?_, through := ?_ }, hw.frame.sb, hw.frame.ref, hw.frame.valid,
    hw.frame.node, ?_, hw.bytes, ?_, ?_, hspends.mono (Nat.le_refl _) (by omega)⟩
  · intro j hj
    by_cases hji : j = i
    · subst hji
      rw [cur_of_valid (hw.frame.valid.trans hi), hw.frame.size]
      exact hmapped
    · exact (h.others hw.frame hw.inv hji).1 hj
  · intro j hj
    by_cases hji : j = i
    · subst hji
      rw [hw.frame.dinode (h.valid hi).1, hw.same hle, h.through hi]
    · exact (h.others hw.frame hw.inv hji).2 hj
  · rw [hw.frame.size, max_eq_left hsize]
  · intro x hx hout
    refine hw.rest ?_ hout
    simp only [blocksOf, BSIZE]
    omega
  · intro j hj
    exact ⟨hw.frame.inode hj, fun halloc => (hw.other h hj halloc).2⟩

theorem Written.wrote_updated
    (hsize : (s.inode i).d.size ≤ off + src.length) (hmax : off + src.length ≤ MAXFILE * BSIZE) :
    Wrote i off src s ((s'.setIncore i
      { s'.inode i with d := { (s'.inode i).d with size := off + src.length } }).updated i) := by
  have hi' := hw.frame.valid.trans hi
  have hblocks : max (blocksOf (s.inode i).d.size) (blocksOf (off + src.length)) =
      blocksOf (off + src.length) := max_eq_right (blocksOf_mono hsize)
  have hmapped := hw.mapped
  rw [hblocks] at hmapped
  have hbig : off + src.length < 2 ^ 32 := by
    simp only [MAXFILE, NDIRECT, NINDIRECT, BSIZE] at hmax
    omega
  have hsound := h.resize hi hw.frame hw.inv hbig hmapped
  have htype : (s'.inode i).d.type ≠ 0 := by
    have hne := (hw.inv.valid hi').2
    rwa [cur_of_valid hi'] at hne
  have hinv : (s'.setIncore i
      { s'.inode i with d := { (s'.inode i).d with size := off + src.length } }).Inv :=
    hw.inv.setD hi' htype rfl
  have hself := inode_setIncore_self s' i
    { s'.inode i with d := { (s'.inode i).d with size := off + src.length } }
  generalize ht : s'.setIncore i
    { s'.inode i with d := { (s'.inode i).d with size := off + src.length } } = t at hsound hinv hself ⊢
  have hit : (t.inode i).valid = true := by rw [hself]; exact hi'
  have hlt : i < t.sb.ninodes := (hinv.valid hit).1
  have hblock : t.block = s'.block := by rw [← ht]; rfl
  have hset : Spends s' t 0 0 := ht ▸ spends_setIncore ..
  -- the bytes of the file are found through the same slots
  have hbyte {x : Nat} (hx : x / BSIZE < blocksOf (off + src.length)) :
      fileByte (t.updated i).block ((t.updated i).inode i).d x = fileByte s'.block (s'.inode i).d x := by
    have hcur : t.cur i = (t.inode i).d := cur_of_valid hit
    have hdslots : (t.inode i).d.addrs = (s'.inode i).d.addrs := by rw [hself]
    have hm : Mapped t.block (t.cur i) (blocksOf (off + src.length)) := by
      rw [hcur, hblock]
      exact hmapped.congr (ptr_of_addrs hdslots)
    have hupdated := hinv.fileByte_updated hlt (hinv.valid hit) hm hx
    rw [hcur] at hupdated
    rw [show (t.updated i).inode = t.inode from rfl, hupdated, hblock, fileByte, fileByte,
      ptr_of_addrs hdslots]
  have hspends : Spends t (t.updated i) 0 1 := by
    refine spends_write fun c hc => ?_
    have hiblock := hinv.owned.formatted.layout.iblock_lt hlt
    have hbblock := Superblock.Layout.le_bblock t.sb c
    omega
  have hlow := indirectCost_le s i
  obtain ⟨k, hspent, hk⟩ := hcost
  refine ⟨hsound, ?_, ?_, ?_, ?_, ?_, ?_, ?_, ?_, ?_⟩
  · rw [← hw.frame.sb, ← ht]
    rfl
  · change (t.inode i).ref = _
    rw [hself, hw.frame.ref]
  · change (t.inode i).valid = _
    rw [hself, hw.frame.valid]
  · change SameNode _ (t.inode i).d
    rw [hself]
    exact ⟨hw.frame.node.type, hw.frame.node.major, hw.frame.node.minor, hw.frame.node.nlink⟩
  · change (t.inode i).d.size = _
    rw [hself, max_eq_right hsize]
  · intro k hk
    rw [hbyte, hw.bytes k hk]
    simp only [blocksOf, BSIZE]
    omega
  · intro x hx hout
    rw [hbyte, hw.rest _ hout]
    · simp only [blocksOf, BSIZE]
      omega
    · simp only [blocksOf, BSIZE]
      omega
  · intro j hj
    have hinode : (t.updated i).inode j = s.inode j := by
      change t.inode j = _
      rw [← ht, inode_setIncore_ne hj, hw.frame.inode hj]
    refine ⟨hinode, fun halloc => ?_⟩
    obtain ⟨halloc', hcur', hbytes⟩ := hw.other h hj halloc
    have hcurt : t.cur j = s.cur j := by rw [← ht, cur_setIncore_ne hj, hcur']
    have halloct : t.allocated j := by
      refine ⟨?_, by rw [hcurt]; exact halloc.2⟩
      rw [← ht]
      exact halloc'.1
    have hm : Mapped t.block (t.cur j) (blocksOf (s.cur j).size) := by
      rw [hcurt, hblock]
      exact (h.mapped halloc).congr (hw.frame.ptr hj halloc)
    refine ⟨by rw [cur_updated hit (hsound.fits hit), hcurt], fun {x} hx => ?_⟩
    have hupdated := hinv.fileByte_updated hlt halloct hm hx
    rw [hcurt, hblock, hbytes hx] at hupdated
    exact hupdated
  · exact ((hspent.trans hset).trans hspends).mono (Nat.le_refl _) (by omega)

end

/-- The offset and the length are such that `writei` writes. -/
def InRange (s : Store) (i off n : Nat) : Prop :=
  (s.inode i).d.type ≠ T_DEV ∧ off ≤ (s.inode i).d.size ∧ ¬(off + n) % 2 ^ 32 < off ∧
    off + n ≤ MAXFILE * BSIZE

theorem wp_writei_file (h : s.Sound) (hi : (s.inode i).valid = true) {off : Nat}
    {Q : Int → Store → Prop}
    (ha : s.InRange i off src.length → s.Affords E
      (footprint (max (blocksOf (s.inode i).d.size) (blocksOf (off + src.length))) -
        footprint (blocksOf (s.inode i).d.size))
      (span off src.length + (blocksOf (off + src.length) - blocksOf (s.inode i).d.size) + 3))
    (hdev : (s.inode i).d.type = T_DEV → ∀ r, Q r s)
    (hfail : (s.inode i).d.type ≠ T_DEV → ¬s.InRange i off src.length → Q (-1) s)
    (hok : s.InRange i off src.length → ∀ s', Wrote i off src s s' → Q src.length s') :
    Run.wp E (writei i off src) Q s := by
  have hm := h.mapped_valid hi
  rw [writei, Run.wp_bind, Run.wp_get]
  dsimp only
  split
  · rename_i htype
    split
    · exact (Run.wp_pure ..).mpr (hdev htype _)
    · split <;> exact (Run.wp_pure ..).mpr (hdev htype _)
  rename_i htype
  split
  · rename_i hout
    exact (Run.wp_pure ..).mpr (hfail htype fun hin => by have := hin.2; omega)
  split
  · rename_i hbig
    exact (Run.wp_pure ..).mpr (hfail htype fun hin => absurd hin.2.2.2 (Nat.not_le.mpr hbig))
  rename_i hin hmax
  have hrange : s.InRange i off src.length := ⟨htype, by omega, by omega, by omega⟩
  have hoff : off ≤ blocksOf (s.inode i).d.size * BSIZE := by
    have hsize := size_le_blocksOf (s.inode i).d.size
    omega
  have haffords := ha hrange
  have hlow := indirectCost_le s i
  rw [Run.wp_bind]
  refine Run.wp_mono (wp_writeLoop h.toInv hi hm (Nat.le_refl _) hoff (by omega)
    (haffords.mono (Nat.le_refl _) (by omega))) ?_
  rintro off' s1 ⟨rfl, hw, hcost⟩
  have hsize1 := hw.frame.size
  rw [Run.wp_bind, Run.wp_get]
  split
  · rename_i hgrow
    have hrest : s1.Affords E 0 1 := by
      obtain ⟨k, hspends, hk⟩ := hcost
      exact Affords.rest (haffords.mono (Nat.le_refl _) (by omega)) hspends
    rw [Run.wp_bind, modifyInode, Run.wp_modify, Run.wp_bind]
    refine wp_iupdate ?_ ((Run.wp_pure ..).mpr (hok hrange _ ?_))
    · exact Affords.rest (m := 0) (n := 0) hrest (spends_setIncore ..)
    · exact hw.wrote_updated h hi hcost (by omega) (by omega)
  · rename_i hsmall
    rw [Run.wp_pure]
    refine hok hrange s1 (hw.wrote h hi hcost ?_)
    omega

theorem wp_writei (h : s.Sound) (hi : (s.inode i).valid = true) {off : Nat} :
    Run.wp MayPanic (writei i off src) (fun _ s' => s'.Sound) s :=
  wp_writei_file h hi (fun _ => mayPanic_affords ..) (fun _ _ => h) (fun _ _ => h) fun _ _ hw => hw.sound

end Store

end Xv6
