import Xv6.Disk.Write

/-!
# Freeing files

`itrunc` gives back the blocks of one inode, slot by slot and then entry by entry; none of them is
free already, since each has the inode as its only owner.
-/

namespace Xv6

open Run (wp_bind wp_get wp_modify wp_mono wp_pure)
open Function (update_apply update_of_ne)

namespace Store

variable {s s' : Store} {i : Nat}

theorem Inv.ptr_free (h : s.Inv) {b : Nat} (hb : b < s.sb.size) {j : Nat} (hj : s.allocated j)
    (p : Place) : ptr (s.free b).block (s.cur j) p = ptr s.block (s.cur j) p := by
  refine ptr_congr (fun hind => ?_) p
  have harea := h.owned.dataArea (x := (j, .slot indirect)) (names_eq_some.mpr ⟨hj, hind, rfl⟩)
  exact block_free h.owned.formatted.layout hb harea.1

/-- The blocks in some direct slots of an inode are free. -/
structure Emptied (i : Nat) (ks : List (Fin (NDIRECT + 1))) (s s' : Store) : Prop where
  inv : s'.Inv
  frame : Frame i s s'
  ptr : ∀ q, ptr s'.block (s'.inode i).d q =
    if ∃ k ∈ ks, q = .slot k then 0 else Xv6.ptr s.block (s.inode i).d q

variable {k : Fin (NDIRECT + 1)}

section

variable (h : s.Inv) (hi : (s.inode i).valid = true)
include h hi

theorem Inv.dropSlot (hk : k ≠ indirect) (hne : (s.inode i).d.addrs k ≠ 0) :
    Emptied i [k] s ((s.free ((s.inode i).d.addrs k)).putSlot i k 0) := by
  have hcur := cur_of_valid hi
  have hname : s.names (i, .slot k) = some ((s.inode i).d.addrs k) :=
    names_eq_some.mpr ⟨h.valid hi, hne, by rw [hcur]; rfl⟩
  have hlt := (h.owned.dataArea hname).2
  have hkeeps := keeps_free h.owned.formatted.layout ((s.inode i).d.addrs k)
  have hframe : Frame i s ((s.free ((s.inode i).d.addrs k)).putSlot i k 0) :=
    .putSlot hkeeps k 0 fun _ hj p => h.ptr_free hlt hj p
  have hptr : ∀ q, ptr ((s.free ((s.inode i).d.addrs k)).putSlot i k 0).block
      (((s.free ((s.inode i).d.addrs k)).putSlot i k 0).inode i).d q =
        if q = .slot k then 0 else ptr s.block (s.inode i).d q := by
    intro q
    rw [putSlot_inode hkeeps.inode]
    cases q with
    | slot k' => simp [ptr, update_apply]
    | entry j =>
      have hsame := h.ptr_free hlt (h.valid hi) (.entry j)
      rw [hcur] at hsame
      simpa [ptr, update_of_ne hk.symm] using hsame
  refine ⟨h.of_owned hframe hi ((h.owned.free hname).of_blocks rfl rfl) (fun j q hj => ?_)
    fun q => ?_, hframe, fun q => by simpa using hptr q⟩
  · exact update_of_ne (fun he => hj (congrArg Prod.fst he)) _ _
  · rw [hptr, update_apply]
    by_cases hq : q = .slot k
    · simp [hq]
    · simp [hq, names, hcur, h.valid hi]

theorem wp_freeSlot
    (hk : k ≠ indirect) : Run.wp MayPanic (freeSlot i k) (fun _ s' => Emptied i [k] s s') s := by
  rw [freeSlot, wp_bind, wp_get]
  split
  · rename_i hne
    have hname : s.names (i, .slot k) = some ((s.inode i).d.addrs k) :=
      names_eq_some.mpr ⟨h.valid hi, hne, by rw [cur_of_valid hi]; rfl⟩
    rw [wp_bind]
    refine wp_bfree h.owned.formatted.super (h.owned.tenancy.used_of_name hname).2 (mayPanic_affords ..) ?_
    exact wp_setAddr (h.dropSlot hi hk hne)
  · rename_i hzero
    rw [wp_pure]
    refine ⟨h, Frame.refl i s, fun q => ?_⟩
    split
    · rename_i hq
      obtain ⟨k', hk', rfl⟩ := hq
      obtain rfl := List.mem_singleton.mp hk'
      exact not_not.mp hzero
    · rfl

theorem wp_freeSlots {ks : List (Fin (NDIRECT + 1))} (hks : ∀ k ∈ ks, k ≠ indirect) :
    Run.wp MayPanic (freeSlots i ks) (fun _ s' => Emptied i ks s s') s := by
  induction ks generalizing s with
  | nil =>
    rw [freeSlots, wp_pure]
    exact ⟨h, Frame.refl i s, fun q => by simp⟩
  | cons k ks ih =>
    rw [freeSlots, wp_bind]
    refine wp_mono (wp_freeSlot h hi (hks k List.mem_cons_self)) fun _ s1 h1 => ?_
    refine wp_mono (ih h1.inv (h1.frame.valid.trans hi)
      fun k' hk' => hks k' (List.mem_cons_of_mem k hk')) fun _ s2 h2 => ?_
    refine ⟨h2.inv, h1.frame.trans h2.frame, fun q => ?_⟩
    rw [h2.ptr, h1.ptr]
    simp only [List.mem_cons, List.not_mem_nil, or_false, exists_eq_or_imp, exists_eq_left]
    by_cases hq : q = .slot k <;> simp [hq]

end

theorem wp_freeEntries {name : Nat × Place → Option Nat} (h : s.Owned name) {a : Block}
    {js : List Nat} (hjs : js.Nodup)
    (hname : ∀ j ∈ js, name (i, .entry j) = if a.word j ≠ 0 then some (a.word j) else none)
    {Q : Unit → Store → Prop}
    (hQ : ∀ s', Keeps s s' → (∀ b, s.sb.datastart ≤ b → s'.block b = s.block b) →
      s'.Owned (fun x => if ∃ j ∈ js, x = (i, .entry j) then none else name x) → Q () s') :
    Run.wp MayPanic (freeEntries a js) Q s := by
  induction js generalizing s name with
  | nil =>
    rw [freeEntries, wp_pure]
    exact hQ s ⟨rfl, rfl, rfl, fun _ => rfl⟩ (fun _ _ => rfl) (by simpa using h)
  | cons j js ih =>
    obtain ⟨hj, hjs⟩ := List.nodup_cons.mp hjs
    have hnamej := hname j List.mem_cons_self
    rw [freeEntries]
    split
    · rename_i hword
      rw [if_pos hword] at hnamej
      have hlt := (h.dataArea hnamej).2
      have hkeeps := keeps_free h.formatted.layout (a.word j)
      rw [wp_bind]
      refine wp_bfree h.formatted.super (h.tenancy.used_of_name hnamej).2 (mayPanic_affords ..) ?_
      refine ih (h.free hnamej) hjs (fun j' hj' => ?_) fun s' hk hblock howned => ?_
      · have hne : j' ≠ j := by
          rintro rfl
          exact hj hj'
        rw [update_of_ne (by simp [hne])]
        exact hname j' (List.mem_cons_of_mem j hj')
      · refine hQ s' (hkeeps.trans hk) (fun b hb => ?_) ?_
        · rw [hblock b hb, block_free h.formatted.layout hlt hb]
        · convert howned using 1
          funext x
          simp only [List.mem_cons, exists_eq_or_imp, update_apply]
          by_cases hx : x = (i, .entry j) <;> simp [hx]
    · rename_i hword
      rw [if_neg hword] at hnamej
      refine ih h hjs (fun j' hj' => hname j' (List.mem_cons_of_mem j hj'))
        fun s' hk hblock howned => hQ s' hk hblock ?_
      convert howned using 1
      funext x
      simp only [List.mem_cons, exists_eq_or_imp]
      by_cases hx : x = (i, .entry j)
      · simp [hx, hnamej]
      · simp [hx]

theorem index_slot_lt (hk : k ≠ indirect) :
    ¬ NDIRECT ≤ (Place.slot k).index := by
  have hlt := k.isLt
  have hne : k.val ≠ NDIRECT := fun he => hk (Fin.ext he)
  rw [Place.index]
  omega

theorem wp_freeIndirect (h : s.Inv) (hi : (s.inode i).valid = true) :
    Run.wp MayPanic (freeIndirect i) (fun _ s' => s'.Inv ∧ Frame i s s' ∧
      ∀ q, ptr s'.block (s'.inode i).d q =
        if NDIRECT ≤ q.index then 0 else ptr s.block (s.inode i).d q) s := by
  have hcur := cur_of_valid hi
  rw [freeIndirect, wp_bind, wp_get]
  split
  · rename_i ha
    have haname : s.names (i, .slot indirect) = some ((s.inode i).d.addrs indirect) :=
      names_eq_some.mpr ⟨h.valid hi, ha, by rw [hcur]; rfl⟩
    rw [wp_bind]
    refine wp_bread ?_
    rw [wp_bind]
    have hentry (j : Nat) : s.names (i, .entry j) =
        if (s.block ((s.inode i).d.addrs indirect)).word j ≠ 0
        then some ((s.block ((s.inode i).d.addrs indirect)).word j) else none := by
      simp [names, hcur, h.valid hi, ptr, ha]
    refine wp_freeEntries (i := i) h.owned List.nodup_range (fun j _ => hentry j)
      fun s1 hk1 hblock1 howned1 => ?_
    have haname1 : (if ∃ j ∈ List.range NINDIRECT, (i, Place.slot indirect) = (i, .entry j) then none
        else s.names (i, .slot indirect)) = some ((s.inode i).d.addrs indirect) := by
      rw [if_neg (by simp), haname]
    have harea := h.owned.dataArea haname
    have hlt := harea.2
    rw [wp_bind]
    refine wp_bfree howned1.formatted.super (howned1.tenancy.used_of_name haname1).2 (mayPanic_affords ..) ?_
    refine wp_setAddr ?_
    have hk2 := hk1.trans (keeps_free howned1.formatted.layout ((s.inode i).d.addrs indirect))
    have hframe : Frame i s ((s1.free ((s.inode i).d.addrs indirect)).putSlot i indirect 0) := by
      refine .putSlot hk2 indirect 0 fun {j} _ hj p => ptr_congr (fun hind => ?_) p
      have hjarea := h.owned.dataArea (x := (j, .slot indirect)) (names_eq_some.mpr ⟨hj, hind, rfl⟩)
      rw [block_free howned1.formatted.layout (hk1.sb ▸ hlt) (hk1.sb ▸ hjarea.1),
        hblock1 _ hjarea.1]
    have hptr : ∀ q, ptr ((s1.free ((s.inode i).d.addrs indirect)).putSlot i indirect 0).block
        (((s1.free ((s.inode i).d.addrs indirect)).putSlot i indirect 0).inode i).d q =
          if NDIRECT ≤ q.index then 0 else ptr s.block (s.inode i).d q := by
      intro q
      rw [putSlot_inode hk2.inode]
      cases q with
      | slot k =>
        by_cases hkind : k = indirect
        · simp [ptr, hkind, Place.index]
        · rw [if_neg (index_slot_lt hkind)]
          simp [ptr, update_of_ne hkind]
      | entry j => simp [ptr, Place.index]
    refine ⟨h.of_owned hframe hi ((howned1.free haname1).of_blocks rfl rfl) (fun j q hj => ?_)
      fun q => ?_, hframe, hptr⟩
    · rw [update_of_ne fun he => hj (congrArg Prod.fst he), if_neg]
      rintro ⟨j', _, he⟩
      exact hj (congrArg Prod.fst he)
    · rw [hptr]
      cases q with
      | slot k =>
        by_cases hkind : k = indirect
        · simp [hkind, Place.index]
        · rw [update_of_ne (by simp [hkind]), if_neg (index_slot_lt hkind)]
          simp [names, hcur, h.valid hi]
      | entry j =>
        rw [update_of_ne (by simp)]
        by_cases hj : j < NINDIRECT
        · simp [Place.index, hj]
        · have hword : (s.block ((s.inode i).d.addrs indirect)).word j = 0 := by
            refine Bytes.word_of_ge _ ?_
            simp only [NINDIRECT, BSIZE] at hj ⊢
            omega
          rw [hentry, hword]
          simp [Place.index]
  · rename_i hzero
    have hzero : (s.inode i).d.addrs indirect = 0 := not_not.mp hzero
    rw [wp_pure]
    refine ⟨h, Frame.refl i s, fun q => ?_⟩
    split
    · rename_i hq
      cases q with
      | slot k =>
        have hk := k.isLt
        obtain rfl : k = indirect := Fin.ext (by
          rw [Place.index] at hq
          rw [Fin.val_last]
          omega)
        exact hzero
      | entry j => simp [ptr, hzero]
    · rfl

theorem wp_itrunc (h : s.Sound) (hi : (s.inode i).valid = true) :
    Run.wp MayPanic (itrunc i) (fun _ s' => s'.Sound ∧ (s'.inode i).valid = true ∧
      (s'.inode i).d.size = 0) s := by
  rw [itrunc, wp_bind]
  have hdirect : ∀ k ∈ (List.finRange NDIRECT).map Fin.castSucc, k ≠ indirect := by
    intro k hk
    obtain ⟨k', _, rfl⟩ := List.mem_map.mp hk
    exact (Fin.castSucc_lt_last k').ne
  refine wp_mono (wp_freeSlots h.toInv hi hdirect) fun _ s1 h1 => ?_
  have hi1 := h1.frame.valid.trans hi
  rw [wp_bind]
  refine wp_mono (wp_freeIndirect h1.inv hi1) fun _ s2 h2 => ?_
  obtain ⟨hinv2, hframe2, hptr2⟩ := h2
  rw [wp_bind, modifyInode, wp_modify]
  refine wp_iupdate (mayPanic_affords ..) ?_
  have hempty : Mapped s2.block (s2.inode i).d (blocksOf 0) := by
    refine ⟨Nat.zero_le _, fun q => ?_⟩
    rw [hptr2, h1.ptr]
    refine iff_of_false ?_ (Nat.not_lt_zero _)
    rw [not_not]
    split
    · rfl
    · rename_i hlt
      refine if_pos ?_
      cases q with
      | slot k =>
        rw [Place.index, Nat.not_le] at hlt
        exact ⟨k, List.mem_map.mpr ⟨⟨k.val, hlt⟩, List.mem_finRange _, rfl⟩, rfl⟩
      | entry j =>
        rw [Place.index] at hlt
        omega
  refine ⟨h.resize hi (h1.frame.trans hframe2) hinv2 (by decide) hempty, ?_, ?_⟩
  · rw [updated, inode_write, inode_setIncore_self]
    exact hframe2.valid.trans hi1
  · rw [updated, inode_write, inode_setIncore_self]

theorem Sound.of_cur (h : s.Sound) (hsb : s'.sb = s.sb) (hblock : s'.block = s.block)
    (hcur : ∀ j, s'.cur j = s.cur j)
    (hvalid : ∀ {j}, (s'.inode j).valid = true → s.allocated j ∧ s.diskDinode j = (s'.inode j).d) :
    s'.Sound := by
  have halloc (j : Nat) : s'.allocated j ↔ s.allocated j := by rw [allocated, allocated, hcur, hsb]
  have hinv : s'.Inv := by
    refine .of_names (h.owned.of_blocks hsb hblock) (fun j q => ?_)
      fun {j} hj => (halloc j).mpr (hvalid hj).1
    exact names_congr (halloc j) (fun _ q => by rw [hcur, hblock]) q
  refine { hinv with mapped := ?_, through := ?_ }
  · intro j hj
    rw [hcur, hblock]
    exact h.mapped ((halloc j).mp hj)
  · intro j hj
    rw [diskDinode, hblock, hsb]
    exact (hvalid hj).2

theorem Sound.setRef (h : s.Sound) {n : Incore} (hd : n.d = (s.inode i).d)
    (hv : n.valid = true → (s.inode i).valid = true) : (s.setIncore i n).Sound := by
  refine h.of_cur rfl rfl (fun j => ?_) fun {j} hj => ?_
  · by_cases hj : j = i
    · subst hj
      rw [cur, inode_setIncore_self]
      by_cases hvalid : n.valid = true
      · rw [if_pos hvalid, cur_of_valid (hv hvalid), hd]
      · rw [if_neg hvalid, cur]
        split
        · exact h.through ‹_›
        · rfl
    · exact cur_setIncore_ne hj
  · by_cases hji : j = i
    · subst hji
      rw [inode_setIncore_self] at hj ⊢
      rw [hd]
      exact ⟨h.valid (hv hj), h.through (hv hj)⟩
    · rw [inode_setIncore_ne hji] at hj ⊢
      exact ⟨h.valid hj, h.through hj⟩

theorem Sound.load (h : s.Sound) (hlt : i < s.sb.ninodes) (hi : (s.inode i).valid = false)
    (htype : (s.diskDinode i).type ≠ 0) :
    (s.setIncore i { s.inode i with d := s.diskDinode i, valid := true }).Sound := by
  have hcur : s.cur i = s.diskDinode i := by rw [cur, hi, if_neg (by decide)]
  refine h.of_cur rfl rfl (fun j => ?_) fun {j} hj => ?_
  · by_cases hj : j = i
    · subst hj
      rw [hcur, cur_of_valid (by rw [inode_setIncore_self]), inode_setIncore_self]
    · exact cur_setIncore_ne hj
  · by_cases hji : j = i
    · subst hji
      rw [inode_setIncore_self]
      exact ⟨⟨hlt, by rwa [hcur]⟩, rfl⟩
    · rw [inode_setIncore_ne hji] at hj ⊢
      exact ⟨h.valid hj, h.through hj⟩

theorem Sound.replace (h : s.Sound) (hlt : i < s.sb.ninodes) {d : Dinode} (hd : d.Fits)
    (hbefore : ∀ q, s.names (i, q) = none) (hafter : d.type ≠ 0 → d.size = 0 ∧ ∀ k, d.addrs k = 0)
    {n : Incore} (hn : n.valid = false) :
    ((s.write (IBLOCK i s.sb) (putDinode (s.block (IBLOCK i s.sb)) (i % IPB) d)).setIncore i n).Sound := by
  have hdisk (j : Nat) := diskDinode_write_iblock (s := s) (i := i) hd j
  generalize hs1 : s.write (IBLOCK i s.sb) (putDinode (s.block (IBLOCK i s.sb)) (i % IPB) d) = s1
    at hdisk ⊢
  have howned1 : s1.Owned s.names := hs1 ▸ h.owned.write_iblock hlt _
  have hsb : s1.sb = s.sb := by rw [← hs1, sb_write]
  have hinode : s1.inode = s.inode := by rw [← hs1, inode_write]
  have hcur : (s1.setIncore i n).cur i = d := by
    rw [cur, inode_setIncore_self, hn, if_neg (by decide)]
    exact (hdisk i).trans (if_pos rfl)
  have hcur' {j : Nat} (hj : j ≠ i) : (s1.setIncore i n).cur j = s.cur j := by
    rw [cur_setIncore_ne hj, cur, cur, hinode, hdisk, if_neg hj]
  have halloc {j : Nat} (hj : j ≠ i) : (s1.setIncore i n).allocated j ↔ s.allocated j := by
    rw [allocated, allocated, hcur' hj]
    exact and_congr_left fun _ => by rw [← hsb]; rfl
  have hptr {j : Nat} (hj : j ≠ i) (hja : s.allocated j) (q : Place) :
      ptr (s1.setIncore i n).block ((s1.setIncore i n).cur j) q = ptr s.block (s.cur j) q := by
    rw [hcur' hj, ← hs1]
    exact h.ptr_write_iblock hlt _ hja q
  have hempty (hi : (s1.setIncore i n).allocated i) (q : Place) :
      ptr (s1.setIncore i n).block d q = 0 := by
    obtain ⟨_, haddrs⟩ := hafter (by rw [← hcur]; exact hi.2)
    cases q <;> simp [ptr, haddrs]
  have hvalid {j : Nat} (hj : ((s1.setIncore i n).inode j).valid = true) :
      j ≠ i ∧ (s.inode j).valid = true := by
    have hne : j ≠ i := by
      rintro rfl
      rw [inode_setIncore_self, hn] at hj
      cases hj
    rw [inode_setIncore_ne hne, hinode] at hj
    exact ⟨hne, hj⟩
  have hinv : (s1.setIncore i n).Inv := by
    refine .of_names (howned1.of_blocks rfl rfl) (fun j q => ?_) fun {j} hj => ?_
    · by_cases hj : j = i
      · subst hj
        rw [hbefore, names]
        refine if_neg ?_
        rintro ⟨hi, hne⟩
        rw [hcur] at hne
        exact hne (hempty hi q)
      · exact names_congr (halloc hj) (hptr hj) q
    · obtain ⟨hne, hj⟩ := hvalid hj
      exact (halloc hne).mpr (h.valid hj)
  refine { hinv with mapped := ?_, through := ?_ }
  · intro j hj
    by_cases hji : j = i
    · subst hji
      have hzero := hempty hj
      rw [hcur, (hafter (by rw [← hcur]; exact hj.2)).1]
      refine ⟨Nat.zero_le _, fun q => iff_of_false ?_ (Nat.not_lt_zero _)⟩
      rw [hzero, not_not]
    · have hja := (halloc hji).mp hj
      have hm := (h.mapped hja).congr (hptr hji hja)
      rwa [← hcur' hji] at hm
  · intro j hj
    obtain ⟨hne, hj⟩ := hvalid hj
    rw [inode_setIncore_ne hne, hinode, ← h.through hj]
    exact (hdisk j).trans (if_neg hne)

theorem wp_iput (h : s.Sound) : Run.wp MayPanic (iput i) (fun _ s' => s'.Sound) s := by
  rw [iput, wp_bind, wp_get]
  split
  · rename_i hlast
    rw [wp_bind]
    refine wp_mono (wp_itrunc h hlast.1) fun _ s1 h1 => ?_
    obtain ⟨h1, hi1, hsize1⟩ := h1
    rw [wp_bind, modifyInode, wp_modify, wp_bind]
    refine wp_iupdate (mayPanic_affords ..) ?_
    rw [wp_bind, wp_modify, wp_modify]
    have hnames : ∀ q, s1.names (i, q) = none := by
      intro q
      refine names_eq_none ?_
      have hm := h1.mapped_valid hi1
      rw [hsize1] at hm
      by_contra hne
      rw [cur_of_valid hi1] at hne
      exact Nat.not_lt_zero _ ((hm.2 q).mp hne)
    have hfits : ({ (s1.inode i).d with type := 0 } : Dinode).Fits := { h1.fits hi1 with type := rfl }
    have hfreed := h1.replace (h1.valid hi1).1 hfits hnames (fun hne => absurd rfl hne)
      (n := ⟨(s1.inode i).ref - 1, false, { (s1.inode i).d with type := 0 }⟩) rfl
    convert hfreed using 1
    simp [updated, setIncore, write, Function.update_idem]
  · rw [wp_modify]
    exact h.setRef rfl fun hv => hv

end Store

end Xv6
