import Mathlib.Data.List.Basic
import Xv6.Vm.Tree

/-!
# `deallocuvm`

The loop of `deallocuvm` skips what a missing page table would map.  Its effect is that of a loop that
visits every page.
-/

namespace Xv6

namespace Vm

/-- Every page one by one, as `deallocuvm` without the skip -/
def deallocPages (pgdir : Nat) : List Nat → VmM Unit
  | [] => return ()
  | v :: rest => do
    match ← walkpgdir pgdir (v * PGSIZE) false with
    | none => deallocPages pgdir rest
    | some (pgtab, i) =>
      freePage pgtab i
      deallocPages pgdir rest

/-- The pages in `[PGROUNDUP(newsz), oldsz)` -/
def pagesBetween (newsz oldsz : Nat) : List Nat := List.range' (npages newsz) (npages oldsz - npages newsz)

/-- User pages are mapped to pages that can be freed and are no part of the directory. -/
structure Freeable (s : Phys) (d : Nat) : Prop extends Tree s d where
  frame : ∀ v < 2 ^ 19, ∀ f, entryFrame (s.entry d v) = some f → Managed f ∧ ¬s.Uses d f

/-- The page is freed if it is present. -/
def Phys.dropPage (s : Phys) (d v : Nat) : Phys :=
  match s.table d (v / 1024), entryFrame (s.entry d v) with
  | some t, some f => (s.give f).setWord t (v % 1024) 0
  | _, _ => s

section

variable {E : Stop → Prop} {s s' : Phys} {d f i t v w k : Nat}

theorem Phys.entry_give (hf : ¬s.Uses d f) :
    (s.give f).table d = s.table d ∧ (s.give f).entry d = s.entry d := s.entry_setPage hf _

theorem Tree.give (h : Tree s d) (hf : ¬s.Uses d f) : Tree (s.give f) d := by
  have htable := (Phys.entry_give hf).1
  refine ⟨?_, ?_⟩
  · intro i j t hi hj
    rw [htable] at hi hj
    exact h.inj hi hj
  · intro i hi
    rw [htable] at hi
    exact h.ne_dir hi

theorem Phys.table_of_entryFrame (h : entryFrame (s.entry d v) = some f) :
    ∃ t, s.table d (v / 1024) = some t := by
  cases ht : s.table d (v / 1024) with
  | some t => exact ⟨t, rfl⟩
  | none =>
    rw [entry_of_none ht] at h
    cases h

theorem Phys.dropPage_of_none (h : entryFrame (s.entry d v) = none) : s.dropPage d v = s := by
  rw [dropPage, h]
  split <;> simp_all

theorem Phys.dropPage_of_some (ht : s.table d (v / 1024) = some t)
    (h : entryFrame (s.entry d v) = some f) :
    s.dropPage d v = (s.give f).setWord t (v % 1024) 0 := by
  rw [dropPage, ht, h]

variable {vs : List Nat}

namespace Freeable

section

variable (h : Freeable s d) (hv : v < 2 ^ 19)
include h hv

theorem dropPage : (s.dropPage d v).table d = s.table d ∧
      (∀ w, (s.dropPage d v).entry d w =
        if w = v ∧ Present (s.entry d v) then 0 else s.entry d w) ∧
      (s.dropPage d v).free = (entryFrame (s.entry d v)).toList ++ s.free ∧
      ∀ g, ¬s.Uses d g → entryFrame (s.entry d v) ≠ some g → (s.dropPage d v).mem g = s.mem g := by
  cases hf : entryFrame (s.entry d v) with
  | none =>
    rw [Phys.dropPage_of_none hf]
    have hp : ¬Present (s.entry d v) := by
      intro hp
      rw [entryFrame, if_pos hp] at hf
      cases hf
    refine ⟨rfl, fun w => ?_, rfl, fun _ _ _ => rfl⟩
    rw [if_neg fun hw => hp hw.2]
  | some f =>
    obtain ⟨t, ht⟩ := Phys.table_of_entryFrame hf
    have hunused := (h.frame v hv f hf).2
    have htree := h.toTree.give hunused
    obtain ⟨htable, hentry⟩ := Phys.entry_give hunused
    have ht' : (s.give f).table d (v / 1024) = some t := by rw [htable, ht]
    have hp := (entryFrame_eq_some.mp hf).1
    rw [Phys.dropPage_of_some ht hf]
    refine ⟨(htree.table_setWord ht' _ _).trans htable, ?_, rfl, ?_⟩
    · intro w
      rw [htree.entry_setWord ht', hentry]
      simp only [hp, and_true]
      rfl
    · intro g hg hne
      have hgt : g ≠ t := by
        rintro rfl
        exact hg (.inr ⟨_, ht⟩)
      have hgf : g ≠ f := by
        rintro rfl
        exact hne rfl
      have hset : ((s.give f).setWord t (v % 1024) 0).mem g = (s.give f).mem g :=
        Phys.mem_setPage_ne hgt _
      rw [hset]
      exact Phys.mem_setPage_ne hgf _

theorem uses_dropPage : (s.dropPage d v).Uses d = s.Uses d := by
  funext g
  simp only [Phys.Uses, (h.dropPage hv).1]

theorem step : Freeable (s.dropPage d v) d := by
  obtain ⟨htable, hentry, -⟩ := h.dropPage hv
  refine ⟨⟨?_, ?_⟩, ?_⟩
  · intro i j t hi hj
    rw [htable] at hi hj
    exact h.inj hi hj
  · intro i hi
    rw [htable] at hi
    exact h.ne_dir hi
  · intro w hw f hf
    rw [h.uses_dropPage hv]
    rw [hentry] at hf
    split at hf
    · cases hf
    · exact h.frame w hw f hf

theorem wp_freePage (ht : s.table d (v / 1024) = some t) {Q : Unit → Phys → Prop}
    (hQ : Q () (s.dropPage d v)) : Run.wp E (freePage t (v % 1024)) Q s := by
  rw [freePage, Run.wp_bind]
  apply wp_readWord
  rw [← Phys.entry_of_table ht]
  by_cases hp : Present (s.entry d v)
  · have hf : entryFrame (s.entry d v) = some (PTE_ADDR (s.entry d v) / PGSIZE) := if_pos hp
    have hmanaged := (h.frame v hv _ hf).1
    have hne : PTE_ADDR (s.entry d v) ≠ 0 := by
      intro hzero
      rw [hzero] at hmanaged
      exact absurd hmanaged (by decide)
    rw [if_pos hp, if_neg hne, Run.wp_bind]
    apply wp_kfree hmanaged
    apply wp_writeWord
    rw [Phys.dropPage_of_some ht hf] at hQ
    exact hQ
  · rw [if_neg hp, Run.wp_pure]
    rw [Phys.dropPage_of_none (entryFrame_of_not hp)] at hQ
    exact hQ

end

theorem wp_deallocPages (h : Freeable s d) (hvs : ∀ v ∈ vs, v < 2 ^ 19) :
    Run.wp E (deallocPages d vs) (fun _ s' => s' = vs.foldl (fun s v => s.dropPage d v) s) s := by
  induction vs generalizing s with
  | nil => exact (Run.wp_pure ..).mpr rfl
  | cons v vs ih =>
    have hv := hvs v List.mem_cons_self
    have hrest := ih (h.step hv) fun w hw => hvs w (List.mem_cons_of_mem _ hw)
    rw [deallocPages, Run.wp_bind]
    apply wp_walkpgdir (by omega)
    cases ht : s.table d (v / 1024) with
    | none =>
      have hf : entryFrame (s.entry d v) = none := by rw [Phys.entry_of_none ht]; rfl
      rw [Phys.dropPage_of_none hf] at hrest
      rw [List.foldl_cons, Phys.dropPage_of_none hf]
      exact hrest
    | some t =>
      show Run.wp E (freePage t (v % 1024) >>= fun _ => deallocPages d vs) _ s
      rw [Run.wp_bind]
      exact h.wp_freePage hv ht hrest

end Freeable

theorem Phys.foldl_dropPage_of_none (h : ∀ v ∈ vs, s.table d (v / 1024) = none) :
    vs.foldl (fun s v => s.dropPage d v) s = s := by
  induction vs with
  | nil => rfl
  | cons v vs ih =>
    have hf : entryFrame (s.entry d v) = none := by
      rw [entry_of_none (h v List.mem_cons_self)]
      rfl
    rw [List.foldl_cons, dropPage_of_none hf]
    exact ih fun w hw => h w (List.mem_cons_of_mem _ hw)

theorem lt_npages {v sz : Nat} : v * 4096 < sz ↔ v < npages sz := by
  unfold npages
  omega

theorem skip_eq {v : Nat} (hv : v < 2 ^ 19) :
    u32 (u32 (PGADDR (PDX (v * 4096) + 1) 0 0 + (2 ^ 32 - PGSIZE)) + PGSIZE) =
      (v / 1024 + 1) * 1024 * 4096 := by
  rw [PDX_page (by omega), PGADDR_dir (by omega)]
  simp only [u32, PGSIZE]
  omega

theorem Freeable.wp_deallocuvmLoop (h : Freeable s d) {oldsz fuel : Nat} (hsz : npages oldsz ≤ 2 ^ 19)
    (hv : v ≤ 2 ^ 19) (hfuel : npages oldsz - v < fuel) :
    Run.wp E (deallocuvmLoop d oldsz fuel (v * 4096)) (fun _ s' =>
      s' = (List.range' v (npages oldsz - v)).foldl (fun s v => s.dropPage d v) s) s := by
  induction fuel generalizing v s with
  | zero => omega
  | succ fuel ih =>
    rw [deallocuvmLoop]
    by_cases hlt : v * 4096 < oldsz
    · have hn := lt_npages.mp hlt
      have hv' : v < 2 ^ 19 := by omega
      rw [if_pos hlt, Run.wp_bind]
      apply wp_walkpgdir (by omega)
      cases ht : s.table d (v / 1024) with
      | none =>
        show Run.wp E (deallocuvmLoop d oldsz fuel _) _ s
        rw [skip_eq hv']
        refine Run.wp_mono (ih h (by omega) (by omega)) ?_
        rintro _ s' rfl
        -- what is skipped would be left alone
        have hskipped : ∀ n ≤ (v / 1024 + 1) * 1024 - v,
            (List.range' v n).foldl (fun s v => s.dropPage d v) s = s := by
          intro n hle
          apply Phys.foldl_dropPage_of_none
          intro w hw
          obtain ⟨i, hi, rfl⟩ := List.mem_range'.mp hw
          rw [show (v + 1 * i) / 1024 = v / 1024 by omega, ht]
        by_cases hend : npages oldsz ≤ (v / 1024 + 1) * 1024
        · rw [show npages oldsz - (v / 1024 + 1) * 1024 = 0 by omega, hskipped _ (by omega)]
          rfl
        · have hsplit := List.range'_append_1 (s := v) (m := (v / 1024 + 1) * 1024 - v)
            (n := npages oldsz - (v / 1024 + 1) * 1024)
          rw [show v + ((v / 1024 + 1) * 1024 - v) = (v / 1024 + 1) * 1024 by omega,
            show (v / 1024 + 1) * 1024 - v + (npages oldsz - (v / 1024 + 1) * 1024) =
              npages oldsz - v by omega] at hsplit
          rw [← hsplit, List.foldl_append, hskipped _ (Nat.le_refl _)]
      | some t =>
        show Run.wp E (freePage t (v % 1024) >>= fun _ => deallocuvmLoop d oldsz fuel _) _ s
        rw [Run.wp_bind]
        apply h.wp_freePage hv' ht
        rw [next_page (by omega), show npages oldsz - v = npages oldsz - (v + 1) + 1 by omega,
          List.range'_succ, List.foldl_cons]
        exact ih (h.step hv') (by omega) (by omega)
    · rw [if_neg hlt, Run.wp_pure]
      rw [lt_npages] at hlt
      rw [show npages oldsz - v = 0 by omega]
      rfl

/-- The frames of the pages that are present -/
def Phys.frames (s : Phys) (d : Nat) (vs : List Nat) : List Nat :=
  vs.filterMap fun v => entryFrame (s.entry d v)

/-- The pages of the list are gone, and their frames free. -/
structure Dropped (s : Phys) (d : Nat) (vs : List Nat) (s' : Phys) : Prop where
  table : s'.table d = s.table d
  entry : ∀ w, s'.entry d w = if w ∈ vs ∧ Present (s.entry d w) then 0 else s.entry d w
  free : s'.free = (s.frames d vs).reverse ++ s.free
  mem : ∀ g, ¬s.Uses d g → g ∉ s.frames d vs → s'.mem g = s.mem g

theorem Freeable.foldl_dropPage (h : Freeable s d) (hvs : ∀ v ∈ vs, v < 2 ^ 19)
    (hnodup : vs.Nodup) : Dropped s d vs (vs.foldl (fun s v => s.dropPage d v) s) := by
  induction vs generalizing s with
  | nil => exact ⟨rfl, fun w => by simp, rfl, fun _ _ _ => rfl⟩
  | cons v vs ih =>
    have hv := hvs v List.mem_cons_self
    obtain ⟨hnot, hnodup⟩ := List.nodup_cons.mp hnodup
    obtain ⟨htable, hentry, hfree, hmem⟩ := h.dropPage hv
    have hrest := ih (h.step hv) (fun w hw => hvs w (List.mem_cons_of_mem _ hw)) hnodup
    have hframes : (s.dropPage d v).frames d vs = s.frames d vs := by
      apply List.filterMap_congr
      intro w hw
      rw [hentry, if_neg]
      rintro ⟨rfl, -⟩
      exact hnot hw
    have hcons : s.frames d (v :: vs) = (entryFrame (s.entry d v)).toList ++ s.frames d vs := by
      rw [Phys.frames, List.filterMap_cons]
      cases entryFrame (s.entry d v) <;> rfl
    rw [List.foldl_cons]
    refine ⟨hrest.table.trans htable, ?_, ?_, ?_⟩
    · intro w
      rw [hrest.entry, hentry]
      by_cases hw : w = v
      · subst hw
        by_cases hp : Present (s.entry d w) <;> simp [hp, hnot]
      · simp [hw]
    · rw [hrest.free, hfree, hframes, hcons, List.reverse_append, List.append_assoc]
      cases entryFrame (s.entry d v) <;> rfl
    · intro g hg hnone
      rw [hcons, List.mem_append, not_or] at hnone
      rw [hrest.mem g (by rw [h.uses_dropPage hv]; exact hg) (by rw [hframes]; exact hnone.2),
        hmem g hg fun hf => hnone.1 (by rw [hf]; exact List.mem_singleton_self g)]

theorem mem_pagesBetween {newsz oldsz : Nat} (hlt : newsz < oldsz) {v : Nat} :
    v ∈ pagesBetween newsz oldsz ↔ npages newsz ≤ v ∧ v < npages oldsz := by
  rw [pagesBetween, List.mem_range'_1]
  have hle : npages newsz ≤ npages oldsz := npages_mono hlt.le
  omega

/-- `deallocuvm` returns `newsz`.  The pages in the range are gone, each present one freed once; page tables
and all other entries are as before.  A loop over every page of the range leads to the same state. -/
theorem Freeable.wp_deallocuvm (h : Freeable s d) {oldsz newsz : Nat} (hlt : newsz < oldsz)
    (hle : oldsz ≤ KERNBASE) :
    Run.wp E (deallocuvm d oldsz newsz) (fun r s' => r = newsz ∧
      s' = (pagesBetween newsz oldsz).foldl (fun s v => s.dropPage d v) s) s := by
  have hnpages := npages_le hle
  have hfrom : npages newsz ≤ npages oldsz := npages_mono hlt.le
  rw [deallocuvm, if_neg (by omega), Run.wp_bind, PGROUNDUP_eq (by omega)]
  refine Run.wp_mono (h.wp_deallocuvmLoop hnpages (by omega) (by simp only [NPAGES]; omega)) ?_
  intro _ s' hs'
  exact (Run.wp_pure ..).mpr ⟨rfl, hs'⟩

/-- For a directory whose user pages can be freed, `deallocuvm` returns `newsz`.  It ends in the state of a
loop that visits every page of the range: the entries of the present pages in
`[PGROUNDUP(newsz), oldsz)` are cleared and their frames freed, one for each page; page tables and all
other entries are as before. -/
theorem deallocuvm_plain (h : Freeable s d) (oldsz newsz : Nat) (hlt : newsz < oldsz)
    (hle : oldsz ≤ KERNBASE) :
    ∃ s', deallocuvm d oldsz newsz s = .ok (newsz, s') ∧
      deallocPages d (pagesBetween newsz oldsz) s = .ok ((), s') ∧
      s'.table d = s.table d ∧
      (∀ v, s'.entry d v =
        if PGROUNDUP newsz ≤ v * PGSIZE ∧ v * PGSIZE < oldsz ∧ Present (s.entry d v) then 0
        else s.entry d v) ∧
      s'.free = (s.frames d (pagesBetween newsz oldsz)).reverse ++ s.free ∧
      ∀ f, ¬s.Uses d f → f ∉ s.frames d (pagesBetween newsz oldsz) → s'.mem f = s.mem f := by
  have hpages : ∀ v ∈ pagesBetween newsz oldsz, v < 2 ^ 19 := by
    intro v hv
    have hin := (mem_pagesBetween hlt).mp hv
    unfold npages at hin
    simp only [KERNBASE] at hle
    omega
  have hdropped := h.foldl_dropPage hpages List.nodup_range'
  refine ⟨_, ?_, ?_, hdropped.table, ?_, hdropped.free, hdropped.mem⟩
  · apply Run.run_of_wp
    refine Run.wp_mono (h.wp_deallocuvm hlt hle) ?_
    rintro _ _ ⟨rfl, rfl⟩
    rfl
  · apply Run.run_of_wp
    refine Run.wp_mono (h.wp_deallocPages hpages) ?_
    rintro _ _ rfl
    rfl
  · intro v
    have hrange : v ∈ pagesBetween newsz oldsz ↔ PGROUNDUP newsz ≤ v * PGSIZE ∧ v * PGSIZE < oldsz := by
      rw [mem_pagesBetween hlt, PGROUNDUP_eq (by omega), ← lt_npages]
      simp only [PGSIZE]
      omega
    rw [hdropped.entry]
    simp only [hrange, and_assoc]

/-- A directory with one page table, that has one entry -/
def oneEntry (k e : Nat) : Phys := ((blank.take []).newTable 0x200 0 0x201).setWord 0x201 k e

section

variable {k : Nat} (hk : k < 1024) (e : Nat)

include hk

theorem oneEntry_directory : Directory (oneEntry k e) 0x200 := by
  obtain ⟨hdir, htable, -⟩ := blank_directory.newTable (show blank.free = 0x201 :: [] from rfl)
    (blank_table 0x200 0) (by decide)
  have hset := (hdir.setWord (v := k) (by rwa [Nat.div_eq_of_lt hk]) e).1
  rwa [Nat.mod_eq_of_lt hk] at hset

theorem oneEntry_entry (v : Nat) : (oneEntry k e).entry 0x200 v = if v = k then e % 2 ^ 32 else 0 := by
  obtain ⟨hdir, htable, hentry, -⟩ := blank_directory.newTable
    (show blank.free = 0x201 :: [] from rfl) (blank_table 0x200 0) (by decide)
  have hset := hdir.entry_setWord (v := k) (by rwa [Nat.div_eq_of_lt hk]) e v
  rw [hentry, Phys.entry_of_none (blank_table _ _), Nat.mod_eq_of_lt hk] at hset
  exact hset

end

theorem oneEntry_table (k e i : Nat) : (oneEntry k e).table 0x200 i = if i = 0 then some 0x201 else none := by
  obtain ⟨hdir, htable, -⟩ := blank_directory.newTable (show blank.free = 0x201 :: [] from rfl)
    (blank_table 0x200 0) (by decide)
  have hnone : (blank.take []).table 0x200 i = none := blank_table 0x200 i
  rw [oneEntry, hdir.table_setWord htable, Phys.table_newTable (by decide) (by decide) (by decide), hnone]

theorem oneEntry_uses {k e f : Nat} (h : (oneEntry k e).Uses 0x200 f) : f = 0x200 ∨ f = 0x201 := by
  rcases h with rfl | ⟨i, hi⟩
  · exact .inl rfl
  · rw [oneEntry_table] at hi
    split_ifs at hi
    exact .inr (Option.some.inj hi).symm

/-- A directory with one page table, that maps page 1 -/
def onePage : Phys := ((blank.take []).newTable 0x200 0 0x201).setWord 0x201 1 0x300007

theorem onePage_entry (v : Nat) : onePage.entry 0x200 v = if v = 1 then 0x300007 else 0 :=
  oneEntry_entry (by decide) 0x300007 v

theorem onePage_freeable : Freeable onePage 0x200 where
  toTree := (oneEntry_directory (by decide) 0x300007).toTree
  frame v _ f hf := by
    rw [onePage_entry] at hf
    split_ifs at hf
    · obtain rfl : 0x300 = f := Option.some.inj hf
      refine ⟨by decide, fun hu => ?_⟩
      rcases oneEntry_uses hu with h | h <;> exact absurd h (by decide)
    · cases hf

/-- From three pages to a part of one -/
theorem deallocuvm_plain_onePage :
    ∃ s', deallocuvm 0x200 0x3000 0x800 onePage = .ok (0x800, s') ∧ s'.free = [0x300] ∧
      s'.entry 0x200 1 = 0 := by
  obtain ⟨s', hrun, -, -, hentry, hfree, -⟩ :=
    deallocuvm_plain onePage_freeable 0x3000 0x800 (by decide) (by decide)
  refine ⟨s', hrun, ?_, ?_⟩
  · have hframes : onePage.frames 0x200 (pagesBetween 0x800 0x3000) = [0x300] := by
      simp only [Phys.frames, onePage_entry]
      decide
    rw [hfree, hframes]
    rfl
  · rw [hentry, onePage_entry, if_pos (by decide)]

/-- Page 0 is mapped to its own page table. -/
def ownTable : Phys := oneEntry 0 0x201007

/-- `kfree` fills the page table with ones, and the next entry then looks present: a frame that no page was
mapped to is freed. -/
theorem deallocuvm_ownTable : (∀ v f, entryFrame (ownTable.entry 0x200 v) = some f → Managed f) ∧
      ownTable.frames 0x200 (pagesBetween 0 0x2000) = [0x201] ∧
      ∃ r s', deallocuvm 0x200 0x2000 0 ownTable = .ok (r, s') ∧ s'.free = [0x1010, 0x201] := by
  refine ⟨?_, by decide +kernel, ?_⟩
  · intro v f hf
    rw [ownTable, oneEntry_entry (by decide)] at hf
    split_ifs at hf
    · obtain rfl : 0x201 = f := Option.some.inj hf
      decide
    · cases hf
  · obtain ⟨r, s', hrun, htest⟩ := Run.exists_of_returns (m := deallocuvm 0x200 0x2000 0) (s := ownTable)
      (p := fun _ s' => decide (s'.free = [0x1010, 0x201])) (by decide +kernel)
    exact ⟨r, s', hrun, of_decide_eq_true htest⟩

end

end Vm

end Xv6
