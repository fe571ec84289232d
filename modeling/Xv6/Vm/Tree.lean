import Xv6.Vm.State

/-!
# A page directory as a flat map

The entry that a directory has for each virtual page.  `walkpgdir` finds it in a page table, if there is
one; `mappages` writes entries and adds page tables, and changes nothing else.
-/

namespace Xv6

open Run (wp_bind wp_get wp_modify wp_pure wp_set)

namespace Vm

namespace Phys

variable (s : Phys) (d : Nat)

/-- The page table at an index of the directory -/
def table (i : Nat) : Option Nat := entryFrame ((s.mem d).word i)

/-- The entry of a virtual page; without a page table it is as good as 0. -/
def entry (v : Nat) : Nat :=
  match s.table d (v / 1024) with
  | none => 0
  | some t => (s.mem t).word (v % 1024)

/-- The directory's page and those of its tables -/
def Uses (f : Nat) : Prop := f = d ∨ ∃ i, s.table d i = some f

/-- A new page table, all of whose entries are 0 -/
def newTable (i f : Nat) : Phys :=
  (s.setPage f (page 0)).setWord d i (f * PGSIZE ||| (PTE_P ||| PTE_W ||| PTE_U))

end Phys

/-- Each page of the directory is in one place. -/
structure Tree (s : Phys) (d : Nat) : Prop where
  inj : ∀ {i j t}, s.table d i = some t → s.table d j = some t → i = j
  ne_dir : ∀ {i}, s.table d i ≠ some d

/-- A directory beside the free pages -/
structure Directory (s : Phys) (d : Nat) : Prop extends Tree s d where
  nodup : s.free.Nodup
  managed : ∀ f ∈ s.free, Managed f
  unused : ∀ f ∈ s.free, ¬s.Uses d f

/-- Pages go between the free list and an owner, who has those of `A` at first and those of `B` at last;
all others stay as they are. -/
structure Moves (A B : Nat → Prop) (s s' : Phys) : Prop where
  conserve : ∀ f, f ∈ s'.free ∨ B f ↔ f ∈ s.free ∨ A f
  mem : ∀ f, f ∉ s.free → ¬A f → s'.mem f = s.mem f

/-- The calls of `kalloc` that are denied from `s'` on are so from `s` on. -/
def Phys.Later (s s' : Phys) : Prop := ∀ k, s'.denied k = true → ∃ j, s.denied j = true

/-- In `s'` no page is left, or one has been denied since `s`. -/
def Phys.Lacks (s s' : Phys) : Prop := s'.free = [] ∨ ∃ k, s.denied k = true

theorem Phys.Later.lacks {s s' s'' : Phys} (h : s.Later s') (hlacks : s'.Lacks s'') : s.Lacks s'' :=
  hlacks.imp id fun ⟨k, hk⟩ => h k hk

theorem Phys.Later.trans {s s' s'' : Phys} (h : s.Later s') (h' : s'.Later s'') : s.Later s'' :=
  fun k hk => (h' k hk).elim h

namespace Moves

variable {A B C : Nat → Prop} {s s' s'' : Phys}

theorem refl (A : Nat → Prop) (s : Phys) : Moves A A s s := ⟨fun _ => .rfl, fun _ _ _ => rfl⟩

theorem trans (h : Moves A B s s') (h' : Moves B C s' s'') : Moves A C s s'' where
  conserve f := (h'.conserve f).trans (h.conserve f)
  mem f hfree hA := by
    have hnone : ¬(f ∈ s'.free ∨ B f) := by
      rw [h.conserve]
      exact not_or.mpr ⟨hfree, hA⟩
    rw [not_or] at hnone
    rw [h'.mem f hnone.1 hnone.2, h.mem f hfree hA]

end Moves

section

variable {s s' : Phys} {d f i t v k : Nat}

theorem Phys.mem_setPage_self (b : Bytes PGSIZE) : (s.setPage f b).mem f = b := Function.update_self ..

theorem Phys.mem_setPage_ne {g : Nat} (h : g ≠ f) (b : Bytes PGSIZE) : (s.setPage f b).mem g = s.mem g :=
  Function.update_of_ne h ..

theorem Phys.table_lt (h : s.table d i = some t) : i < 1024 := by
  by_contra hge
  rw [table, Bytes.word_of_ge _ (by simp only [PGSIZE]; omega)] at h
  cases h

theorem Phys.entry_of_table (h : s.table d (v / 1024) = some t) :
    s.entry d v = (s.mem t).word (v % 1024) := by
  rw [entry, h]

theorem Phys.entry_of_none (h : s.table d (v / 1024) = none) : s.entry d v = 0 := by
  rw [entry, h]

theorem Phys.table_congr (h : s'.mem d = s.mem d) : s'.table d = s.table d := by
  funext i
  rw [table, table, h]

theorem Phys.entry_congr (hdir : s'.mem d = s.mem d)
    (htable : ∀ i t, s.table d i = some t → s'.mem t = s.mem t) : s'.entry d = s.entry d := by
  funext v
  rw [entry, entry, table_congr hdir]
  cases ht : s.table d (v / 1024) with
  | none => rfl
  | some t => simp only [htable _ t ht]

theorem Phys.entry_setPage (hf : ¬s.Uses d f) (b : Bytes PGSIZE) :
    (s.setPage f b).table d = s.table d ∧ (s.setPage f b).entry d = s.entry d := by
  have hne {g : Nat} (hg : s.Uses d g) : (s.setPage f b).mem g = s.mem g :=
    mem_setPage_ne (by rintro rfl; exact hf hg) b
  have hdir := hne (.inl rfl)
  exact ⟨table_congr hdir, entry_congr hdir fun i t ht => hne (.inr ⟨i, ht⟩)⟩

theorem Tree.table_setWord (h : Tree s d) (ht : s.table d i = some t) (k e : Nat) :
    (s.setWord t k e).table d = s.table d := by
  apply Phys.table_congr
  apply Phys.mem_setPage_ne
  rintro rfl
  exact h.ne_dir ht

theorem Tree.entry_setWord (h : Tree s d) (ht : s.table d (v / 1024) = some t) (e w : Nat) :
    (s.setWord t (v % 1024) e).entry d w = if w = v then e % 2 ^ 32 else s.entry d w := by
  have htable := h.table_setWord ht (v % 1024) e
  have hself : (s.setWord t (v % 1024) e).mem t = (s.mem t).putWord (v % 1024) e :=
    Phys.mem_setPage_self _
  cases hw : s.table d (w / 1024) with
  | none =>
    have hne : w ≠ v := by
      rintro rfl
      rw [hw] at ht
      cases ht
    rw [if_neg hne, Phys.entry_of_none (by rw [htable, hw]), Phys.entry_of_none hw]
  | some t' =>
    rw [Phys.entry_of_table (by rw [htable, hw]), Phys.entry_of_table hw]
    by_cases hsame : t' = t
    · subst hsame
      have hdiv : w / 1024 = v / 1024 := h.inj hw ht
      rw [hself]
      by_cases hmod : w % 1024 = v % 1024
      · rw [hmod, Bytes.word_putWord_same _ _ _ (by simp only [PGSIZE]; omega), if_pos (by omega)]
      · rw [Bytes.word_putWord_ne _ _ _ _ hmod, if_neg (by rintro rfl; exact hmod rfl)]
    · have hne : w ≠ v := by
        rintro rfl
        rw [hw] at ht
        exact hsame (Option.some.inj ht)
      have hother : (s.setWord t (v % 1024) e).mem t' = s.mem t' := Phys.mem_setPage_ne hsame _
      rw [if_neg hne, hother]

theorem Tree.setWord (h : Tree s d) (ht : s.table d i = some t) (k e : Nat) : Tree (s.setWord t k e) d := by
  have htable := h.table_setWord ht k e
  refine ⟨?_, ?_⟩
  · intro i j t hi hj
    rw [htable] at hi hj
    exact h.inj hi hj
  · intro i hi
    rw [htable] at hi
    exact h.ne_dir hi

theorem Phys.mem_newTable (hne : f ≠ d) :
    (s.newTable d i f).mem f = page 0 ∧
      (s.newTable d i f).mem d =
        (s.mem d).putWord i (f * PGSIZE ||| (PTE_P ||| PTE_W ||| PTE_U)) := by
  refine ⟨?_, ?_⟩
  · rw [newTable, setWord, mem_setPage_ne hne, mem_setPage_self]
  · rw [newTable, setWord, mem_setPage_self, mem_setPage_ne hne.symm]

theorem Phys.mem_newTable_ne {g : Nat} (hf : g ≠ f) (hd : g ≠ d) :
    (s.newTable d i f).mem g = s.mem g := by
  rw [newTable, setWord, mem_setPage_ne hd, mem_setPage_ne hf]

theorem Phys.table_newTable (hne : f ≠ d) (hi : i < 1024) (hf : f < 2 ^ 20) (j : Nat) :
    (s.newTable d i f).table d j = if j = i then some f else s.table d j := by
  rw [table, (mem_newTable hne).2]
  by_cases hj : j = i
  · have hpage : f * PGSIZE ||| (PTE_P ||| PTE_W ||| PTE_U) < 2 ^ 32 := by
      rw [frame_or f (by decide)]
      simp only [show PTE_P ||| PTE_W ||| PTE_U = 7 by decide]
      omega
    rw [hj, if_pos rfl, Bytes.word_putWord_same _ _ _ (by simp only [PGSIZE]; omega),
      Nat.mod_eq_of_lt hpage, entryFrame_or f (by decide) (by decide)]
  · rw [if_neg hj, Bytes.word_putWord_ne _ _ _ _ hj, table]

theorem Tree.entry_newTable (h : Tree s d) (hf : ¬s.Uses d f) (hi : s.table d i = none)
    (hlt : i < 1024) (hframe : f < 2 ^ 20) : (s.newTable d i f).entry d = s.entry d := by
  have hne : f ≠ d := fun heq => hf (.inl heq)
  funext v
  have htable := Phys.table_newTable (s := s) hne hlt hframe (v / 1024)
  by_cases hv : v / 1024 = i
  · rw [if_pos hv] at htable
    rw [Phys.entry_of_table htable, (Phys.mem_newTable hne).1, Phys.entry_of_none (by rw [hv, hi])]
    exact Bytes.word_zero _
  · rw [if_neg hv] at htable
    cases ht : s.table d (v / 1024) with
    | none => rw [Phys.entry_of_none (htable.trans ht), Phys.entry_of_none ht]
    | some t =>
      have htf : t ≠ f := fun heq => hf (.inr ⟨_, heq ▸ ht⟩)
      have htd : t ≠ d := by
        rintro rfl
        exact h.ne_dir ht
      rw [Phys.entry_of_table (htable.trans ht), Phys.entry_of_table ht, Phys.mem_newTable_ne htf htd]

theorem Phys.uses_newTable (hne : f ≠ d) (hi : s.table d i = none) (hlt : i < 1024)
    (hframe : f < 2 ^ 20) (g : Nat) : (s.newTable d i f).Uses d g ↔ s.Uses d g ∨ g = f := by
  simp only [Uses, table_newTable hne hlt hframe]
  constructor
  · rintro (hg | ⟨j, hj⟩)
    · exact .inl (.inl hg)
    · split at hj
      · exact .inr (Option.some.inj hj).symm
      · exact .inl (.inr ⟨j, hj⟩)
  · rintro ((hg | ⟨j, hj⟩) | hg)
    · exact .inl hg
    · refine .inr ⟨j, ?_⟩
      rw [if_neg, hj]
      rintro rfl
      rw [hi] at hj
      cases hj
    · exact .inr ⟨i, by rw [if_pos rfl, hg]⟩

theorem Tree.newTable (h : Tree s d) (hf : ¬s.Uses d f) (hlt : i < 1024) (hframe : f < 2 ^ 20) :
    Tree (s.newTable d i f) d := by
  have hne : f ≠ d := fun heq => hf (.inl heq)
  have htable := Phys.table_newTable (s := s) hne hlt hframe
  refine ⟨?_, ?_⟩
  · intro j k t hj hk
    rw [htable] at hj hk
    split_ifs at hj hk with hj' hk' hk'
    · rw [hj', hk']
    · exact absurd (.inr ⟨k, hk.trans hj.symm⟩) hf
    · exact absurd (.inr ⟨j, hj.trans hk.symm⟩) hf
    · exact h.inj hj hk
  · intro j hj
    rw [htable] at hj
    split_ifs at hj with hj'
    · exact hne (Option.some.inj hj)
    · exact h.ne_dir hj

end

section

variable {E : Stop → Prop} {s s' : Phys} {d f i t v k : Nat}

theorem wp_readWord {Q : Nat → Phys → Prop} (hQ : Q ((s.mem f).word k) s) : Run.wp E (readWord f k) Q s := by
  rw [readWord, wp_bind, wp_get, wp_pure]
  exact hQ

variable {Q : Unit → Phys → Prop}

theorem wp_writeWord {e : Nat} (hQ : Q () (s.setWord f k e)) :
    Run.wp E (writeWord f k e) Q s := by
  rw [writeWord, wp_modify]
  exact hQ

theorem wp_memset {c : UInt8} (hQ : Q () (s.setPage f (page c))) :
    Run.wp E (memset f c) Q s := by
  rw [memset, wp_modify]
  exact hQ

theorem wp_kalloc {Q : Option Nat → Phys → Prop} (hnone : s.Lacks s → Q none s.tick)
    (hsome : ∀ f rest, s.free = f :: rest → Q (some f) (s.take rest)) : Run.wp E kalloc Q s := by
  rw [kalloc, wp_bind, wp_get]
  split
  · rename_i hfree
    rw [wp_bind, wp_set, wp_pure]
    exact hnone (.inl hfree)
  · rename_i f rest hfree
    split_ifs with hdenied
    · rw [wp_bind, wp_set, wp_pure]
      exact hnone (.inr ⟨0, hdenied⟩)
    · rw [wp_bind, wp_set, wp_pure]
      exact hsome f rest hfree

theorem wp_kfree (hf : Managed f) (hQ : Q () (s.give f)) :
    Run.wp E (kfree f) Q s := by
  rw [kfree, if_neg (not_not_intro hf), wp_modify]
  exact hQ

theorem table_eq_of_present (h : Present ((s.mem d).word i)) :
    s.table d i = some (PTE_ADDR ((s.mem d).word i) / PGSIZE) := if_pos h

theorem wp_walkpgdir (hv : v < 2 ^ 20) {Q : Option (Nat × Nat) → Phys → Prop}
    (hQ : Q ((s.table d (v / 1024)).map fun t => (t, v % 1024)) s) :
    Run.wp E (walkpgdir d (v * 4096) false) Q s := by
  rw [walkpgdir, wp_bind]
  apply wp_readWord
  rw [PDX_page hv, PTX_page]
  by_cases hp : Present ((s.mem d).word (v / 1024))
  · rw [if_pos hp, wp_pure]
    rw [table_eq_of_present hp] at hQ
    exact hQ
  · rw [if_neg hp, if_pos (by decide), wp_pure]
    rw [Phys.table, entryFrame_of_not hp] at hQ
    exact hQ

theorem Directory.tick (h : Directory s d) : Directory s.tick d :=
  ⟨⟨h.inj, h.ne_dir⟩, h.nodup, h.managed, h.unused⟩

theorem Moves.tick (A : Nat → Prop) (s : Phys) : Moves A A s s.tick := ⟨fun _ => .rfl, fun _ _ _ => rfl⟩

theorem Directory.newTable (h : Directory s d) {rest : List Nat} (hfree : s.free = f :: rest)
    (hi : s.table d i = none) (hlt : i < 1024) :
    Directory ((s.take rest).newTable d i f) d ∧
      ((s.take rest).newTable d i f).table d i = some f ∧
      ((s.take rest).newTable d i f).entry d = s.entry d ∧
      Moves (s.Uses d) (((s.take rest).newTable d i f).Uses d) s ((s.take rest).newTable d i f) := by
  have hmem : f ∈ s.free := by rw [hfree]; exact List.mem_cons_self
  have hunused : ¬(s.take rest).Uses d f := h.unused f hmem
  have hne : f ≠ d := fun heq => hunused (.inl heq)
  have hframe : f < 2 ^ 20 := (h.managed f hmem).lt.trans (by decide)
  have htree : Tree (s.take rest) d := ⟨h.inj, h.ne_dir⟩
  have huses := Phys.uses_newTable (s := s.take rest) hne hi hlt hframe
  have hnodup := h.nodup
  rw [hfree, List.nodup_cons] at hnodup
  have hrest {g : Nat} (hg : g ∈ rest) : g ∈ s.free := by rw [hfree]; exact List.mem_cons_of_mem _ hg
  refine ⟨⟨htree.newTable hunused hlt hframe, hnodup.2, fun g hg => h.managed g (hrest hg), ?_⟩, ?_,
    htree.entry_newTable hunused hi hlt hframe, ?_, ?_⟩
  · intro g hg hused
    rcases (huses g).mp hused with hused | rfl
    · exact h.unused g (hrest hg) hused
    · exact hnodup.1 hg
  · rw [Phys.table_newTable hne hlt hframe, if_pos rfl]
  · intro g
    rw [huses, hfree, List.mem_cons]
    show g ∈ rest ∨ s.Uses d g ∨ g = f ↔ _
    tauto
  · intro g hg hused
    refine Phys.mem_newTable_ne ?_ ?_
    · rintro rfl
      exact hg hmem
    · rintro rfl
      exact hused (.inl rfl)

theorem Directory.wp_walkpgdir (h : Directory s d) (hv : v < 2 ^ 20) {Q : Option (Nat × Nat) → Phys → Prop}
    (hnone : ∀ s', Directory s' d → s'.entry d = s.entry d → Moves (s.Uses d) (s'.Uses d) s s' → s.Later s' →
      s.Lacks s' → Q none s')
    (hsome : ∀ t s', Directory s' d → s'.table d (v / 1024) = some t → s'.entry d = s.entry d →
      Moves (s.Uses d) (s'.Uses d) s s' → s.Later s' → Q (some (t, v % 1024)) s') :
    Run.wp E (walkpgdir d (v * 4096) true) Q s := by
  rw [walkpgdir, wp_bind]
  apply wp_readWord
  rw [PDX_page hv, PTX_page]
  by_cases hp : Present ((s.mem d).word (v / 1024))
  · rw [if_pos hp, wp_pure]
    exact hsome _ s h (table_eq_of_present hp) rfl (.refl _ s) fun k hk => ⟨k, hk⟩
  · rw [if_neg hp, if_neg (by decide), wp_bind]
    have hi : s.table d (v / 1024) = none := entryFrame_of_not hp
    apply wp_kalloc
    · intro hlacks
      exact (wp_pure ..).mpr (hnone s.tick h.tick rfl (.tick _ s) (fun k hk => ⟨k + 1, hk⟩) hlacks)
    · intro f rest hfree
      obtain ⟨hdir, htable, hentry, hmoves⟩ := h.newTable hfree hi (by omega)
      rw [wp_bind]
      apply wp_memset
      rw [wp_bind]
      apply wp_writeWord
      rw [wp_pure]
      exact hsome f _ hdir htable hentry hmoves fun k hk => ⟨k + 1, hk⟩

end

section

variable {E : Stop → Prop} {s s' : Phys} {d f i t v k : Nat}

theorem Directory.setWord (h : Directory s d) (ht : s.table d (v / 1024) = some t) (e : Nat) :
    Directory (s.setWord t (v % 1024) e) d ∧
      Moves (s.Uses d) ((s.setWord t (v % 1024) e).Uses d) s (s.setWord t (v % 1024) e) := by
  have htable := h.table_setWord ht (v % 1024) e
  have huses : (s.setWord t (v % 1024) e).Uses d = s.Uses d := by
    funext g
    simp only [Phys.Uses, htable]
  refine ⟨⟨h.toTree.setWord ht _ e, h.nodup, h.managed, ?_⟩, ?_, ?_⟩
  · rw [huses]
    exact h.unused
  · rw [huses]
    exact fun _ => .rfl
  · intro g _ hg
    refine Phys.mem_setPage_ne ?_ _
    rintro rfl
    exact hg (.inr ⟨_, ht⟩)

/-- The entry for the `k`th page of a range -/
def mapped (pa perm k : Nat) : Nat := (u32 (pa + k * PGSIZE) ||| perm ||| PTE_P) % 2 ^ 32

theorem mapped_zero {pa : Nat} (hpa : pa < 2 ^ 32) (perm : Nat) :
    mapped pa perm 0 = (pa ||| perm ||| PTE_P) % 2 ^ 32 := by
  rw [mapped, Nat.zero_mul, Nat.add_zero, u32_of_lt hpa]

theorem mapped_succ (pa perm k : Nat) : mapped (u32 (pa + PGSIZE)) perm k = mapped pa perm (k + 1) := by
  have hpage : u32 (u32 (pa + PGSIZE) + k * PGSIZE) = u32 (pa + (k + 1) * PGSIZE) := by
    simp only [u32, PGSIZE]
    omega
  rw [mapped, mapped, hpage]

/-- Pages from `v` on are mapped, `m` of them; the rest of the map is as before. -/
structure Maps (d v pa perm m : Nat) (s s' : Phys) : Prop where
  directory : Directory s' d
  moves : Moves (s.Uses d) (s'.Uses d) s s'
  later : s.Later s'
  entry : ∀ w, s'.entry d w = if v ≤ w ∧ w < v + m then mapped pa perm (w - v) else s.entry d w

theorem Directory.wp_mappagesLoop (h : Directory s d) {n pa perm fuel : Nat} (hpa : pa < 2 ^ 32)
    (hend : v + n < 2 ^ 20) (hfuel : n < fuel)
    (habsent : ∀ w, v ≤ w → w ≤ v + n → ¬Present (s.entry d w)) :
    Run.wp E (mappagesLoop d ((v + n) * 4096) perm fuel (v * 4096) pa) (fun r s' =>
      ∃ m, (r = 0 ∧ m = n + 1 ∨ r = -1 ∧ m ≤ n ∧ s.Lacks s') ∧ Maps d v pa perm m s s') s := by
  induction fuel generalizing v n pa s with
  | zero => omega
  | succ fuel ih =>
    rw [mappagesLoop, wp_bind]
    apply h.wp_walkpgdir (by omega)
    · intro s1 h1 hentry hmoves hlater hlacks
      rw [wp_pure]
      exact ⟨0, .inr ⟨rfl, Nat.zero_le _, hlacks⟩, h1, hmoves, hlater, fun w => by rw [hentry, if_neg (by omega)]⟩
    · intro t s1 h1 ht hentry hmoves hlater
      rw [wp_bind]
      apply wp_readWord
      rw [← Phys.entry_of_table ht, hentry, if_neg (habsent v (Nat.le_refl _) (Nat.le_add_right _ _)),
        wp_bind]
      apply wp_writeWord
      obtain ⟨h2, hmoves2⟩ := h1.setWord ht (pa ||| perm ||| PTE_P)
      have hfirst (w : Nat) : (s1.setWord t (v % 1024) (pa ||| perm ||| PTE_P)).entry d w =
          if w = v then mapped pa perm 0 else s.entry d w := by
        rw [h1.entry_setWord ht, hentry, mapped_zero hpa]
      by_cases hn : n = 0
      · subst hn
        rw [if_pos (by omega), wp_pure]
        refine ⟨1, .inl ⟨rfl, rfl⟩, h2, hmoves.trans hmoves2, hlater, ?_⟩
        intro w
        rw [hfirst]
        by_cases hw : w = v
        · rw [if_pos hw, if_pos (by omega), hw, Nat.sub_self]
        · rw [if_neg hw, if_neg (by omega)]
      · obtain ⟨n, rfl⟩ := Nat.exists_eq_succ_of_ne_zero hn
        have hlast : v + (n + 1) = v + 1 + n := by omega
        rw [if_neg (by omega), next_page (by omega), hlast]
        refine Run.wp_mono (ih h2 (Nat.mod_lt _ (by decide)) (by omega) (by omega) ?_) ?_
        · intro w hle hge
          rw [hfirst, if_neg (by omega)]
          exact habsent w (by omega) (by omega)
        · rintro r s3 ⟨m, hr, hmaps⟩
          refine ⟨m + 1, ?_, hmaps.directory, (hmoves.trans hmoves2).trans hmaps.moves, hlater.trans hmaps.later, ?_⟩
          · exact hr.imp (by omega) fun ⟨hr, hm, hlacks⟩ => ⟨hr, by omega, hlater.lacks hlacks⟩
          intro w
          rw [hmaps.entry, hfirst, mapped_succ]
          by_cases hw : w = v
          · rw [if_neg (by omega), if_pos hw, if_pos (by omega), hw, Nat.sub_self]
          · by_cases hin : v + 1 ≤ w ∧ w < v + 1 + m
            · rw [if_pos hin, if_pos (by omega), show w - (v + 1) + 1 = w - v by omega]
            · rw [if_neg hin, if_neg hw, if_neg (by omega)]

/-- `mappages` returns.  It has mapped the pages from that of `va` on: all of the range, or, if there is no
page left for a page table, fewer. -/
theorem Directory.wp_mappages (h : Directory s d) {va size pa perm : Nat} (hpa : pa < 2 ^ 32)
    (hsize : 1 ≤ size) (hend : va + size ≤ 2 ^ 32)
    (habsent : ∀ w, va / 4096 ≤ w → w ≤ (va + size - 1) / 4096 → ¬Present (s.entry d w)) :
    Run.wp E (mappages d va size pa perm) (fun r s' =>
      ∃ m, (r = 0 ∧ va / 4096 + m = (va + size - 1) / 4096 + 1 ∨
          r = -1 ∧ va / 4096 + m ≤ (va + size - 1) / 4096 ∧ s.Lacks s') ∧
        Maps d (va / 4096) pa perm m s s') s := by
  obtain ⟨n, hn⟩ : ∃ n, va / 4096 + n = (va + size - 1) / 4096 := ⟨_, Nat.add_sub_cancel' (by omega)⟩
  have hlast : PGROUNDDOWN (u32 (va + size + (2 ^ 32 - 1))) = (va / 4096 + n) * 4096 := by
    have hu32 : u32 (va + size + (2 ^ 32 - 1)) = va + size - 1 := by
      unfold u32
      omega
    rw [hu32, hn]
    rfl
  rw [mappages, hlast]
  refine Run.wp_mono (h.wp_mappagesLoop hpa (by omega) (by simp only [NPAGES]; omega) ?_) ?_
  · rw [hn]
    exact habsent
  · rintro r s' ⟨m, hr, hmaps⟩
    exact ⟨m, hr.imp (by omega) fun ⟨hr, hm, hlacks⟩ => ⟨hr, by omega, hlacks⟩, hmaps⟩

/-- An empty directory and one free page -/
def blank : Phys := ⟨fun _ => page 0, [0x201], fun _ => false⟩

theorem blank_table (d i : Nat) : blank.table d i = none := by
  rw [Phys.table]
  exact if_neg (by rw [show blank.mem d = Bytes.zero from rfl, Bytes.word_zero]; decide)

theorem blank_directory : Directory blank 0x200 where
  inj hi := by rw [blank_table] at hi; cases hi
  ne_dir hi := by rw [blank_table] at hi; cases hi
  nodup := by decide
  managed := by decide
  unused f hf hused := by
    rcases hused with rfl | ⟨i, hi⟩
    · exact absurd hf (by decide)
    · rw [blank_table] at hi
      cases hi

end

end Vm

end Xv6
