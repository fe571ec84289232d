import Mathlib.Data.List.Perm.Subperm
import Xv6.Vm.Space

/-!
# `freevm` and `setupkvm`

A directory with the kernel's part is built, and a whole address space is given back.
-/

namespace Xv6

namespace Vm

/-- The free list by itself -/
structure Pool (s : Phys) : Prop where
  nodup : s.free.Nodup
  managed : ∀ f ∈ s.free, Managed f

section

variable {E : Stop → Prop} {s s' : Phys} {d f i t v : Nat}

theorem Tree.wp_freevmTables (h : Tree s d) (hused : ∀ f, s.Uses d f → Managed f) (is : List Nat) :
    Run.wp E (freevmTables d is) (fun _ s' => s'.free = (is.filterMap (s.table d)).reverse ++ s.free ∧
      ∀ g, (∀ i, s.table d i ≠ some g) → s'.mem g = s.mem g) s := by
  induction is generalizing s with
  | nil => exact (Run.wp_pure ..).mpr ⟨rfl, fun _ _ => rfl⟩
  | cons i is ih =>
    rw [freevmTables, Run.wp_bind]
    apply wp_readWord
    by_cases hp : Present ((s.mem d).word i)
    · have ht := table_eq_of_present hp
      have hmanaged := hused _ (.inr ⟨i, ht⟩)
      generalize PTE_ADDR ((s.mem d).word i) / PGSIZE = t at ht hmanaged ⊢
      have hne : d ≠ t := by
        rintro rfl
        exact h.ne_dir ht
      have htable : (s.give t).table d = s.table d := Phys.table_congr (Phys.mem_setPage_ne hne _)
      have htree : Tree (s.give t) d := by
        refine ⟨?_, ?_⟩ <;> rw [htable]
        · exact h.inj
        · exact h.ne_dir
      have hused' : ∀ f, (s.give t).Uses d f → Managed f := by
        simp only [Phys.Uses, htable]
        exact hused
      rw [if_pos hp, Run.wp_bind]
      apply wp_kfree hmanaged
      refine Run.wp_mono (ih htree hused') ?_
      rintro _ s' ⟨hfree, hmem⟩
      rw [htable] at hfree hmem
      refine ⟨?_, fun g hg => ?_⟩
      · rw [hfree, List.filterMap_cons_some ht, List.reverse_cons, List.append_assoc]
        rfl
      · rw [hmem g hg]
        apply Phys.mem_setPage_ne
        rintro rfl
        exact hg i ht
    · have ht : s.table d i = none := if_neg hp
      rw [if_neg hp, List.filterMap_cons_none ht]
      exact ih h hused

/-- There are no more than `n` free pages, or one of them is denied. -/
def Phys.Short (s : Phys) (n : Nat) : Prop := s.free.length ≤ n ∨ ∃ k, s.denied k = true

theorem Phys.Short.mono {n m : Nat} (h : s.Short n) (hle : n ≤ m) : s.Short m := h.imp (le_trans · hle) id

theorem Moves.short {s₀ : Phys} {B : Nat → Prop} (h : Moves (fun _ => False) B s₀ s) (hnodup : s₀.free.Nodup)
    (hlacks : s₀.Lacks s) {n g : Nat} (hpages : ∀ w < 2 ^ 19, Present (s.entry d w) → w < n)
    (hB : ∀ f, B f → s.Owns d f ∨ f = g) : s₀.Short (n + 1026) := by
  refine hlacks.imp (fun hnone => ?_) id
  have hsub : s₀.free ⊆ g :: d :: ((List.range 1024).filterMap (s.table d) ++ s.frames d (List.range n)) := by
    intro f hf
    have htaken := (h.conserve f).mpr (.inl hf)
    rw [hnone] at htaken
    simp only [List.mem_cons, List.mem_append, List.mem_filterMap, List.mem_range, Phys.frames]
    rcases hB f (htaken.resolve_left List.not_mem_nil) with ((hd | ⟨i, hi⟩) | ⟨w, hw, hfw⟩) | hg
    · exact .inr (.inl hd)
    · exact .inr (.inr (.inl ⟨i, Phys.table_lt hi, hi⟩))
    · exact .inr (.inr (.inr ⟨w, hpages w hw (present_of_entryFrame hfw), hfw⟩))
    · exact .inl hg
  have hlen := (hnodup.subperm hsub).length_le
  have htables := List.length_filterMap_le (s.table d) (List.range 1024)
  have hframes := List.length_filterMap_le (fun v => entryFrame (s.entry d v)) (List.range n)
  simp only [List.length_cons, List.length_append, Phys.frames] at hlen
  simp only [List.length_range] at htables hframes
  omega

theorem Space.wp_freevm (h : Space s d) :
    Run.wp E (freevm d) (fun _ s' => Pool s' ∧ Moves (s.Owns d) (fun _ => False) s s') s := by
  have hpages (v : Nat) (hv : v ∈ pagesBetween 0 KERNBASE) : v < 2 ^ 19 :=
    Nat.lt_of_lt_of_le ((mem_pagesBetween (by decide)).mp hv).2 (by decide)
  rw [freevm, Run.wp_bind]
  refine Run.wp_mono (h.freeable.wp_deallocuvm (by decide) le_rfl) ?_
  rintro _ s1 ⟨rfl, hs1⟩
  have hdropped := h.freeable.foldl_dropPage hpages List.nodup_range'
  rw [← hs1] at hdropped
  obtain ⟨hspace, hmoves⟩ := h.of_dropped hpages List.nodup_range' hdropped
  have huser (f : Nat) : s1.Owns d f ↔ s1.Uses d f := by
    refine or_iff_left ?_
    rintro ⟨v, hv, hf⟩
    have hp := present_of_entryFrame hf
    rw [hdropped.entry] at hp
    split_ifs at hp with hin
    · exact absurd hp (by decide)
    · exact hin ⟨(mem_pagesBetween (by decide)).mpr ⟨Nat.zero_le _, hv⟩, hp⟩
  rw [Run.wp_bind]
  refine Run.wp_mono (hspace.toTree.wp_freevmTables hspace.used _) ?_
  rintro _ s2 ⟨hfree, hmem⟩
  apply wp_kfree (hspace.used d (.inl rfl))
  have hmem_tables (g : Nat) : g ∈ (List.range NPDENTRIES).filterMap (s1.table d) ↔ ∃ i, s1.table d i = some g := by
    rw [List.mem_filterMap]
    exact ⟨fun ⟨i, _, hi⟩ => ⟨i, hi⟩, fun ⟨i, hi⟩ => ⟨i, List.mem_range.mpr (Phys.table_lt hi), hi⟩⟩
  have hgiven (g : Nat) : g ∈ (s2.give d).free ↔ g ∈ s1.free ∨ s1.Uses d g := by
    show g ∈ d :: s2.free ↔ _
    rw [hfree, List.mem_cons, List.mem_append, List.mem_reverse, hmem_tables, Phys.Uses, ← or_assoc]
    exact or_comm
  refine ⟨⟨?_, ?_⟩, hmoves.trans ⟨fun g => ?_, fun g hfree' hown => ?_⟩⟩
  · show (d :: s2.free).Nodup
    have htables : ((List.range NPDENTRIES).filterMap (s1.table d)).Nodup :=
      List.nodup_range.filterMap fun i j t hi hj => hspace.inj hi hj
    rw [hfree, List.nodup_cons, List.nodup_append', List.nodup_reverse, List.mem_append, List.mem_reverse,
      hmem_tables]
    refine ⟨?_, htables, hspace.nodup, ?_⟩
    · rintro (⟨i, hi⟩ | hin)
      · exact hspace.ne_dir hi
      · exact hspace.unused d hin (.inl rfl)
    · intro g hg hin
      obtain ⟨i, hi⟩ := (hmem_tables g).mp (List.mem_reverse.mp hg)
      exact hspace.unused g hin (.inr ⟨i, hi⟩)
  · intro g hg
    rcases (hgiven g).mp hg with hin | hu
    · exact hspace.managed g hin
    · exact hspace.used g hu
  · rw [hgiven, huser, or_false]
  · rw [huser] at hown
    have hne : g ≠ d := fun heq => hown (.inl heq)
    exact (Phys.mem_setPage_ne hne _).trans (hmem g fun i hi => hown (.inr ⟨i, hi⟩))

theorem Pool.space (h : Pool s) (hf : Managed f) (hfree : f ∉ s.free) (hmem : s.mem f = page 0) :
    Space s f ∧ (∀ v, s.entry f v = 0) ∧ ∀ g, s.Owns f g ↔ g = f := by
  have htable (i : Nat) : s.table f i = none := by
    rw [Phys.table, hmem]
    exact if_neg (by rw [show page 0 = Bytes.zero from rfl, Bytes.word_zero]; decide)
  have hentry (v : Nat) : s.entry f v = 0 := Phys.entry_of_none (htable _)
  have hframe (v g : Nat) : entryFrame (s.entry f v) ≠ some g := by
    rw [hentry]
    rintro ⟨⟩
  have huses (g : Nat) : s.Uses f g ↔ g = f := by
    refine or_iff_left ?_
    rintro ⟨i, hi⟩
    rw [htable] at hi
    cases hi
  refine ⟨⟨⟨⟨?_, ?_⟩, h.nodup, h.managed, ?_⟩, ?_, ?_, ?_⟩, hentry, ?_⟩
  · intro i j t hi
    rw [htable] at hi
    cases hi
  · intro i hi
    rw [htable] at hi
    cases hi
  · intro g hg hu
    rw [(huses g).mp hu] at hg
    exact hfree hg
  · intro g hu
    rwa [(huses g).mp hu]
  · exact fun v _ g hg => absurd hg (hframe v g)
  · exact fun v _ w _ g hg => absurd hg (hframe v g)
  · intro g
    rw [← huses]
    refine or_iff_left ?_
    rintro ⟨v, -, hg⟩
    exact hframe v g hg

end

namespace Kmap

variable (k : Kmap)

def size : Nat := u32 (k.physEnd + (2 ^ 32 - k.physStart))

def first : Nat := k.virt / 4096

def last : Nat := (k.virt + k.size - 1) / 4096

/-- The entry of a page after the region has been mapped -/
def put (e : Nat → Nat) (v : Nat) : Nat :=
  if k.first ≤ v ∧ v ≤ k.last then mapped k.physStart k.perm (v - k.first) else e v

/-- A region of the kernel's half -/
structure Fits : Prop where
  kernel : 2 ^ 19 ≤ k.first
  nonempty : 1 ≤ k.size
  bound : k.virt + k.size ≤ 2 ^ 32
  phys : k.physStart < 2 ^ 32

end Kmap

/-- What `setupkvm` puts into a directory -/
def kernelEntry : Nat → Nat := kmap.foldl (fun e k => k.put e) fun _ => 0

theorem kmap_fits : ∀ k ∈ kmap, k.Fits := by
  have hall : ∀ k ∈ kmap, 2 ^ 19 ≤ k.first ∧ 1 ≤ k.size ∧ k.virt + k.size ≤ 2 ^ 32 ∧ k.physStart < 2 ^ 32 := by
    decide
  intro k hk
  obtain ⟨h1, h2, h3, h4⟩ := hall k hk
  exact ⟨h1, h2, h3, h4⟩

theorem kmap_ordered : kmap.Pairwise fun k k' => k.last < k'.first := by decide

theorem Kmap.put_of_lt {k : Kmap} (h : k.Fits) {e : Nat → Nat} {v : Nat} (hv : v < 2 ^ 19) :
    k.put e v = e v := by
  have hkernel := h.kernel
  exact if_neg (by omega)

theorem kernelEntry_of_lt {v : Nat} (hv : v < 2 ^ 19) : kernelEntry v = 0 := by
  have hfold (ks : List Kmap) (hks : ∀ k ∈ ks, k.Fits) (e : Nat → Nat) :
      ks.foldl (fun e k => k.put e) e v = e v := by
    induction ks generalizing e with
    | nil => rfl
    | cons k ks ih =>
      rw [List.foldl_cons, ih fun k hk => hks k (List.mem_cons_of_mem _ hk)]
      exact Kmap.put_of_lt (hks k List.mem_cons_self) hv
  exact hfold kmap kmap_fits _

/-- A directory in the making: `e` are its entries, and it has no user pages. -/
structure Kernel (s₀ : Phys) (d : Nat) (e : Nat → Nat) (s : Phys) : Prop where
  space : Space s d
  moves : Moves (fun _ => False) (s.Owns d) s₀ s
  later : s₀.Later s
  entry : ∀ v, s.entry d v = e v
  user : ∀ v < 2 ^ 19, e v = 0

/-- The call has failed, and all pages are where they were. -/
structure Undone (s₀ s : Phys) : Prop where
  pool : Pool s
  moves : Moves (fun _ => False) (fun _ => False) s₀ s

section

variable {E : Stop → Prop} {s₀ s s' : Phys} {d : Nat} {e : Nat → Nat}

theorem Kernel.wp_setupkvmLoop (h : Kernel s₀ d e s) (hnodup : s₀.free.Nodup) {ks : List Kmap} (hfits : ∀ k ∈ ks, k.Fits)
    (hordered : ks.Pairwise fun k k' => k.last < k'.first)
    (habsent : ∀ k ∈ ks, ∀ v, k.first ≤ v → v ≤ k.last → ¬Present (e v)) :
    Run.wp E (setupkvmLoop d ks) (fun r s' =>
      r = some d ∧ Kernel s₀ d (ks.foldl (fun e k => k.put e) e) s' ∨
        r = none ∧ Undone s₀ s' ∧ s₀.Short 1026) s := by
  induction ks generalizing e s with
  | nil => exact (Run.wp_pure ..).mpr (.inl ⟨rfl, h⟩)
  | cons k ks ih =>
    have hfit := hfits k List.mem_cons_self
    obtain ⟨hfirst, hrest⟩ := List.pairwise_cons.mp hordered
    rw [setupkvmLoop, Run.wp_bind]
    refine Run.wp_mono (h.space.toDirectory.wp_mappages hfit.phys hfit.nonempty hfit.bound ?_) ?_
    · intro v hle hge
      rw [h.entry]
      exact habsent k List.mem_cons_self v hle hge
    · rintro r s' ⟨m, hr, hmaps⟩
      have huser (v : Nat) (hv : v < 2 ^ 19) : s'.entry d v = s.entry d v := by
        have hkernel : 2 ^ 19 ≤ k.virt / 4096 := hfit.kernel
        rw [hmaps.entry, if_neg (by omega)]
      obtain ⟨hspace, hmoves⟩ := h.space.of_tables hmaps.directory huser hmaps.moves
      rcases hr with ⟨rfl, hm⟩ | ⟨rfl, hm, hlacks⟩
      · rw [if_neg (by decide)]
        have hput (v : Nat) : s'.entry d v = k.put e v := by
          rw [hmaps.entry, h.entry, Kmap.put]
          have hiff : k.virt / 4096 ≤ v ∧ v < k.virt / 4096 + m ↔ k.first ≤ v ∧ v ≤ k.last := by
            unfold Kmap.first Kmap.last Kmap.size
            omega
          simp only [hiff]
          rfl
        have hnext : Kernel s₀ d (k.put e) s' :=
          ⟨hspace, h.moves.trans hmoves, h.later.trans hmaps.later, hput, fun v hv =>
            (Kmap.put_of_lt hfit hv).trans (h.user v hv)⟩
        refine ih hnext (fun k' hk' => hfits k' (List.mem_cons_of_mem _ hk')) hrest fun k' hk' v hle hge => ?_
        have hlt := hfirst k' hk'
        show ¬Present (k.put e v)
        rw [Kmap.put, if_neg (by omega)]
        exact habsent k' (List.mem_cons_of_mem _ hk') v hle hge
      · have hpages (v : Nat) (hv : v < 2 ^ 19) (hp : Present (s'.entry d v)) : v < 0 := by
          rw [huser v hv, h.entry, h.user v hv] at hp
          exact absurd hp (by decide)
        have hshort := (h.moves.trans hmoves).short hnodup (h.later.lacks hlacks) hpages fun f hf => .inl (b := f = d) hf
        rw [Nat.zero_add] at hshort
        rw [if_pos (by decide), Run.wp_bind]
        refine Run.wp_mono hspace.wp_freevm ?_
        rintro _ s'' ⟨hpool, hfreed⟩
        exact (Run.wp_pure ..).mpr (.inr ⟨rfl, ⟨hpool, (h.moves.trans hmoves).trans hfreed⟩, hshort⟩)

/-- `setupkvm` returns a directory with the kernel's part, or gives back what it took. -/
theorem Pool.wp_setupkvm (h : Pool s) :
    Run.wp E setupkvm (fun r s' => (∃ d, r = some d ∧ Kernel s d kernelEntry s') ∨
      r = none ∧ Undone s s' ∧ s.Short 1026) s := by
  rw [setupkvm, Run.wp_bind]
  apply wp_kalloc
  · intro hlacks
    have hshort : s.Short 1026 := hlacks.imp (fun hnone => by rw [hnone]; exact Nat.zero_le _) id
    exact (Run.wp_pure ..).mpr (.inr ⟨rfl, ⟨⟨h.nodup, h.managed⟩, .tick _ s⟩, hshort⟩)
  · intro d rest hfree
    have hnodup := h.nodup
    have hmanaged := h.managed
    rw [hfree] at hnodup hmanaged
    obtain ⟨hnot, hnodup⟩ := List.nodup_cons.mp hnodup
    have hpool : Pool ((s.take rest).setPage d (page 0)) :=
      ⟨hnodup, fun g hg => hmanaged g (List.mem_cons_of_mem _ hg)⟩
    obtain ⟨hspace, hentry, howns⟩ :=
      hpool.space (hmanaged d List.mem_cons_self) hnot (Phys.mem_setPage_self _)
    have hkernel : Kernel s d (fun _ => 0) ((s.take rest).setPage d (page 0)) := by
      refine ⟨hspace, ?_, fun k hk => ⟨k + 1, hk⟩, hentry, fun _ _ => rfl⟩
      exact ((Moves.take hfree).trans (.setPage _ d (page 0))).congr (fun _ => .rfl) fun g => (howns g).symm
    show Run.wp E (memset d 0 >>= _) _ _
    rw [Run.wp_bind]
    apply wp_memset
    rw [if_neg (by decide)]
    refine Run.wp_mono (hkernel.wp_setupkvmLoop h.nodup kmap_fits kmap_ordered fun _ _ _ _ _ => by decide) ?_
    rintro r s' (⟨rfl, hdone⟩ | hfailed)
    · exact .inl ⟨d, rfl, hdone⟩
    · exact .inr hfailed

end

end Vm

end Xv6
