import Mathlib.Data.List.Nodup
import Xv6.Vm.Dealloc

/-!
# Address spaces and the pages they own

An address space owns the pages of its directory and those that its user part maps, each in one place, and
none of them is free.  The functions of `vm.c` keep it so, and leave the pages of others alone.
-/

namespace Xv6

namespace Vm

/-- The pages of the directory and of the user part -/
def Phys.Owns (s : Phys) (d f : Nat) : Prop :=
  s.Uses d f ∨ ∃ v < 2 ^ 19, entryFrame (s.entry d v) = some f

structure Space (s : Phys) (d : Nat) : Prop extends Directory s d where
  used : ∀ f, s.Uses d f → Managed f
  frame : ∀ v < 2 ^ 19, ∀ f, entryFrame (s.entry d v) = some f → Managed f ∧ ¬s.Uses d f ∧ f ∉ s.free
  once : ∀ v < 2 ^ 19, ∀ w < 2 ^ 19, ∀ f,
    entryFrame (s.entry d v) = some f → entryFrame (s.entry d w) = some f → v = w

/-- A page that a function has taken and not yet put into the address space -/
structure Held (s : Phys) (d f : Nat) : Prop where
  managed : Managed f
  unfree : f ∉ s.free
  unowned : ¬s.Owns d f

namespace Moves

variable {A B : Nat → Prop} {s s' : Phys} {f : Nat} {rest : List Nat}

theorem frame (h : Moves A B s s') (R : Nat → Prop) :
    Moves (fun f => A f ∨ R f) (fun f => B f ∨ R f) s s' where
  conserve f := by rw [← or_assoc, h.conserve, or_assoc]
  mem f hfree hA := h.mem f hfree fun h => hA (.inl h)

theorem congr {A' B' : Nat → Prop} (h : Moves A B s s') (hA : ∀ f, A f ↔ A' f) (hB : ∀ f, B f ↔ B' f) :
    Moves A' B' s s' where
  conserve f := by rw [← hA, ← hB, h.conserve]
  mem f hfree hA' := h.mem f hfree fun h => hA' ((hA f).mp h)

theorem unfree (h : Moves A B s s') (hfree : f ∉ s.free) (hA : ¬A f) : f ∉ s'.free ∧ ¬B f := by
  rw [← not_or, h.conserve, not_or]
  exact ⟨hfree, hA⟩

theorem take (hfree : s.free = f :: rest) : Moves (fun _ => False) (· = f) s (s.take rest) where
  conserve g := by
    rw [hfree, List.mem_cons, or_false]
    exact or_comm
  mem _ _ _ := rfl

theorem give (s : Phys) (f : Nat) : Moves (· = f) (fun _ => False) s (s.give f) where
  conserve _ := by
    rw [Phys.give, List.mem_cons, or_false]
    exact or_comm
  mem _ _ hg := Phys.mem_setPage_ne hg _

theorem setPage (s : Phys) (f : Nat) (b : Bytes PGSIZE) : Moves (· = f) (· = f) s (s.setPage f b) where
  conserve _ := .rfl
  mem _ _ hg := Phys.mem_setPage_ne hg b

end Moves

section

variable {E : Stop → Prop} {s s' : Phys} {d f t v : Nat}

theorem entryFrame_mapped {perm : Nat} (hf : f < 2 ^ 20) (hperm : perm < PGSIZE) :
    mapped (f * PGSIZE) perm 0 = f * PGSIZE ||| (perm ||| PTE_P) ∧
      entryFrame (mapped (f * PGSIZE) perm 0) = some f := by
  have hflags : perm ||| PTE_P < 4096 := or_lt_page hperm (by decide)
  have hpa : f * PGSIZE < 2 ^ 32 := by
    simp only [PGSIZE]
    omega
  have hmapped : mapped (f * PGSIZE) perm 0 = f * PGSIZE ||| (perm ||| PTE_P) := by
    rw [mapped_zero hpa, Nat.or_assoc]
    exact Nat.mod_eq_of_lt (Nat.or_lt_two_pow hpa (hflags.trans (by decide)))
  exact ⟨hmapped, by rw [hmapped, entryFrame_or f hflags (present_or perm)]⟩

theorem Directory.wp_mapPage (h : Directory s d) (hv : v < 2 ^ 20) (hf : f < 2 ^ 20) {perm : Nat}
    (habsent : ¬Present (s.entry d v)) {Q : Int → Phys → Prop}
    (hzero : ∀ s', Maps d v (f * PGSIZE) perm 1 s s' → Q 0 s')
    (hneg : ∀ s', Maps d v (f * PGSIZE) perm 0 s s' → s.Lacks s' → Q (-1) s') :
    Run.wp E (mappages d (v * 4096) PGSIZE (f * PGSIZE) perm) Q s := by
  have hfirst : v * 4096 / 4096 = v := Nat.mul_div_cancel v (by decide)
  have hlast : (v * 4096 + PGSIZE - 1) / 4096 = v := by
    simp only [PGSIZE]
    omega
  have hone (w : Nat) (hle : v * 4096 / 4096 ≤ w) (hge : w ≤ (v * 4096 + PGSIZE - 1) / 4096) :
      ¬Present (s.entry d w) := by
    rw [hfirst] at hle
    rw [hlast] at hge
    rwa [← Nat.le_antisymm hle hge]
  refine Run.wp_mono (h.wp_mappages (by simp only [PGSIZE]; omega) (by decide) ?_ hone) ?_
  · simp only [PGSIZE]
    omega
  · rintro r s' ⟨m, hr, hmaps⟩
    rw [hfirst, hlast] at hr
    rw [hfirst] at hmaps
    rcases hr with ⟨rfl, hm⟩ | ⟨rfl, hm, hlacks⟩
    · obtain rfl : m = 1 := by omega
      exact hzero s' hmaps
    · obtain rfl : m = 0 := by omega
      exact hneg s' hmaps hlacks

namespace Space

theorem unfree (h : Space s d) (hf : s.Owns d f) : f ∉ s.free := by
  rcases hf with hf | ⟨v, hv, hf⟩
  · exact fun hfree => h.unused f hfree hf
  · exact (h.frame v hv f hf).2.2

theorem freeable (h : Space s d) : Freeable s d where
  toTree := h.toTree
  frame v hv f hf := ⟨(h.frame v hv f hf).1, (h.frame v hv f hf).2.1⟩

theorem of_moves {A B : Nat → Prop} (h : Space s d) (hmoves : Moves A B s s')
    (hother : ∀ f, s.Owns d f → ¬A f) (hnodup : s'.free.Nodup) (hmanaged : ∀ f ∈ s'.free, Managed f) :
    Space s' d ∧ s'.table d = s.table d ∧ s'.entry d = s.entry d := by
  have hmem {f : Nat} (hf : s.Owns d f) : s'.mem f = s.mem f := hmoves.mem f (h.unfree hf) (hother f hf)
  have hunfree {f : Nat} (hf : s.Owns d f) : f ∉ s'.free :=
    (hmoves.unfree (h.unfree hf) (hother f hf)).1
  have hdir : s'.mem d = s.mem d := hmem (.inl (.inl rfl))
  have htable := Phys.table_congr hdir
  have hentry := Phys.entry_congr hdir fun i t ht => hmem (.inl (.inr ⟨i, ht⟩))
  have huses : s'.Uses d = s.Uses d := by
    funext g
    simp only [Phys.Uses, htable]
  refine ⟨⟨⟨⟨?_, ?_⟩, hnodup, hmanaged, ?_⟩, ?_, ?_, ?_⟩, htable, hentry⟩
  · rw [htable]
    exact h.inj
  · rw [htable]
    exact h.ne_dir
  · intro f hf hused
    rw [huses] at hused
    exact hunfree (.inl hused) hf
  · rw [huses]
    exact h.used
  · rw [huses, hentry]
    intro v hv f hf
    obtain ⟨hm, hu, -⟩ := h.frame v hv f hf
    exact ⟨hm, hu, hunfree (.inr ⟨v, hv, hf⟩)⟩
  · rw [hentry]
    exact h.once

theorem owns_congr (htable : s'.table d = s.table d) (hentry : s'.entry d = s.entry d) (f : Nat) :
    s'.Owns d f ↔ s.Owns d f := by
  simp only [Phys.Owns, Phys.Uses, htable, hentry]

theorem take (h : Space s d) {rest : List Nat} (hfree : s.free = f :: rest) :
    Space (s.take rest) d ∧ Held (s.take rest) d f := by
  have hnodup := h.nodup
  rw [hfree, List.nodup_cons] at hnodup
  have hmem : f ∈ s.free := by rw [hfree]; exact List.mem_cons_self
  have hrest (g : Nat) (hg : g ∈ rest) : Managed g :=
    h.managed g (by rw [hfree]; exact List.mem_cons_of_mem _ hg)
  refine ⟨(h.of_moves (.take hfree) (fun _ _ => id) hnodup.2 hrest).1, h.managed f hmem, hnodup.1, ?_⟩
  exact fun hown => h.unfree hown hmem

theorem setPage (h : Space s d) (hf : Held s d f) (b : Bytes PGSIZE) :
    Space (s.setPage f b) d ∧ Held (s.setPage f b) d f ∧
      (s.setPage f b).table d = s.table d ∧ (s.setPage f b).entry d = s.entry d := by
  have hother (g : Nat) (hg : s.Owns d g) : g ≠ f := by
    rintro rfl
    exact hf.unowned hg
  obtain ⟨hspace, htable, hentry⟩ := h.of_moves (.setPage s f b) hother h.nodup h.managed
  refine ⟨hspace, ⟨hf.managed, hf.unfree, ?_⟩, htable, hentry⟩
  rw [owns_congr htable hentry]
  exact hf.unowned

theorem give (h : Space s d) (hf : Held s d f) :
    Space (s.give f) d ∧ (s.give f).table d = s.table d ∧ (s.give f).entry d = s.entry d := by
  refine h.of_moves (.give s f) ?_ (List.nodup_cons.mpr ⟨hf.unfree, h.nodup⟩) ?_
  · rintro g hg rfl
    exact hf.unowned hg
  · intro g hg
    rcases List.mem_cons.mp hg with rfl | hg
    · exact hf.managed
    · exact h.managed g hg

theorem of_tables (h : Space s d) (hdir : Directory s' d) (hentry : ∀ v < 2 ^ 19, s'.entry d v = s.entry d v)
    (hmoves : Moves (s.Uses d) (s'.Uses d) s s') :
    Space s' d ∧ Moves (s.Owns d) (s'.Owns d) s s' := by
  refine ⟨⟨hdir, ?_, ?_, ?_⟩, ?_⟩
  · intro f hf
    rcases (hmoves.conserve f).mp (.inr hf) with hfree | hused
    · exact h.managed f hfree
    · exact h.used f hused
  · intro v hv f hf
    rw [hentry v hv] at hf
    obtain ⟨hmanaged, hu, hfree⟩ := h.frame v hv f hf
    exact ⟨hmanaged, (hmoves.unfree hfree hu).2, (hmoves.unfree hfree hu).1⟩
  · intro v hv w hw f hfv hfw
    rw [hentry v hv] at hfv
    rw [hentry w hw] at hfw
    exact h.once v hv w hw f hfv hfw
  · refine (hmoves.frame fun f => ∃ v < 2 ^ 19, entryFrame (s.entry d v) = some f).congr
      (fun _ => .rfl) fun f => or_congr .rfl ?_
    refine exists_congr fun v => and_congr_right fun hv => ?_
    rw [hentry v hv]

theorem map_page (h : Space s d) (hf : Held s d f) (hv : v < 2 ^ 19) (habsent : ¬Present (s.entry d v))
    {perm : Nat} (hperm : perm < PGSIZE) (hmaps : Maps d v (f * PGSIZE) perm 1 s s') :
    Space s' d ∧ Moves (fun g => s.Owns d g ∨ g = f) (s'.Owns d) s s' ∧
      entryFrame (s'.entry d v) = some f := by
  have hself : entryFrame (s'.entry d v) = some f := by
    rw [hmaps.entry, if_pos (by omega), Nat.sub_self]
    exact (entryFrame_mapped (hf.managed.lt.trans (by decide)) hperm).2
  have hother {w : Nat} (hw : w ≠ v) : s'.entry d w = s.entry d w := by
    rw [hmaps.entry, if_neg (by omega)]
  have hunfree {g : Nat} (hfree : g ∉ s.free) (hg : ¬s.Uses d g) : g ∉ s'.free ∧ ¬s'.Uses d g :=
    hmaps.moves.unfree hfree hg
  have hheld := hunfree hf.unfree fun hu => hf.unowned (.inl hu)
  refine ⟨⟨hmaps.directory, ?_, ?_, ?_⟩, ?_, hself⟩
  · intro g hg
    rcases (hmaps.moves.conserve g).mp (.inr hg) with hfree | hused
    · exact h.managed g hfree
    · exact h.used g hused
  · intro w hw g hg
    by_cases hwv : w = v
    · rw [hwv, hself] at hg
      obtain rfl := Option.some.inj hg
      exact ⟨hf.managed, hheld.2, hheld.1⟩
    · rw [hother hwv] at hg
      obtain ⟨hm, hu, hfree⟩ := h.frame w hw g hg
      exact ⟨hm, (hunfree hfree hu).2, (hunfree hfree hu).1⟩
  · intro w hw w' hw' g hg hg'
    by_cases hwv : w = v
    · by_cases hwv' : w' = v
      · rw [hwv, hwv']
      · rw [hwv, hself] at hg
        rw [hother hwv'] at hg'
        obtain rfl := Option.some.inj hg
        exact absurd (.inr ⟨w', hw', hg'⟩) hf.unowned
    · rw [hother hwv] at hg
      by_cases hwv' : w' = v
      · rw [hwv', hself] at hg'
        obtain rfl := Option.some.inj hg'
        exact absurd (.inr ⟨w, hw, hg⟩) hf.unowned
      · rw [hother hwv'] at hg'
        exact h.once w hw w' hw' g hg hg'
  · have howns (g : Nat) : s'.Owns d g ↔
        s'.Uses d g ∨ (∃ w < 2 ^ 19, entryFrame (s.entry d w) = some g) ∨ g = f := by
      refine or_congr_right ?_
      constructor
      · rintro ⟨w, hw, hg⟩
        by_cases hwv : w = v
        · rw [hwv, hself] at hg
          exact .inr (Option.some.inj hg).symm
        · rw [hother hwv] at hg
          exact .inl ⟨w, hw, hg⟩
      · rintro (⟨w, hw, hg⟩ | rfl)
        · refine ⟨w, hw, ?_⟩
          rw [hother, hg]
          rintro rfl
          rw [entryFrame_of_not habsent] at hg
          cases hg
        · exact ⟨v, hv, hself⟩
    refine (hmaps.moves.frame fun g => (∃ w < 2 ^ 19, entryFrame (s.entry d w) = some g) ∨ g = f).congr
      (fun g => ?_) fun g => (howns g).symm
    rw [← or_assoc]
    rfl

theorem mem_frames {vs : List Nat} : f ∈ s.frames d vs ↔ ∃ v ∈ vs, entryFrame (s.entry d v) = some f :=
  List.mem_filterMap

theorem of_dropped (h : Space s d) {vs : List Nat} (hvs : ∀ v ∈ vs, v < 2 ^ 19) (hnodup : vs.Nodup)
    (hdropped : Dropped s d vs s') : Space s' d ∧ Moves (s.Owns d) (s'.Owns d) s s' := by
  have huses : s'.Uses d = s.Uses d := by
    funext g
    simp only [Phys.Uses, hdropped.table]
  have hfree (g : Nat) : g ∈ s'.free ↔ g ∈ s.frames d vs ∨ g ∈ s.free := by
    rw [hdropped.free, List.mem_append, List.mem_reverse]
  -- A frame that is left was there before, and not in the list.
  have hleft {v g : Nat} : entryFrame (s'.entry d v) = some g ↔ entryFrame (s.entry d v) = some g ∧ v ∉ vs := by
    rw [hdropped.entry]
    by_cases hv : v ∈ vs
    · by_cases hp : Present (s.entry d v)
      · rw [if_pos ⟨hv, hp⟩]
        exact ⟨by rintro ⟨⟩, fun h => absurd hv h.2⟩
      · rw [if_neg fun h => hp h.2, entryFrame_of_not hp]
        simp
    · rw [if_neg fun h => hv h.1]
      exact ⟨fun h => ⟨h, hv⟩, And.left⟩
  have hframes : (s.frames d vs).Nodup := by
    refine List.pairwise_filterMap.mpr (hnodup.imp_of_mem ?_)
    rintro v w hv hw hne g hg g' hg' rfl
    exact hne (h.once v (hvs v hv) w (hvs w hw) g hg hg')
  refine ⟨⟨⟨⟨?_, ?_⟩, ?_, ?_, ?_⟩, ?_, ?_, ?_⟩, ?_, ?_⟩
  · rw [hdropped.table]
    exact h.inj
  · rw [hdropped.table]
    exact h.ne_dir
  · rw [hdropped.free, List.nodup_append]
    refine ⟨List.nodup_reverse.mpr hframes, h.nodup, ?_⟩
    rintro g hg g' hg' rfl
    obtain ⟨v, hv, hgv⟩ := mem_frames.mp (List.mem_reverse.mp hg)
    exact (h.frame v (hvs v hv) g hgv).2.2 hg'
  · intro g hg
    rcases (hfree g).mp hg with hg | hg
    · obtain ⟨v, hv, hgv⟩ := mem_frames.mp hg
      exact (h.frame v (hvs v hv) g hgv).1
    · exact h.managed g hg
  · intro g hg
    rw [huses]
    rcases (hfree g).mp hg with hg | hg
    · obtain ⟨v, hv, hgv⟩ := mem_frames.mp hg
      exact (h.frame v (hvs v hv) g hgv).2.1
    · exact h.unused g hg
  · rw [huses]
    exact h.used
  · intro v hv g hg
    obtain ⟨hg, hnot⟩ := hleft.mp hg
    obtain ⟨hm, hu, hunfree⟩ := h.frame v hv g hg
    rw [huses, hfree, not_or]
    refine ⟨hm, hu, ?_, hunfree⟩
    intro hmem
    obtain ⟨w, hw, hgw⟩ := mem_frames.mp hmem
    exact hnot (h.once v hv w (hvs w hw) g hg hgw ▸ hw)
  · intro v hv w hw g hg hg'
    exact h.once v hv w hw g (hleft.mp hg).1 (hleft.mp hg').1
  · intro g
    rw [hfree, Phys.Owns, Phys.Owns, huses]
    simp only [hleft, mem_frames]
    constructor
    · rintro ((⟨v, hv, hg⟩ | hg) | hu | ⟨v, hv, hg, -⟩)
      · exact .inr (.inr ⟨v, hvs v hv, hg⟩)
      · exact .inl hg
      · exact .inr (.inl hu)
      · exact .inr (.inr ⟨v, hv, hg⟩)
    · rintro (hg | hu | ⟨v, hv, hg⟩)
      · exact .inl (.inr hg)
      · exact .inr (.inl hu)
      · by_cases hmem : v ∈ vs
        · exact .inl (.inl ⟨v, hmem, hg⟩)
        · exact .inr (.inr ⟨v, hv, hg, hmem⟩)
  · intro g _ hown
    refine hdropped.mem g (fun hu => hown (.inl hu)) ?_
    intro hmem
    obtain ⟨v, hv, hg⟩ := mem_frames.mp hmem
    exact hown (.inr ⟨v, hvs v hv, hg⟩)

end Space

end

end Vm

end Xv6
