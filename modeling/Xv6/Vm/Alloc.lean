import Xv6.Vm.Space

/-!
# `allocuvm`

New pages are mapped one by one.  When there is no page left, the new ones are freed again, and the address
space translates as before.
-/

namespace Xv6

namespace Vm

/-- What a virtual page is mapped to, if it is -/
def Phys.translate (s : Phys) (d v : Nat) : Option Nat :=
  if Present (s.entry d v) then some (s.entry d v) else none

/-- The user pages are those below `sz`. -/
def Sized (s : Phys) (d sz : Nat) : Prop := ∀ v < 2 ^ 19, Present (s.entry d v) ↔ v < npages sz

/-- What is mapped, page by page, from `lo` on; the other pages keep what they have. -/
structure Plan where
  lo : Nat
  old : Nat → Option Nat
  flags : Nat → Nat
  content : Nat → Bytes PGSIZE

/-- From `s₀`, the plan has been followed below page `v`; `H` are pages in hand. -/
structure Filled (c : Plan) (A : Nat → Prop) (s₀ : Phys) (d v : Nat) (H : Nat → Prop) (s : Phys) : Prop where
  bound : v ≤ 2 ^ 19
  space : Space s d
  moves : Moves A (fun f => s.Owns d f ∨ H f) s₀ s
  old : ∀ w, ¬(c.lo ≤ w ∧ w < v) → s.translate d w = c.old w
  fresh : ∀ w, c.lo ≤ w → w < v → ∃ f,
    s.entry d w = f * PGSIZE ||| (c.flags w ||| PTE_P) ∧ entryFrame (s.entry d w) = some f
  content : ∀ w < 2 ^ 19, ∀ f, entryFrame (s.entry d w) = some f →
    s.mem f = if c.lo ≤ w ∧ w < v then c.content w else s₀.mem f

section

variable {E : Stop → Prop} {s₀ s s' : Phys} {d f hi v : Nat} {A H : Nat → Prop} {c : Plan}

theorem Phys.translate_eq_none : s.translate d v = none ↔ ¬Present (s.entry d v) := by
  unfold translate
  split_ifs with hp
  · exact ⟨nofun, fun h => absurd hp h⟩
  · exact ⟨fun _ => hp, fun _ => rfl⟩

theorem Phys.translate_congr (h : s'.entry d v = s.entry d v) : s'.translate d v = s.translate d v := by
  rw [translate, translate, h]

theorem Phys.entryFrame_entry (s : Phys) (d v : Nat) :
    entryFrame (s.entry d v) = (s.translate d v).map fun e => PTE_ADDR e / PGSIZE := by
  unfold entryFrame translate
  split_ifs <;> rfl

theorem Space.tick (h : Space s d) : Space s.tick d := ⟨h.toDirectory.tick, h.used, h.frame, h.once⟩

namespace Filled

theorem of_same (h : Filled c A s₀ d v H s) {H' : Nat → Prop} (hspace : Space s' d)
    (hmoves : Moves (fun f => s.Owns d f ∨ H f) (fun f => s'.Owns d f ∨ H' f) s s')
    (hentry : s'.entry d = s.entry d)
    (hmem : ∀ w < 2 ^ 19, ∀ f, entryFrame (s.entry d w) = some f → s'.mem f = s.mem f) :
    Filled c A s₀ d v H' s' := by
  refine ⟨h.bound, hspace, h.moves.trans hmoves, ?_, ?_, ?_⟩
  · intro w hw
    rw [Phys.translate_congr (congrFun hentry w)]
    exact h.old w hw
  · rw [hentry]
    exact h.fresh
  · intro w hw f hf
    rw [hentry] at hf
    rw [hmem w hw f hf]
    exact h.content w hw f hf

theorem tick (h : Filled c A s₀ d v H s) : Filled c A s₀ d v H s.tick :=
  h.of_same h.space.tick (.tick _ s) rfl fun _ _ _ _ => rfl

theorem take (h : Filled c A s₀ d v (fun _ => False) s) {rest : List Nat} (hfree : s.free = f :: rest)
    (b : Bytes PGSIZE) :
    Filled c A s₀ d v (· = f) ((s.take rest).setPage f b) ∧ Held ((s.take rest).setPage f b) d f := by
  obtain ⟨hspace, hheld⟩ := h.space.take hfree
  obtain ⟨hspace', hheld', htable, hentry⟩ := hspace.setPage hheld b
  have htaken := ((Moves.take hfree).trans (.setPage _ f b)).frame (s.Owns d)
  refine ⟨h.of_same hspace' (htaken.congr (fun _ => or_comm) fun g => ?_) hentry fun w hw g hg => ?_, hheld'⟩
  · rw [Space.owns_congr htable hentry]
    exact or_comm
  · refine Phys.mem_setPage_ne ?_ b
    rintro rfl
    exact hheld.unowned (.inr ⟨w, hw, hg⟩)

theorem give (h : Filled c A s₀ d v (· = f) s) (hf : Held s d f) :
    Filled c A s₀ d v (fun _ => False) (s.give f) := by
  obtain ⟨hspace, htable, hentry⟩ := h.space.give hf
  have hgive := (Moves.give s f).frame (s.Owns d)
  refine h.of_same hspace (hgive.congr (fun _ => or_comm) fun g => ?_) hentry fun w hw g hg => ?_
  · rw [Space.owns_congr htable hentry]
    exact or_comm
  · apply Phys.mem_setPage_ne
    rintro rfl
    exact hf.unowned (.inr ⟨w, hw, hg⟩)

theorem mem_of_maps (h : Filled c A s₀ d v H s) {n pa perm : Nat} (hmaps : Maps d v pa perm n s s')
    (w : Nat) (hw : w < 2 ^ 19) (g : Nat) (hg : entryFrame (s.entry d w) = some g) : s'.mem g = s.mem g := by
  obtain ⟨-, hu, hfree⟩ := h.space.frame w hw g hg
  exact hmaps.moves.mem g hfree hu

theorem map (h : Filled c A s₀ d v (· = f) s) (hf : Held s d f) (hmem : s.mem f = c.content v)
    (hlo : c.lo ≤ v) (hv : v < 2 ^ 19) (habsent : ¬Present (s.entry d v)) (hperm : c.flags v < PGSIZE)
    (hmaps : Maps d v (f * PGSIZE) (c.flags v) 1 s s') : Filled c A s₀ d (v + 1) (fun _ => False) s' := by
  obtain ⟨hspace, hmoves, hself⟩ := h.space.map_page hf hv habsent hperm hmaps
  have hother {w : Nat} (hw : w ≠ v) : s'.entry d w = s.entry d w := by
    rw [hmaps.entry, if_neg (by omega)]
  refine ⟨hv, hspace, ?_, ?_, ?_, ?_⟩
  · refine h.moves.trans (hmoves.congr (fun _ => .rfl) fun _ => ?_)
    rw [or_false]
  · intro w hw
    rw [Phys.translate_congr (hother (by omega))]
    exact h.old w (by omega)
  · intro w hle hlt
    by_cases hw : w = v
    · subst hw
      refine ⟨f, ?_, hself⟩
      rw [hmaps.entry, if_pos (by omega), Nat.sub_self]
      exact (entryFrame_mapped (hf.managed.lt.trans (by decide)) hperm).1
    · rw [hother hw]
      exact h.fresh w hle (by omega)
  · intro w hw g hg
    by_cases hwv : w = v
    · subst hwv
      rw [hself] at hg
      obtain rfl := Option.some.inj hg
      rw [if_pos (by omega), hmaps.moves.mem f hf.unfree fun hu => hf.unowned (.inl hu), hmem]
    · rw [hother hwv] at hg
      have hiff : c.lo ≤ w ∧ w < v + 1 ↔ c.lo ≤ w ∧ w < v := by omega
      rw [h.mem_of_maps hmaps w hw g hg, h.content w hw g hg]
      simp only [hiff]

theorem unmapped (h : Filled c A s₀ d v H s) {pa perm : Nat} (hmaps : Maps d v pa perm 0 s s') :
    Filled c A s₀ d v H s' ∧ (Held s d f → Held s' d f) := by
  have hentry : s'.entry d = s.entry d := by
    funext w
    rw [hmaps.entry, if_neg (by omega)]
  obtain ⟨hspace, hmoves⟩ := h.space.of_tables hmaps.directory (fun w _ => congrFun hentry w) hmaps.moves
  refine ⟨h.of_same hspace (hmoves.frame H) hentry (h.mem_of_maps hmaps), fun hf => ?_⟩
  obtain ⟨hfree, hown⟩ := hmoves.unfree hf.unfree hf.unowned
  exact ⟨hf.managed, hfree, hown⟩

theorem drop (h : Filled c A s₀ d v H s) (hlo : c.lo ≤ v) (hv : v ≤ hi) (hhi : hi ≤ 2 ^ 19)
    (habsent : ∀ w, c.lo ≤ w → w < hi → c.old w = none)
    (hdropped : Dropped s d (List.range' c.lo (hi - c.lo)) s') :
    Filled c A s₀ d c.lo H s' ∧ (Held s d f → Held s' d f) := by
  have hmem {w : Nat} : w ∈ List.range' c.lo (hi - c.lo) ↔ c.lo ≤ w ∧ w < hi := by
    rw [List.mem_range'_1]
    omega
  have hrange (w : Nat) (hw : w ∈ List.range' c.lo (hi - c.lo)) : w < 2 ^ 19 :=
    Nat.lt_of_lt_of_le (hmem.mp hw).2 hhi
  obtain ⟨hspace, hmoves⟩ := h.space.of_dropped hrange List.nodup_range' hdropped
  have hinside {w : Nat} (hw : c.lo ≤ w ∧ w < hi) : ¬Present (s'.entry d w) := by
    rw [hdropped.entry]
    split_ifs with hp
    · decide
    · exact fun hpresent => hp ⟨hmem.mpr hw, hpresent⟩
  have houtside {w : Nat} (hw : ¬(c.lo ≤ w ∧ w < hi)) : s'.entry d w = s.entry d w :=
    (hdropped.entry w).trans (if_neg fun hp => hw (hmem.mp hp.1))
  refine ⟨⟨hlo.trans h.bound, hspace, h.moves.trans (hmoves.frame H), ?_, ?_, ?_⟩, ?_⟩
  · intro w _
    by_cases hw : c.lo ≤ w ∧ w < hi
    · rw [Phys.translate_eq_none.mpr (hinside hw), habsent w hw.1 hw.2]
    · rw [Phys.translate_congr (houtside hw)]
      exact h.old w (by omega)
  · exact fun w hle hlt => absurd hlt (by omega)
  · intro w hw g hg
    have hout : ¬(c.lo ≤ w ∧ w < hi) := fun hin => hinside hin (present_of_entryFrame hg)
    rw [houtside hout] at hg
    have hkept : s'.mem g = s.mem g := by
      refine hdropped.mem g (h.space.frame w hw g hg).2.1 fun hin => ?_
      obtain ⟨w', hw', hg'⟩ := Space.mem_frames.mp hin
      rw [h.space.once w hw w' (hrange w' hw') g hg hg'] at hout
      exact hout (hmem.mp hw')
    rw [hkept, h.content w hw g hg, if_neg (by omega), if_neg (by omega)]
  · intro hf
    obtain ⟨hfree, hown⟩ := hmoves.unfree hf.unfree hf.unowned
    exact ⟨hf.managed, hfree, hown⟩

end Filled

/-- The plan of `allocuvm` -/
def Phys.growth (s : Phys) (d lo : Nat) : Plan where
  lo := lo
  old := s.translate d
  flags _ := PTE_W ||| PTE_U
  content _ := page 0

/-- An address space in which the pages from `lo` on and below `v` are new -/
abbrev Grown (s₀ : Phys) (d lo v : Nat) : (Nat → Prop) → Phys → Prop :=
  Filled (s₀.growth d lo) (s₀.Owns d) s₀ d v

theorem Space.grown (h : Space s d) {lo : Nat} (hlo : lo ≤ 2 ^ 19) : Grown s d lo lo (fun _ => False) s where
  bound := hlo
  space := h
  moves := (Moves.refl (s.Owns d) s).congr (fun _ => .rfl) fun _ => by rw [or_false]
  old _ _ := rfl
  fresh w hle hlt := absurd hlt (Nat.not_lt.mpr hle)
  content w _ f _ := (if_neg fun hw => absurd hw.2 (Nat.not_lt.mpr hw.1)).symm

theorem Grown.wp_undo {oldsz newsz : Nat} (h : Grown s₀ d (npages oldsz) v H s) (hlt : oldsz < newsz)
    (hnew : newsz ≤ KERNBASE) (hle : npages oldsz ≤ v) (hv : v ≤ npages newsz)
    (habsent : ∀ w, npages oldsz ≤ w → w < npages newsz → ¬Present (s₀.entry d w)) {Q : Nat → Phys → Prop}
    (hQ : ∀ s', Grown s₀ d (npages oldsz) (npages oldsz) H s' → (∀ f, Held s d f → Held s' d f) → Q oldsz s') :
    Run.wp E (deallocuvm d newsz oldsz) Q s := by
  have hhi := npages_le hnew
  have hpages (w : Nat) (hw : w ∈ pagesBetween oldsz newsz) : w < 2 ^ 19 :=
    Nat.lt_of_lt_of_le ((mem_pagesBetween hlt).mp hw).2 hhi
  refine Run.wp_mono (h.space.freeable.wp_deallocuvm hlt hnew) ?_
  rintro _ s' ⟨rfl, rfl⟩
  have hdropped := h.space.freeable.foldl_dropPage hpages List.nodup_range'
  have hdrop (f : Nat) := h.drop (f := f) hle hv hhi
    (fun w hlo hlt => Phys.translate_eq_none.mpr (habsent w hlo hlt)) hdropped
  exact hQ _ (hdrop 0).1 fun f => (hdrop f).2

theorem Grown.wp_allocuvmLoop {oldsz newsz fuel : Nat}
    (h : Grown s₀ d (npages oldsz) v (fun _ => False) s) (hle : npages oldsz ≤ v) (hlt : oldsz ≤ newsz)
    (hnew : newsz < KERNBASE) (hv : v ≤ npages newsz) (hfuel : npages newsz - v < fuel)
    (habsent : ∀ w, npages oldsz ≤ w → w < npages newsz → ¬Present (s₀.entry d w)) :
    Run.wp E (allocuvmLoop d oldsz newsz fuel (v * 4096)) (fun r s' =>
      r = newsz ∧ Grown s₀ d (npages oldsz) (npages newsz) (fun _ => False) s' ∨
        r = 0 ∧ Grown s₀ d (npages oldsz) (npages oldsz) (fun _ => False) s') s := by
  have hhi := npages_le hnew.le
  induction fuel generalizing v s with
  | zero => omega
  | succ fuel ih =>
    rw [allocuvmLoop]
    by_cases ha : v * 4096 < newsz
    · have hvn := lt_npages.mp ha
      have hgrow : oldsz < newsz := by
        unfold npages at hle
        omega
      rw [if_pos ha, Run.wp_bind]
      apply wp_kalloc
      · intro _
        show Run.wp E (deallocuvm d newsz oldsz >>= fun _ => pure 0) _ s.tick
        rw [Run.wp_bind]
        apply Grown.wp_undo h.tick hgrow hnew.le hle hv habsent
        intro s' hrestored _
        exact (Run.wp_pure ..).mpr (.inr ⟨rfl, hrestored⟩)
      · intro f rest hfree
        obtain ⟨h1, hheld⟩ := h.take hfree (page 0)
        show Run.wp E (memset f 0 >>= _) _ _
        rw [Run.wp_bind]
        apply wp_memset
        rw [Run.wp_bind]
        have habs : ¬Present (((s.take rest).setPage f (page 0)).entry d v) := by
          rw [← Phys.translate_eq_none, h1.old v fun hin => absurd hin.2 (lt_irrefl v)]
          exact Phys.translate_eq_none.mpr (habsent v hle hvn)
        have hframe : f < 2 ^ 20 := hheld.managed.lt.trans (by decide)
        have hflags : PTE_W ||| PTE_U < PGSIZE := by decide
        apply h1.space.toDirectory.wp_mapPage (by omega) hframe habs
        · intro s' hmaps
          have hgrown := h1.map hheld (Phys.mem_setPage_self _) hle (by omega) habs hflags hmaps
          rw [if_neg (by decide), next_page (by omega)]
          exact ih hgrown (by omega) hvn (by omega)
        · intro s' hmaps _
          obtain ⟨hgrown, hheld'⟩ := h1.unmapped (f := f) hmaps
          rw [if_pos (by decide), Run.wp_bind]
          apply Grown.wp_undo hgrown hgrow hnew.le hle hv habsent
          intro s'' hrestored hheld''
          have hf := hheld'' f (hheld' hheld)
          rw [Run.wp_bind]
          apply wp_kfree hf.managed
          exact (Run.wp_pure ..).mpr (.inr ⟨rfl, hrestored.give hf⟩)
    · rw [if_neg ha, Run.wp_pure]
      rw [lt_npages] at ha
      obtain rfl : v = npages newsz := by omega
      exact .inl ⟨rfl, h⟩

/-- `allocuvm` maps all pages of the range to zeroed frames, or fails and undoes its work. -/
theorem Space.wp_allocuvm (h : Space s d) {oldsz newsz : Nat} (hle : oldsz ≤ newsz) (hnew : newsz < KERNBASE)
    (habsent : ∀ w, npages oldsz ≤ w → w < npages newsz → ¬Present (s.entry d w)) :
    Run.wp E (allocuvm d oldsz newsz) (fun r s' =>
      r = newsz ∧ Grown s d (npages oldsz) (npages newsz) (fun _ => False) s' ∨
        r = 0 ∧ Grown s d (npages oldsz) (npages oldsz) (fun _ => False) s') s := by
  have hpages := npages_mono hle
  have hhi := npages_le hnew.le
  rw [allocuvm, if_neg (by omega), if_neg (by omega), PGROUNDUP_eq (hle.trans hnew.le)]
  exact Grown.wp_allocuvmLoop (h.grown (by omega)) le_rfl hle hnew hpages (by simp only [NPAGES]; omega) habsent

end

end Vm

end Xv6
