import Mathlib.Data.Fintype.Card
import Xv6.Vm.Kvm
import Xv6.Vm.Sbrk

/-!
# `copyuvm`

The child gets pages of its own, with the parent's contents and permissions.  A directory never has more
user pages than there are frames, so that the loop ends before it comes to the kernel's half.
-/

namespace Xv6

namespace Vm

/-- The pages of the parent are not free; its kernel part maps all of memory. -/
structure Parent (s : Phys) (d : Nat) : Prop extends Pool s where
  unused : ∀ f ∈ s.free, ¬s.Uses d f
  frame : ∀ v < 2 ^ 19, ∀ f, entryFrame (s.entry d v) = some f → f ∉ s.free

/-- The plan of `copyuvm`: the pages of the parent, below the kernel's part -/
def Phys.copies (s : Phys) (d : Nat) : Plan where
  lo := 0
  old v := if Present (kernelEntry v) then some (kernelEntry v) else none
  flags v := PTE_FLAGS (s.entry d v)
  content v := s.mem (s.entry d v / PGSIZE)

/-- The child `d'` has copies of the parent's pages below `v`. -/
abbrev Copied (s₀ : Phys) (d d' v : Nat) : (Nat → Prop) → Phys → Prop :=
  Filled (s₀.copies d) (fun _ => False) s₀ d' v

section

variable {E : Stop → Prop} {s₀ s s' : Phys} {d d' f v : Nat} {H : Nat → Prop}

theorem Space.pages_le (h : Space s d) (hv : v ≤ 2 ^ 19) (hpresent : ∀ w < v, Present (s.entry d w)) :
    v ≤ 0xE000 := by
  have hframe (w : Fin v) : entryFrame (s.entry d w) = some (s.entry d w / 4096) :=
    entryFrame_eq_some.mpr ⟨hpresent w w.isLt, rfl⟩
  have hmanaged (w : Fin v) : s.entry d w / 4096 < 0xE000 :=
    (managed_iff.mp (h.frame w (by omega) _ (hframe w)).1).2
  have hinj : Function.Injective fun w : Fin v => (⟨s.entry d w / 4096, hmanaged w⟩ : Fin 0xE000) := by
    intro w w' heq
    have hsame : s.entry d w / 4096 = s.entry d w' / 4096 := congrArg Fin.val heq
    have hw' := hframe w'
    rw [← hsame] at hw'
    exact Fin.ext (h.once w (by omega) w' (by omega) _ (hframe w) hw')
  simpa using Fintype.card_le_of_injective _ hinj

theorem flags_or {pte : Nat} (hp : Present pte) : PTE_FLAGS pte ||| PTE_P = PTE_FLAGS pte := by
  have hodd : (PTE_FLAGS pte).testBit 0 = true := by
    rw [present_iff] at hp
    rw [Nat.testBit_zero, PTE_FLAGS, decide_eq_true_eq]
    simp only [PGSIZE]
    omega
  apply Nat.eq_of_testBit_eq
  intro i
  rw [Nat.testBit_or]
  cases i with
  | zero => rw [hodd, Bool.true_or]
  | succ i =>
    have hone : PTE_P.testBit (i + 1) = false := by
      rw [Nat.testBit_succ]
      exact Nat.zero_testBit i
    rw [hone, Bool.or_false]

namespace Copied

theorem parent (h : Copied s₀ d d' v H s) (hparent : Parent s₀ d) :
    s.table d = s₀.table d ∧ s.entry d = s₀.entry d := by
  have hmem {g : Nat} (hg : s₀.Uses d g) : s.mem g = s₀.mem g :=
    h.moves.mem g (fun hfree => hparent.unused g hfree hg) id
  exact ⟨Phys.table_congr (hmem (.inl rfl)),
    Phys.entry_congr (hmem (.inl rfl)) fun i t ht => hmem (.inr ⟨i, ht⟩)⟩

theorem init (h : Kernel s d' kernelEntry s') : Copied s d d' 0 (fun _ => False) s' where
  bound := Nat.zero_le _
  space := h.space
  moves := h.moves.congr (fun _ => .rfl) fun _ => by rw [or_false]
  old w _ := by
    rw [Phys.translate, h.entry]
    rfl
  fresh w _ hw := absurd hw (Nat.not_lt_zero w)
  content w hw f hf := by
    rw [h.entry, kernelEntry_of_lt hw] at hf
    cases hf

theorem lt (h : Copied s₀ d d' v H s) : v < 2 ^ 19 := by
  have hle : v ≤ 0xE000 := h.space.pages_le h.bound fun w hw => by
    obtain ⟨f, -, hf⟩ := h.fresh w (Nat.zero_le w) hw
    exact present_of_entryFrame hf
  omega

theorem absent (h : Copied s₀ d d' v H s) {w : Nat} (hle : v ≤ w) (hw : w < 2 ^ 19) :
    ¬Present (s.entry d' w) := by
  rw [← Phys.translate_eq_none, h.old w fun hin => absurd hin.2 (Nat.not_lt.mpr hle)]
  show (if Present (kernelEntry w) then some (kernelEntry w) else none) = none
  rw [kernelEntry_of_lt hw]
  rfl

theorem copy (h : Copied s₀ d d' v H s) (hpresent : ∀ w < v, Present (s₀.entry d w)) {w : Nat} (hw : w < v) :
    ∃ f g, s.entry d' w = f * PGSIZE ||| PTE_FLAGS (s₀.entry d w) ∧ entryFrame (s.entry d' w) = some f ∧
      entryFrame (s₀.entry d w) = some g ∧ s.mem f = s₀.mem g := by
  obtain ⟨f, he, hf⟩ := h.fresh w (Nat.zero_le w) hw
  have hcontent := h.content w (hw.trans h.lt) f hf
  rw [if_pos ⟨Nat.zero_le w, hw⟩] at hcontent
  refine ⟨f, s₀.entry d w / PGSIZE, ?_, hf, entryFrame_eq_some.mpr ⟨hpresent w hw, rfl⟩, hcontent⟩
  rw [he, ← flags_or (hpresent w hw)]
  rfl

theorem wp_bad (h : Copied s₀ d d' v (fun _ => False) s) :
    Run.wp E (freevm d') (fun _ s' => Undone s₀ s') s := by
  refine Run.wp_mono h.space.wp_freevm ?_
  rintro _ s' ⟨hpool, hmoves⟩
  exact ⟨hpool, (h.moves.congr (fun _ => .rfl) fun _ => or_iff_left id).trans hmoves⟩

theorem short (h : Copied s₀ d d' v H s) (hnodup : s₀.free.Nodup) (hlacks : s₀.Lacks s) (hH : ∀ g, H g → g = f) :
    s₀.Short (v + 1026) := by
  refine h.moves.short hnodup hlacks (fun w hw hp => ?_) fun g hg => hg.imp id (hH g)
  by_contra hge
  exact h.absent (Nat.not_lt.mp hge) hw hp

end Copied

theorem Copied.wp_copyuvmLoop (h : Copied s₀ d d' v (fun _ => False) s) (hlater : s₀.Later s)
    (hparent : Parent s₀ d) {sz fuel : Nat}
    (hpresent : ∀ w < npages sz, Present (s₀.entry d w)) (hv : v ≤ npages sz) (hfuel : 2 ^ 19 - v < fuel) :
    Run.wp E (copyuvmLoop d d' sz fuel (v * 4096)) (fun r s' =>
      r = some d' ∧ Copied s₀ d d' (npages sz) (fun _ => False) s' ∨
        r = none ∧ Undone s₀ s' ∧ s₀.Short (npages sz + 1026)) s := by
  induction fuel generalizing v s with
  | zero => omega
  | succ fuel ih =>
    have hlt := Copied.lt h
    rw [copyuvmLoop]
    by_cases hi : v * 4096 < sz
    · have hvn := lt_npages.mp hi
      have hp := hpresent v hvn
      obtain ⟨htable, hentry⟩ := Copied.parent h hparent
      obtain ⟨t, ht⟩ : ∃ t, s.table d (v / 1024) = some t := by
        rw [htable]
        exact Phys.table_of_entryFrame (entryFrame_eq_some.mpr ⟨hp, rfl⟩)
      rw [if_pos hi, Run.wp_bind]
      apply wp_walkpgdir (by omega)
      rw [ht]
      show Run.wp E (readWord t (v % 1024) >>= _) _ s
      rw [Run.wp_bind]
      apply wp_readWord
      rw [← Phys.entry_of_table ht, hentry, if_neg (not_not_intro hp), Run.wp_bind]
      have hg : entryFrame (s₀.entry d v) = some (PTE_ADDR (s₀.entry d v) / PGSIZE) := if_pos hp
      have hcontent : s.mem (PTE_ADDR (s₀.entry d v) / PGSIZE) = (s₀.copies d).content v := by
        rw [h.moves.mem _ (hparent.frame v (by omega) _ hg) id, ← (entryFrame_eq_some.mp hg).2]
        rfl
      generalize PTE_ADDR (s₀.entry d v) / PGSIZE = g at hcontent ⊢
      apply wp_kalloc
      · intro hlacks
        have hshort := Copied.short (f := 0) h hparent.nodup (hlater.lacks hlacks) nofun
        show Run.wp E (freevm d' >>= fun _ => pure none) _ s.tick
        rw [Run.wp_bind]
        refine Run.wp_mono (Copied.wp_bad h.tick) fun _ s' hundone => (Run.wp_pure ..).mpr (.inr ⟨rfl, hundone, ?_⟩)
        exact hshort.mono (by omega)
      · intro f rest hfree
        obtain ⟨h1, hheld⟩ := h.take hfree ((s.take rest).mem g)
        have hframe : f < 2 ^ 20 := hheld.managed.lt.trans (by decide)
        show Run.wp E (modify _ >>= _) _ _
        rw [Run.wp_bind, Run.wp_modify, Run.wp_bind]
        have habsent := Copied.absent h1 le_rfl hlt
        have hlater1 : s₀.Later ((s.take rest).setPage f ((s.take rest).mem g)) := fun k hk => hlater (k + 1) hk
        apply h1.space.toDirectory.wp_mapPage (by omega) hframe habsent
        · intro s' hmaps
          rw [if_neg (by decide), next_page (by omega)]
          have hcopied := h1.map hheld ((Phys.mem_setPage_self _).trans hcontent) (Nat.zero_le v) hlt habsent
            (Nat.mod_lt _ (by decide)) hmaps
          exact ih hcopied (hlater1.trans hmaps.later) hvn (by omega)
        · intro s' hmaps hlacks
          obtain ⟨h2, hheld'⟩ := h1.unmapped (f := f) hmaps
          have hshort := Copied.short h2 hparent.nodup (hlater1.lacks hlacks) fun g hg => hg
          rw [if_pos (by decide), Run.wp_bind]
          apply wp_kfree hheld.managed
          rw [Run.wp_bind]
          refine Run.wp_mono (Copied.wp_bad (h2.give (hheld' hheld))) fun _ s'' hundone => ?_
          exact (Run.wp_pure ..).mpr (.inr ⟨rfl, hundone, hshort.mono (by omega)⟩)
    · rw [if_neg hi, Run.wp_pure]
      rw [lt_npages] at hi
      obtain rfl : v = npages sz := by omega
      exact .inl ⟨rfl, h⟩

theorem Parent.wp_copyuvm (h : Parent s d) {sz : Nat} (hpresent : ∀ w < npages sz, Present (s.entry d w)) :
    Run.wp E (copyuvm d sz) (fun r s' =>
      (∃ d', r = some d' ∧ Copied s d d' (npages sz) (fun _ => False) s') ∨
        r = none ∧ Undone s s' ∧ s.Short (npages sz + 1026)) s := by
  rw [copyuvm, Run.wp_bind]
  refine Run.wp_mono h.toPool.wp_setupkvm ?_
  rintro r s' (⟨d', rfl, hkernel⟩ | ⟨rfl, hundone, hshort⟩)
  · have hfuel : 2 ^ 19 - 0 < NPAGES + 1 := by decide
    refine Run.wp_mono (Copied.wp_copyuvmLoop (.init hkernel) hkernel.later h hpresent (Nat.zero_le _) hfuel) ?_
    exact fun r s'' hr => hr.imp (fun ⟨hr, hc⟩ => ⟨d', hr, hc⟩) id
  · exact (Run.wp_pure ..).mpr (.inr ⟨rfl, hundone, hshort.mono (Nat.le_add_left ..)⟩)

/-- `copyuvm` returns a directory whose user pages are those below `sz`.  They are in pages that were free,
each in its own, with the contents and the flags of the parent's.  Or it returns 0, and the free pages
are those of before; then they were too few, or one was denied.  In both cases the parent is as it was. -/
theorem copyuvm_isolates (h : Parent s d) (sz : Nat)
    (hpresent : ∀ v, v * PGSIZE < sz → Present (s.entry d v)) :
    ∃ r s', copyuvm d sz s = .ok (r, s') ∧
      (∀ f, s.Uses d f ∨ (∃ v < 2 ^ 19, entryFrame (s.entry d v) = some f) → s'.mem f = s.mem f) ∧
      s'.entry d = s.entry d ∧
      ((∃ d', r = some d' ∧
          (∀ v < 2 ^ 19, Present (s'.entry d' v) ↔ v * PGSIZE < sz) ∧
          (∀ v, v * PGSIZE < sz → ∃ f g, entryFrame (s'.entry d' v) = some f ∧
            entryFrame (s.entry d v) = some g ∧ s'.mem f = s.mem g ∧
            PTE_FLAGS (s'.entry d' v) = PTE_FLAGS (s.entry d v) ∧
            ¬s.Uses d f ∧ (∀ w < 2 ^ 19, entryFrame (s.entry d w) ≠ some f) ∧
            ∀ w, w * PGSIZE < sz → entryFrame (s'.entry d' w) = some f → w = v)) ∨
        r = none ∧ s'.free.Nodup ∧ (∀ f, f ∈ s'.free ↔ f ∈ s.free) ∧
          (s.free.length ≤ npages sz + 1026 ∨ ∃ k, s.denied k = true)) := by
  have hpages (w : Nat) (hw : w < npages sz) : Present (s.entry d w) := hpresent w (lt_npages.mpr hw)
  obtain ⟨r, s', hrun, hr⟩ := Run.exists_of_wp (h.wp_copyuvm hpages)
  have hmem : ∀ f, s.Uses d f ∨ (∃ v < 2 ^ 19, entryFrame (s.entry d v) = some f) → s'.mem f = s.mem f := by
    have hunfree {f : Nat} (hf : f ∉ s.free) : s'.mem f = s.mem f := by
      rcases hr with ⟨d', -, hcopied⟩ | ⟨-, hundone, -⟩
      · exact hcopied.moves.mem f hf id
      · exact hundone.moves.mem f hf id
    rintro f (hu | ⟨v, hv, hf⟩)
    · exact hunfree fun hfree => h.unused f hfree hu
    · exact hunfree (h.frame v hv f hf)
  refine ⟨r, s', hrun, hmem, ?_, ?_⟩
  · exact Phys.entry_congr (hmem d (.inl (.inl rfl))) fun i t ht => hmem t (.inl (.inr ⟨i, ht⟩))
  · rcases hr with ⟨d', rfl, hcopied⟩ | ⟨rfl, hundone, hshort⟩
    · have hlt := Copied.lt hcopied
      refine .inl ⟨d', rfl, ?_, ?_⟩
      · intro v hv
        rw [show PGSIZE = 4096 from rfl, lt_npages]
        constructor
        · intro hp
          by_contra hge
          exact Copied.absent hcopied (by omega) hv hp
        · intro hvn
          obtain ⟨f, -, hf⟩ := hcopied.fresh v (Nat.zero_le v) hvn
          exact present_of_entryFrame hf
      · intro v hv
        have hvn := lt_npages.mp hv
        obtain ⟨f, g, he, hf, hg, hcopy⟩ := Copied.copy hcopied hpages hvn
        -- The child's page was free, and so not the parent's.
        have hwas : f ∈ s.free := by
          have hown : s'.Owns d' f := .inr ⟨v, by omega, hf⟩
          exact ((hcopied.moves.conserve f).mp (.inr (.inl hown))).resolve_right id
        have hflags : PTE_FLAGS (s.entry d v) < 4096 := Nat.mod_lt _ (by decide)
        refine ⟨f, g, hf, hg, hcopy, ?_, h.unused f hwas, fun w hw hfw => h.frame w hw f hfw hwas, ?_⟩
        · rw [he]
          generalize PTE_FLAGS (s.entry d v) = flags at hflags ⊢
          rw [frame_or f hflags, PTE_FLAGS]
          simp only [PGSIZE]
          omega
        · intro w hw hfw
          have hwn := lt_npages.mp hw
          exact hcopied.space.once w (by omega) v (by omega) f hfw hf
    · refine .inr ⟨rfl, hundone.pool.nodup, fun f => ?_, hshort⟩
      have hconserve := hundone.moves.conserve f
      rwa [or_false, or_false] at hconserve

/-- A process of one page, and memory for a child -/
def roomy : Phys := { firstPage with free := List.range' 0x400 1100 }

theorem mem_roomy {f : Nat} (hf : f ∈ roomy.free) : 0x400 ≤ f ∧ f < 0x84c := List.mem_range'_1.mp hf

theorem roomy_entry : roomy.entry 0x200 = firstPage.entry 0x200 := Phys.entry_congr rfl fun _ _ _ => rfl

theorem roomy_parent : Parent roomy 0x200 where
  nodup := List.nodup_range'
  managed f hf := by
    obtain ⟨hge, hlt⟩ := mem_roomy hf
    exact managed_iff.mpr ⟨by omega, by omega⟩
  unused f hf hu := by
    have hle := (mem_roomy hf).1
    rcases oneEntry_uses (k := 0) (e := 0x300007) hu with rfl | rfl <;> exact absurd hle (by decide)
  frame v _ f hfr hf := by
    rw [roomy_entry] at hfr
    obtain ⟨-, rfl⟩ := firstPage_frame hfr
    exact absurd (mem_roomy hf).1 (by decide)

theorem roomy_present {v : Nat} (hv : v * PGSIZE < 0x1000) : Present (roomy.entry 0x200 v) := by
  rw [roomy_entry, firstPage_sized v (by simp only [PGSIZE] at hv; omega), ← lt_npages]
  exact hv

theorem roomy_room : ¬roomy.Short (npages 0x1000 + 1026) := by
  rintro (hlen | ⟨k, hk⟩)
  · rw [show roomy.free.length = 1100 from List.length_range'] at hlen
    exact absurd hlen (by decide)
  · exact nomatch hk

/-- The child has a page of its own, with what the parent's has. -/
theorem copyuvm_isolates_roomy :
    ∃ d' f s', copyuvm 0x200 0x1000 roomy = .ok (some d', s') ∧ entryFrame (s'.entry d' 0) = some f ∧ f ≠ 0x300 ∧
      s'.mem f = page 0 ∧ PTE_FLAGS (s'.entry d' 0) = 7 ∧ s'.entry 0x200 0 = 0x300007 := by
  obtain ⟨r, s', hrun, -, hentry, hr⟩ := copyuvm_isolates roomy_parent 0x1000 fun v => roomy_present
  have hroot : roomy.entry 0x200 0 = 0x300007 := by rw [roomy_entry, firstPage_entry, if_pos rfl]
  have hpage : entryFrame (roomy.entry 0x200 0) = some 0x300 := by
    rw [hroot]
    decide
  rcases hr with ⟨d', rfl, -, hpages⟩ | ⟨-, -, -, hshort⟩
  · obtain ⟨f, g, hf, hg, hmem, hflags, -, hnot, -⟩ := hpages 0 (by decide)
    obtain rfl := Option.some.inj (hpage.symm.trans hg)
    refine ⟨d', f, s', hrun, hf, ?_, hmem, ?_, ?_⟩
    · rintro rfl
      exact hnot 0 (by decide) hpage
    · rw [hflags, hroot]
      decide
    · rw [hentry, hroot]
  · exact absurd hshort roomy_room

/-- The memory of a child from `fork` to `wait`, if it does not ask for more -/
def copyThenFree (d sz : Nat) : VmM Unit := do
  match ← copyuvm d sz with
  | some d' => freevm d'
  | none => return ()

/-- What `fork` has taken for the child's memory, `wait` gives back: then the free pages are those of
before, each once, and no page that was in use has changed. -/
theorem copyuvm_freevm (h : Parent s d) (sz : Nat) (hpresent : ∀ v, v * PGSIZE < sz → Present (s.entry d v)) :
    ∃ s', copyThenFree d sz s = .ok ((), s') ∧ s'.free.Nodup ∧ (∀ f, f ∈ s'.free ↔ f ∈ s.free) ∧
      ∀ f, f ∉ s.free → s'.mem f = s.mem f := by
  have hpages (w : Nat) (hw : w < npages sz) : Present (s.entry d w) := hpresent w (lt_npages.mpr hw)
  have hwp : Run.wp (fun _ => False) (copyThenFree d sz) (fun _ s' => Undone s s') s := by
    rw [copyThenFree, Run.wp_bind]
    refine Run.wp_mono (h.wp_copyuvm hpages) ?_
    rintro r s' (⟨d', rfl, hcopied⟩ | ⟨rfl, hundone, -⟩)
    · exact Copied.wp_bad hcopied
    · exact (Run.wp_pure ..).mpr hundone
  obtain ⟨_, s', hrun, hundone⟩ := Run.exists_of_wp hwp
  refine ⟨s', hrun, hundone.pool.nodup, fun f => ?_, fun f hf => hundone.moves.mem f hf id⟩
  simpa using hundone.moves.conserve f

/-- The page of a child is copied and freed. -/
theorem copyuvm_freevm_roomy :
    (∃ d' s', copyuvm 0x200 0x1000 roomy = .ok (some d', s') ∧ Present (s'.entry d' 0)) ∧
      ∃ s', copyThenFree 0x200 0x1000 roomy = .ok ((), s') ∧ s'.free.Nodup ∧ (∀ f, f ∈ s'.free ↔ f ∈ roomy.free) ∧
        s'.mem 0x300 = page 0 := by
  obtain ⟨r, s', hrun, hr⟩ := Run.exists_of_wp (roomy_parent.wp_copyuvm fun w hw => roomy_present (lt_npages.mpr hw))
  refine ⟨?_, ?_⟩
  · rcases hr with ⟨d', rfl, hcopied⟩ | ⟨-, -, hshort⟩
    · obtain ⟨f, -, hf⟩ := hcopied.fresh 0 le_rfl (by decide)
      exact ⟨d', s', hrun, present_of_entryFrame hf⟩
    · exact absurd hshort roomy_room
  · obtain ⟨s', hrun, hnodup, hfree, hmem⟩ := copyuvm_freevm roomy_parent 0x1000 fun v => roomy_present
    exact ⟨s', hrun, hnodup, hfree, hmem 0x300 fun hf => absurd (mem_roomy hf).1 (by decide)⟩

end

end Vm

end Xv6
