import Xv6.Vm.Alloc

/-!
# `sbrk`

`growproc` adds a signed number to an unsigned size, and takes the result 0 of `allocuvm` and `deallocuvm`
for a failure.
-/

namespace Xv6

open Run (wp_bind wp_mono wp_pure)

namespace Vm

/-- What the system calls on memory use of `struct proc` -/
structure Proc where
  pgdir : Nat
  sz : Nat
  deriving DecidableEq

/-- A `uint` plus an `int` -/
def addInt (sz : Nat) (n : Int) : Nat := ((sz + n) % 2 ^ 32).toNat

def growproc (p : Proc) (n : Int) : VmM (Int × Proc) := do
  if n > 0 then
    let sz ← allocuvm p.pgdir p.sz (addInt p.sz n)
    if sz = 0 then return (-1, p) else return (0, { p with sz := sz })
  else if n < 0 then
    let sz ← deallocuvm p.pgdir p.sz (addInt p.sz n)
    if sz = 0 then return (-1, p) else return (0, { p with sz := sz })
  else return (0, p)

def sysSbrk (p : Proc) (n : Int) : VmM (Int × Proc) := do
  let addr := p.sz
  let (r, p) ← growproc p n
  if r < 0 then return (-1, p) else return (addr, p)

/-- The pages below `m` are mapped as before, and have the same contents. -/
def Kept (s s' : Phys) (d m : Nat) : Prop := ∀ v < m,
  s'.translate d v = s.translate d v ∧ ∀ f, entryFrame (s.entry d v) = some f → s'.mem f = s.mem f

section

variable {E : Stop → Prop} {s s' : Phys} {d m : Nat} {oldsz newsz : Nat}

theorem addInt_eq {sz : Nat} {n : Int} (h0 : 0 ≤ sz + n) (h : sz + n < 2 ^ 32) : (addInt sz n : Int) = sz + n := by
  rw [addInt, Int.toNat_of_nonneg (Int.emod_nonneg _ (by decide)), Int.emod_eq_of_lt h0 h]

theorem Kept.sized (h : Kept s s' d (2 ^ 19)) {sz : Nat} (hsized : Sized s d sz) : Sized s' d sz := by
  intro v hv
  rw [← hsized v hv, ← not_iff_not, ← Phys.translate_eq_none, ← Phys.translate_eq_none, (h v hv).1]

theorem Filled.kept {lo hi : Nat} (h : Grown s d lo hi (fun _ => False) s') (hm : m ≤ 2 ^ 19)
    (hout : ∀ v < m, ¬(lo ≤ v ∧ v < hi)) : Kept s s' d m := by
  intro v hv
  have htranslate : s'.translate d v = s.translate d v := h.old v (hout v hv)
  refine ⟨htranslate, fun f hf => ?_⟩
  rw [Phys.entryFrame_entry, ← htranslate, ← Phys.entryFrame_entry] at hf
  exact (h.content v (Nat.lt_of_lt_of_le hv hm) f hf).trans (if_neg (hout v hv))

theorem Filled.sized (h : Grown s d (npages oldsz) (npages newsz) (fun _ => False) s')
    (hsized : Sized s d oldsz) (hle : oldsz ≤ newsz) : Sized s' d newsz := by
  have hpages := npages_mono hle
  intro v hv
  by_cases hin : npages oldsz ≤ v ∧ v < npages newsz
  · obtain ⟨f, -, hf⟩ := h.fresh v hin.1 hin.2
    exact ⟨fun _ => hin.2, fun _ => present_of_entryFrame hf⟩
  · have htranslate : s'.translate d v = s.translate d v := h.old v hin
    rw [← not_iff_not, ← Phys.translate_eq_none, htranslate, Phys.translate_eq_none, hsized v hv]
    omega

theorem Filled.owns {lo hi : Nat} (h : Grown s d lo hi (fun _ => False) s') :
    Moves (s.Owns d) (s'.Owns d) s s' := h.moves.congr (fun _ => .rfl) fun _ => or_iff_left id

theorem Dropped.sized (h : Dropped s d (pagesBetween newsz oldsz) s') (hlt : newsz < oldsz)
    (hsized : Sized s d oldsz) : Sized s' d newsz := by
  have hpages := npages_mono hlt.le
  intro v hv
  rw [h.entry]
  simp only [mem_pagesBetween hlt, hsized v hv]
  split_ifs with hin
  · exact ⟨fun hp => absurd hp (by decide), fun hlt => absurd hlt (by omega)⟩
  · rw [hsized v hv]
    omega

theorem Dropped.kept (hspace : Space s d) (h : Dropped s d (pagesBetween newsz oldsz) s')
    (hlt : newsz < oldsz) (hle : oldsz ≤ KERNBASE) : Kept s s' d (npages newsz) := by
  have hpages := npages_mono hlt.le
  have hbound := npages_le hle
  intro v hv
  have hout : v ∉ pagesBetween newsz oldsz := by
    rw [mem_pagesBetween hlt]
    omega
  have hentry : s'.entry d v = s.entry d v := (h.entry v).trans (if_neg fun hin => hout hin.1)
  refine ⟨?_, fun f hf => ?_⟩
  · rw [Phys.translate, Phys.translate, hentry]
  · refine h.mem f (hspace.frame v (by omega) f hf).2.1 fun hmem => ?_
    obtain ⟨w, hw, hwf⟩ := Space.mem_frames.mp hmem
    have hwlt := ((mem_pagesBetween hlt).mp hw).2
    rw [hspace.once v (by omega) w (by omega) f hf hwf] at hout
    exact hout hw

/-- What a system call may do to the memory of a process: pages go between the address space and the free
list, and the user pages are those below the size. -/
structure Step (p p' : Proc) (s s' : Phys) : Prop where
  pgdir : p'.pgdir = p.pgdir
  space : Space s' p.pgdir
  moves : Moves (s.Owns p.pgdir) (s'.Owns p.pgdir) s s'
  sized : Sized s' p.pgdir p'.sz
  bound : p'.sz < KERNBASE

theorem Space.wp_shrink (h : Space s d) (hsized : Sized s d oldsz) (hsz : oldsz < KERNBASE)
    (hlt : newsz < oldsz) : Run.wp E (deallocuvm d oldsz newsz) (fun r s' => r = newsz ∧ Space s' d ∧
      Moves (s.Owns d) (s'.Owns d) s s' ∧ Sized s' d newsz ∧ Kept s s' d (npages newsz)) s := by
  refine wp_mono (h.freeable.wp_deallocuvm hlt hsz.le) ?_
  rintro r _ ⟨hr, rfl⟩
  have hpages (v : Nat) (hv : v ∈ pagesBetween newsz oldsz) : v < 2 ^ 19 :=
    Nat.lt_of_lt_of_le ((mem_pagesBetween hlt).mp hv).2 (npages_le hsz.le)
  have hdropped := h.freeable.foldl_dropPage hpages List.nodup_range'
  obtain ⟨hspace, hmoves⟩ := h.of_dropped hpages List.nodup_range' hdropped
  exact ⟨hr, hspace, hmoves, hdropped.sized hlt hsized, hdropped.kept h hlt hsz.le⟩

variable {p : Proc} {n : Int}

theorem wp_growproc (h : Space s p.pgdir) (hsized : Sized s p.pgdir p.sz) (hsz : p.sz < KERNBASE)
    (hn : -2 ^ 31 ≤ n ∧ n < 2 ^ 31) (hwhen : 0 ≤ n ∨ 0 < p.sz + n ∨ p.sz = 0) :
    Run.wp E (growproc p n) (fun r s' => Step p r.2 s s' ∧
      (r.1 = 0 ∧ r.2.sz = p.sz + n ∧ Kept s s' p.pgdir (npages (min p.sz r.2.sz)) ∨
        r = (-1, p) ∧ Kept s s' p.pgdir (2 ^ 19))) s := by
  have hsame : Step p p s s := ⟨rfl, h, .refl _ s, hsized, hsz⟩
  have hkept (m : Nat) : Kept s s p.pgdir m := fun _ _ => ⟨rfl, fun _ _ => rfl⟩
  have hbound : (p.sz : Int) < 2 ^ 31 := by
    simp only [KERNBASE] at hsz
    omega
  rw [growproc]
  split_ifs with hpos hneg
  · have hadd : (addInt p.sz n : Int) = p.sz + n := addInt_eq (by omega) (by omega)
    rw [wp_bind]
    by_cases hnew : addInt p.sz n < KERNBASE
    · have hle : p.sz ≤ addInt p.sz n := by omega
      have habsent (w : Nat) (hlo : npages p.sz ≤ w) (hhi : w < npages (addInt p.sz n)) :
          ¬Present (s.entry p.pgdir w) := by
        have hpages := npages_le hnew.le
        rw [hsized w (by omega)]
        omega
      refine wp_mono (h.wp_allocuvm hle hnew habsent) ?_
      rintro r s' (⟨rfl, hgrown⟩ | ⟨rfl, hrestored⟩)
      · rw [if_neg (by omega), wp_pure]
        have hstep : Step p { p with sz := addInt p.sz n } s s' :=
          ⟨rfl, hgrown.space, hgrown.owns, hgrown.sized hsized hle, hnew⟩
        refine ⟨hstep, .inl ⟨rfl, hadd, ?_⟩⟩
        rw [Nat.min_eq_left hle]
        exact hgrown.kept ((npages_mono hle).trans hgrown.bound) fun v hv hin => absurd hv (Nat.not_lt.mpr hin.1)
      · rw [if_pos rfl, wp_pure]
        have hkept := hrestored.kept le_rfl fun v _ hin => absurd hin.2 (Nat.not_lt.mpr hin.1)
        exact ⟨⟨rfl, hrestored.space, hrestored.owns, hkept.sized hsized, hsz⟩, .inr ⟨rfl, hkept⟩⟩
    · rw [allocuvm, if_pos (Nat.le_of_not_lt hnew), wp_pure, if_pos rfl, wp_pure]
      exact ⟨hsame, .inr ⟨rfl, hkept _⟩⟩
  · rw [wp_bind]
    by_cases hzero : p.sz = 0
    · -- The sum wraps round, and there is nothing to free.
      rw [deallocuvm, if_pos (by omega), wp_pure, if_pos hzero, wp_pure]
      exact ⟨hsame, .inr ⟨rfl, hkept _⟩⟩
    · have hadd : (addInt p.sz n : Int) = p.sz + n := addInt_eq (by omega) (by omega)
      have hlt : addInt p.sz n < p.sz := by omega
      refine wp_mono (h.wp_shrink hsized hsz hlt) ?_
      rintro _ s' ⟨rfl, hspace, hmoves, hsized', hkept'⟩
      rw [if_neg (by omega), wp_pure]
      refine ⟨⟨rfl, hspace, hmoves, hsized', hlt.trans hsz⟩, .inl ⟨rfl, hadd, ?_⟩⟩
      rw [Nat.min_eq_right hlt.le]
      exact hkept'
  · rw [wp_pure]
    refine ⟨hsame, .inl ⟨rfl, ?_, hkept _⟩⟩
    show (p.sz : Int) = p.sz + n
    omega

/-- `sbrk` returns the old size, the new one is the sum, and the pages below both are as they were; or it
returns -1, and the address space is as it was. -/
def Exact (p : Proc) (n : Int) (s : Phys) (r : Int) (p' : Proc) (s' : Phys) : Prop :=
  p'.pgdir = p.pgdir ∧
    (r = p.sz ∧ p'.sz = p.sz + n ∧ p'.sz < KERNBASE ∧ Kept s s' p.pgdir (npages (min p.sz p'.sz)) ∨
      r = -1 ∧ p'.sz = p.sz ∧ Kept s s' p.pgdir (2 ^ 19))

/-- To give back all of its memory or more: the result 0 of `deallocuvm` is taken for a failure, or the sum
wraps round and nothing is given back. -/
theorem wp_sysSbrk_all (h : Space s p.pgdir) (hsized : Sized s p.pgdir p.sz) (hsz : p.sz < KERNBASE)
    (hn : -2 ^ 31 ≤ n) (hneg : n < 0) (hall : p.sz + n ≤ 0) (hpos : 0 < p.sz) :
    Run.wp E (sysSbrk p n) (fun r s' => ¬Exact p n s r.1 r.2 s') s := by
  rw [sysSbrk, growproc, if_neg (by omega), if_pos hneg, wp_bind, wp_bind]
  rcases Int.lt_or_eq_of_le hall with hwrap | hzero
  · have hge : p.sz ≤ addInt p.sz n := by
      simp only [KERNBASE] at hsz
      rw [addInt]
      omega
    rw [deallocuvm, if_pos hge, wp_pure, if_neg (by omega), wp_pure]
    refine (wp_pure ..).mpr ?_
    rintro ⟨-, ⟨-, hsum, -⟩ | ⟨hr, -⟩⟩ <;> dsimp only at * <;> omega
  · have hadd : addInt p.sz n = 0 := by rw [addInt, hzero]; rfl
    rw [hadd]
    refine wp_mono (h.wp_shrink hsized hsz hpos) ?_
    rintro _ s' ⟨rfl, -, -, hsized', -⟩
    rw [if_pos rfl, wp_pure]
    refine (wp_pure ..).mpr ?_
    rintro ⟨-, ⟨hr, -⟩ | ⟨-, -, hkept⟩⟩
    · dsimp only at hr
      omega
    · have hpage : 0 < npages p.sz := lt_npages.mp (by simpa using hpos)
      have hgone := (Phys.translate_eq_none ..).mpr (mt (hsized' 0 (by decide)).mp (by decide))
      rw [(hkept 0 (by decide)).1, Phys.translate_eq_none] at hgone
      exact hgone ((hsized 0 (by decide)).mpr hpage)

/-- A process gets what it asks for exactly if that is not to give back all of its memory or more. -/
theorem sbrk_exact (h : Space s p.pgdir) (hsized : Sized s p.pgdir p.sz) (hsz : p.sz < KERNBASE)
    (hn : -2 ^ 31 ≤ n ∧ n < 2 ^ 31) :
    (∃ r p' s', sysSbrk p n s = .ok ((r, p'), s') ∧ Exact p n s r p' s') ↔
      0 ≤ n ∨ 0 < p.sz + n ∨ p.sz = 0 := by
  refine ⟨fun ⟨r, p', s', hrun, hexact⟩ => ?_, fun hwhen => ?_⟩
  · by_contra hnot
    obtain ⟨_, _, hrun', hwrong⟩ := Run.exists_of_wp (wp_sysSbrk_all h hsized hsz hn.1
      (by omega) (by omega) (by omega))
    rw [hrun] at hrun'
    cases hrun'
    exact hwrong hexact
  · have hwp : Run.wp (fun _ => False) (sysSbrk p n) (fun r s' => Exact p n s r.1 r.2 s') s := by
      rw [sysSbrk, wp_bind]
      refine wp_mono (wp_growproc h hsized hsz hn hwhen) ?_
      rintro ⟨r, p'⟩ s' ⟨hstep, ⟨rfl, hsum, hkept⟩ | ⟨hr, hkept⟩⟩
      · exact (wp_pure ..).mpr ⟨hstep.pgdir, .inl ⟨rfl, hsum, hstep.bound, hkept⟩⟩
      · obtain ⟨rfl, rfl⟩ := Prod.mk.inj hr
        exact (wp_pure ..).mpr ⟨hstep.pgdir, .inr ⟨rfl, rfl, hkept⟩⟩
    obtain ⟨⟨r, p'⟩, s', hrun, hr⟩ := Run.exists_of_wp hwp
    exact ⟨r, p', s', hrun, hr⟩

/-- An address space of one page -/
def firstPage : Phys := oneEntry 0 0x300007

theorem firstPage_entry (v : Nat) : firstPage.entry 0x200 v = if v = 0 then 0x300007 else 0 :=
  oneEntry_entry (by decide) 0x300007 v

theorem firstPage_frame {v f : Nat} (h : entryFrame (firstPage.entry 0x200 v) = some f) : v = 0 ∧ f = 0x300 := by
  rw [firstPage_entry] at h
  split_ifs at h with h0
  · exact ⟨h0, (Option.some.inj h).symm⟩
  · cases h

theorem firstPage_space : Space firstPage 0x200 where
  toDirectory := oneEntry_directory (by decide) 0x300007
  used f hf := by
    rcases oneEntry_uses hf with rfl | rfl <;> decide
  frame v _ f hf := by
    obtain ⟨-, rfl⟩ := firstPage_frame hf
    refine ⟨by decide, fun hu => ?_, by decide⟩
    rcases oneEntry_uses hu with h | h <;> exact absurd h (by decide)
  once v _ w _ f hv hw := by
    rw [(firstPage_frame hv).1, (firstPage_frame hw).1]

theorem firstPage_sized : Sized firstPage 0x200 0x1000 := by
  intro v _
  rw [firstPage_entry, show npages 0x1000 = 1 by decide]
  split_ifs with h0
  · exact ⟨fun _ => by omega, fun _ => by decide⟩
  · exact ⟨fun hp => absurd hp (by decide), fun hlt => absurd hlt (by omega)⟩

/-- Half of the only page is given back. -/
theorem sbrk_exact_half :
    ∃ r p' s', sysSbrk ⟨0x200, 0x1000⟩ (-0x800) firstPage = .ok ((r, p'), s') ∧
      (r = 0x1000 ∧ p'.sz = 0x800 ∨ r = -1 ∧ p'.sz = 0x1000) := by
  obtain ⟨r, p', s', hrun, -, hr⟩ := (sbrk_exact (p := ⟨0x200, 0x1000⟩) (n := -0x800) firstPage_space
    firstPage_sized (by decide) (by decide)).mpr (by decide)
  refine ⟨r, p', s', hrun, ?_⟩
  rcases hr with ⟨hr, hsum, -⟩ | ⟨hr, hsz, -⟩
  · have hsum : (p'.sz : Int) = 0x1000 + -0x800 := hsum
    exact .inl ⟨hr, by omega⟩
  · exact .inr ⟨hr, hsz⟩

/-- Given back all of its memory, a process is told -1 and has lost its pages; given back more, it is told
the old size and has kept them. -/
theorem sbrk_minus_size : Space firstPage 0x200 ∧ Sized firstPage 0x200 0x1000 ∧
      (∃ r s', sysSbrk ⟨0x200, 0x1000⟩ (-0x1000) firstPage = .ok (r, s') ∧ r = (-1, ⟨0x200, 0x1000⟩) ∧
        firstPage.translate 0x200 0 = some 0x300007 ∧ s'.translate 0x200 0 = none) ∧
      ∃ r s', sysSbrk ⟨0x200, 0x1000⟩ (-0x2000) firstPage = .ok (r, s') ∧ r = (0x1000, ⟨0x200, 0x1000⟩) := by
  refine ⟨firstPage_space, firstPage_sized, ?_, ?_⟩
  · obtain ⟨r, s', hrun, htest⟩ := Run.exists_of_returns
      (m := sysSbrk ⟨0x200, 0x1000⟩ (-0x1000)) (s := firstPage)
      (p := fun r s' => decide (r = (-1, ⟨0x200, 0x1000⟩) ∧
        firstPage.translate 0x200 0 = some 0x300007 ∧ s'.translate 0x200 0 = none)) (by decide +kernel)
    exact ⟨r, s', hrun, of_decide_eq_true htest⟩
  · obtain ⟨r, s', hrun, htest⟩ := Run.exists_of_returns
      (m := sysSbrk ⟨0x200, 0x1000⟩ (-0x2000)) (s := firstPage)
      (p := fun r _ => decide (r = (0x1000, ⟨0x200, 0x1000⟩))) (by decide +kernel)
    exact ⟨r, s', hrun, of_decide_eq_true htest⟩

end

end Vm

end Xv6
