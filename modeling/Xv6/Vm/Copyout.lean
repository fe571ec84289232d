import Xv6.Vm.Sbrk

/-!
# `copyout`

The bytes of a buffer go to user memory page by page.  `uva2ka` reads the entry that `walkpgdir` finds
without asking whether there is one.
-/

namespace Xv6

namespace Vm

/-- The frame of a page that the user may access -/
def Phys.user (s : Phys) (d v : Nat) : Option Nat :=
  if Present (s.entry d v) ∧ s.entry d v &&& PTE_U ≠ 0 then some (PTE_ADDR (s.entry d v) / PGSIZE) else none

/-- User pages are in different frames of memory, and these are not pages of the directory. -/
structure Apart (s : Phys) (d : Nat) : Prop where
  ram : ∀ v < 2 ^ 20, ∀ f, s.user d v = some f → f * PGSIZE < PHYSTOP
  unused : ∀ v < 2 ^ 20, ∀ f, s.user d v = some f → ¬s.Uses d f
  once : ∀ v < 2 ^ 20, ∀ w < 2 ^ 20, ∀ f, s.user d v = some f → s.user d w = some f → v = w

/-- The bytes of `l` have been written to user memory from `va` on, and nothing else has changed. -/
structure Wrote (s : Phys) (d va : Nat) (l : List UInt8) (s' : Phys) : Prop where
  free : s'.free = s.free
  denied : s'.denied = s.denied
  table : s'.table d = s.table d
  entry : s'.entry d = s.entry d
  inside : ∀ v < 2 ^ 20, ∀ f, s.user d v = some f → ∀ i < PGSIZE, (s'.mem f).get i =
    if va ≤ v * PGSIZE + i ∧ v * PGSIZE + i < va + l.length then l.getD (v * PGSIZE + i - va) 0
    else (s.mem f).get i
  outside : ∀ f, (∀ v < 2 ^ 20, s.user d v ≠ some f) → s'.mem f = s.mem f

/-- Each page that the range meets is present and the user's. -/
def Phys.Accessible (s : Phys) (d va len : Nat) : Prop :=
  ∀ a, va ≤ a → a < va + len → ∃ f, s.user d (a / PGSIZE) = some f

/-- Each page that `copyout` comes to has a page table: it does not go on behind one that is not the user's. -/
def Phys.Tables (s : Phys) (d va len : Nat) : Prop :=
  ∀ a, va ≤ a → a < va + len → s.Accessible d va (a / PGSIZE * PGSIZE - va) →
    ∃ t, s.table d (a / PGSIZE / 1024) = some t

section

variable {E : Stop → Prop} {s s' s'' : Phys} {d f v va : Nat} {l l' : List UInt8}

namespace Wrote

theorem user (h : Wrote s d va l s') : s'.user d = s.user d := by
  funext v
  rw [Phys.user, Phys.user, h.entry]

theorem nil (s : Phys) (d va : Nat) : Wrote s d va [] s :=
  ⟨rfl, rfl, rfl, rfl, fun v _ f _ i _ => (if_neg (by simp only [List.length_nil]; omega)).symm, fun _ _ => rfl⟩

theorem append (h : Wrote s d va l s') (h' : Wrote s' d (va + l.length) l' s'') :
    Wrote s d va (l ++ l') s'' where
  free := h'.free.trans h.free
  denied := h'.denied.trans h.denied
  table := h'.table.trans h.table
  entry := h'.entry.trans h.entry
  inside v hv f hf i hi := by
    have hsecond := h'.inside v hv f (by rw [h.user]; exact hf) i hi
    rw [h.inside v hv f hf i hi] at hsecond
    rw [hsecond, List.length_append]
    by_cases hleft : v * PGSIZE + i < va + l.length
    · rw [if_neg (by omega)]
      by_cases hin : va ≤ v * PGSIZE + i
      · rw [if_pos ⟨hin, hleft⟩, if_pos (by omega), List.getD_append _ _ _ _ (by omega)]
      · rw [if_neg (by omega), if_neg (by omega)]
    · by_cases hin : v * PGSIZE + i < va + l.length + l'.length
      · rw [if_pos ⟨by omega, hin⟩, if_pos (by omega), List.getD_append_right _ _ _ _ (by omega)]
        congr 1
        omega
      · rw [if_neg (by omega), if_neg (by omega), if_neg (by omega)]
  outside f hf := by
    rw [h'.outside f (by rw [h.user]; exact hf), h.outside f hf]

theorem page (h : Apart s d) (hv : v < 2 ^ 20) (hf : s.user d v = some f) (l : List UInt8) (off : Nat)
    (hoff : off + l.length ≤ PGSIZE) :
    Wrote s d (v * PGSIZE + off) l (s.setPage f ((s.mem f).fill off l)) := by
  obtain ⟨htable, hentry⟩ := s.entry_setPage (h.unused v hv f hf) ((s.mem f).fill off l)
  refine ⟨rfl, rfl, htable, hentry, ?_, ?_⟩
  · intro w hw g hg i hi
    by_cases heq : g = f
    · subst heq
      obtain rfl := h.once v hv w hw g hf hg
      rw [Phys.mem_setPage_self]
      by_cases hin : off ≤ i ∧ i < off + l.length
      · obtain ⟨k, rfl⟩ := Nat.exists_eq_add_of_le hin.1
        rw [if_pos (by omega), Bytes.get_fill_in _ (by omega) hi,
          show v * PGSIZE + (off + k) - (v * PGSIZE + off) = k by omega, List.getD_eq_getElem]
      · rw [if_neg (by omega), Bytes.get_fill_out _ (by omega)]
    · rw [Phys.mem_setPage_ne heq]
      refine (if_neg fun hin => heq ?_).symm
      have hwv : w = v := by
        simp only [PGSIZE] at hin hi hoff
        omega
      rw [hwv, hf] at hg
      exact (Option.some.inj hg).symm
  · intro g hg
    apply Phys.mem_setPage_ne
    rintro rfl
    exact hg v hv hf

end Wrote

theorem Apart.wrote (h : Apart s d) (hw : Wrote s d va l s') : Apart s' d := by
  have huses : s'.Uses d = s.Uses d := by
    funext g
    simp only [Phys.Uses, hw.table]
  refine ⟨?_, ?_, ?_⟩
  · rw [hw.user]
    exact h.ram
  · rw [hw.user, huses]
    exact h.unused
  · rw [hw.user]
    exact h.once

/-- With a page table, `uva2ka` answers with the user's frame. -/
theorem Apart.wp_uva2ka (h : Apart s d) (hv : v < 2 ^ 20) {t : Nat} (ht : s.table d (v / 1024) = some t)
    {Q : Option Nat → Phys → Prop} (hQ : Q (s.user d v) s) : Run.wp E (uva2ka d (v * 4096)) Q s := by
  rw [uva2ka, Run.wp_bind]
  apply wp_walkpgdir hv
  rw [ht]
  show Run.wp E (readWord t (v % 1024) >>= _) Q s
  rw [Run.wp_bind]
  apply wp_readWord
  rw [← Phys.entry_of_table ht]
  by_cases hp : Present (s.entry d v)
  · by_cases hu : s.entry d v &&& PTE_U = 0
    · rw [if_neg (not_not_intro hp), if_pos hu, Run.wp_pure]
      rwa [Phys.user, if_neg fun hboth => hboth.2 hu] at hQ
    · have huser : s.user d v = some (PTE_ADDR (s.entry d v) / PGSIZE) := if_pos ⟨hp, hu⟩
      have hram : PTE_ADDR (s.entry d v) ≠ KERNBASE := by
        intro heq
        have hlt := h.ram v hv _ huser
        rw [heq] at hlt
        exact absurd hlt (by decide)
      rw [if_neg (not_not_intro hp), if_neg hu, if_neg hram, Run.wp_pure]
      rwa [huser] at hQ
  · rw [if_pos hp, Run.wp_pure]
    rwa [Phys.user, if_neg fun hboth => hp hboth.1] at hQ

theorem wp_memmove {off : Nat} {Q : Unit → Phys → Prop} (hQ : Q () (s.setPage f ((s.mem f).fill off l))) :
    Run.wp E (memmove f off l) Q s := by
  rw [memmove, Run.wp_modify]
  exact hQ

theorem Phys.accessible_of_page (hf : s.user d (va / 4096) = some f) {len : Nat}
    (hlen : len ≤ PGSIZE - (va - va / 4096 * 4096)) : s.Accessible d va len := by
  intro a hle hlt
  have hpage : a / PGSIZE = va / 4096 := by
    simp only [PGSIZE] at hlen ⊢
    omega
  exact ⟨f, by rw [hpage, hf]⟩

theorem Phys.accessible_next (hf : s.user d (va / 4096) = some f) {n len : Nat}
    (hn : n = PGSIZE - (va - va / 4096 * 4096)) (hlen : n ≤ len) :
    s.Accessible d va len ↔ s.Accessible d (va + n) (len - n) := by
  constructor
  · exact fun hall a hle hlt => hall a (by omega) (by omega)
  · intro hrest a hle hlt
    by_cases ha : a < va + n
    · exact accessible_of_page hf hn.le a hle ha
    · exact hrest a (by omega) (by omega)

section

variable {t n len : Nat} (ht : s.table d (va / 4096 / 1024) = some t)
include ht

theorem Phys.tables_of_page (hrest : ∀ a, va / 4096 < a / 4096 → a < va + len →
    ¬s.Accessible d va (a / PGSIZE * PGSIZE - va)) : s.Tables d va len := by
  intro a hle hlt hacc
  rcases Nat.lt_or_eq_of_le (Nat.div_le_div_right (c := 4096) hle) with hpage | hpage
  · exact absurd hacc (hrest a hpage hlt)
  · exact ⟨t, by rw [show a / PGSIZE = va / 4096 from hpage.symm, ht]⟩

theorem Phys.tables_next (hf : s.user d (va / 4096) = some f) (hn : n = PGSIZE - (va - va / 4096 * 4096))
    (hlen : n ≤ len) : s.Tables d va len ↔ s.Tables d (va + n) (len - n) := by
  have hstart (a : Nat) (hle : va + n ≤ a) : va + n ≤ a / PGSIZE * PGSIZE := by
    simp only [PGSIZE] at hn ⊢
    omega
  constructor
  · intro hall a hle hlt hacc
    have hpage := hstart a hle
    refine hall a (by omega) (by omega) ((accessible_next hf hn (by omega)).mpr ?_)
    rwa [show a / PGSIZE * PGSIZE - va - n = a / PGSIZE * PGSIZE - (va + n) by omega]
  · intro hrest a hle hlt hacc
    by_cases ha : va + n ≤ a
    · have hpage := hstart a ha
      refine hrest a ha (by omega) ?_
      rw [show a / PGSIZE * PGSIZE - (va + n) = a / PGSIZE * PGSIZE - va - n by omega]
      exact (accessible_next hf hn (by omega)).mp hacc
    · refine ⟨t, ?_⟩
      rw [show a / PGSIZE = va / 4096 by simp only [PGSIZE] at hn ⊢; omega, ht]

end

/-- The null pointer is read exactly if a page that `copyout` comes to has no page table. -/
theorem Apart.wp_copyoutLoop (h : Apart s d) {buf : List UInt8} {fuel : Nat} (hend : va + buf.length ≤ 2 ^ 32)
    (hfuel : (va % 4096 + buf.length + 4095) / 4096 < fuel) :
    Run.wp (fun _ => ¬s.Tables d va buf.length) (copyoutLoop d fuel va buf) (fun r s' =>
      s.Tables d va buf.length ∧ ∃ m ≤ buf.length, Wrote s d va (buf.take m) s' ∧
      (r = 0 ∧ m = buf.length ∧ s.Accessible d va buf.length ∨
        r = -1 ∧ ¬s.Accessible d va buf.length)) s := by
  induction fuel generalizing va buf s with
  | zero => omega
  | succ fuel ih =>
    rw [copyoutLoop]
    by_cases hlen : buf.length > 0
    · have hv : va / 4096 < 2 ^ 20 := by omega
      have hround : PGROUNDDOWN va = va / 4096 * 4096 := rfl
      have hva : va / 4096 * PGSIZE + (va - va / 4096 * 4096) = va := by
        simp only [PGSIZE]
        omega
      rw [if_pos hlen, hround, Run.wp_bind]
      cases ht : s.table d (va / 4096 / 1024) with
      | none =>
        rw [uva2ka, Run.wp_bind]
        apply wp_walkpgdir hv
        rw [ht]
        refine (Run.wp_throw ..).mpr fun htables => ?_
        obtain ⟨t, hsome⟩ := htables va le_rfl (by omega) fun a hle hlt => by
          simp only [PGSIZE] at hlt
          omega
        exact absurd (ht.symm.trans hsome) nofun
      | some t =>
        apply h.wp_uva2ka hv ht
        cases hf : s.user d (va / 4096) with
        | none =>
          have hno {len : Nat} (hpos : 0 < len) : ¬s.Accessible d va len := by
            intro hacc
            obtain ⟨f, hsome⟩ := hacc va le_rfl (by omega)
            exact absurd (hf.symm.trans hsome) nofun
          refine (Run.wp_pure ..).mpr ⟨Phys.tables_of_page ht fun a hpage _ => hno ?_, 0, Nat.zero_le _,
            Wrote.nil s d va, .inr ⟨rfl, hno hlen⟩⟩
          simp only [PGSIZE]
          omega
        | some f =>
          show Run.wp _ (memmove f _ _ >>= _) _ s
          rw [Run.wp_bind]
          apply wp_memmove
          by_cases hlast : buf.length ≤ PGSIZE - (va - va / 4096 * 4096)
          · -- The buffer ends in this page.
            have hwrote := Wrote.page h hv hf buf (va - va / 4096 * 4096)
              (by simp only [PGSIZE] at hlast ⊢; omega)
            rw [hva] at hwrote
            obtain ⟨k, rfl⟩ := Nat.exists_eq_succ_of_ne_zero (n := fuel) (by omega)
            rw [Nat.min_eq_right hlast, List.take_length, List.drop_length, copyoutLoop,
              if_neg (by decide), Run.wp_pure]
            exact ⟨Phys.tables_of_page ht fun a hpage hlt => by simp only [PGSIZE] at hlast; omega,
              buf.length, le_rfl, by rwa [List.take_length],
              .inl ⟨rfl, rfl, Phys.accessible_of_page hf hlast⟩⟩
          · obtain ⟨n, hn⟩ : ∃ n, n = PGSIZE - (va - va / 4096 * 4096) := ⟨_, rfl⟩
            have hnext : u32 (va / 4096 * 4096 + PGSIZE) = va + n := by
              simp only [u32, PGSIZE] at hlast hn ⊢
              omega
            have hnlen : (buf.take n).length = n := List.length_take_of_le (by omega)
            have hwrote := Wrote.page h hv hf (buf.take n) (va - va / 4096 * 4096)
              (by rw [hnlen]; simp only [PGSIZE] at hn ⊢; omega)
            rw [hva] at hwrote
            rw [← hn, Nat.min_eq_left (by omega), hnext]
            generalize s.setPage f _ = s1 at hwrote ⊢
            have hdrop : (buf.drop n).length = buf.length - n := List.length_drop
            have hacc : s1.Accessible d (va + n) (buf.length - n) ↔ s.Accessible d va buf.length := by
              rw [Phys.accessible_next hf hn (by omega), Phys.Accessible, hwrote.user]
              rfl
            have htables : s1.Tables d (va + n) (buf.length - n) ↔ s.Tables d va buf.length := by
              rw [Phys.tables_next ht hf hn (by omega), Phys.Tables, hwrote.table]
              simp only [Phys.Accessible, hwrote.user]
              rfl
            have hend' : va + n + (buf.drop n).length ≤ 2 ^ 32 := by omega
            have hrest := ih (h.wrote hwrote) hend' (by
              rw [hdrop]
              simp only [PGSIZE] at hn
              omega)
            rw [hdrop, htables, hacc] at hrest
            refine Run.wp_mono hrest ?_
            rintro r s' ⟨htables, m, hm, hrest, hr⟩
            refine ⟨htables, n + m, by omega, ?_, ?_⟩
            · rw [List.take_add]
              exact hwrote.append (by rwa [hnlen])
            · rcases hr with ⟨rfl, rfl, hall⟩ | hr
              · exact .inl ⟨rfl, by omega, hall⟩
              · exact .inr hr
    · rw [if_neg hlen, Run.wp_pure]
      exact ⟨fun a hle hlt => absurd hlt (by omega), 0, Nat.zero_le _, Wrote.nil s d va,
        .inl ⟨rfl, by omega, fun a hle hlt => absurd hlt (by omega)⟩⟩

/-- `copyout` returns, and with 0 exactly if the user may access each page of the range.  The bytes of the
buffer are then in user memory from `va` on; with -1 only the first of them are.  Nothing else has changed.
All this holds exactly if each page that `copyout` comes to has a page table. -/
theorem copyout_precise (h : Apart s d) (buf : List UInt8) (hend : va + buf.length ≤ 2 ^ 32) :
    (∃ r s' m, copyout d va buf s = .ok (r, s') ∧ (r = 0 ∧ m = buf.length ∨ r = -1 ∧ m ≤ buf.length) ∧
      (r = 0 ↔ s.Accessible d va buf.length) ∧ Wrote s d va (buf.take m) s') ↔
      s.Tables d va buf.length := by
  have hfuel : (va % 4096 + buf.length + 4095) / 4096 < NPAGES + 1 := by
    simp only [NPAGES]
    omega
  have hwp := h.wp_copyoutLoop hend hfuel
  refine ⟨fun ⟨r, s', m, hrun, _⟩ => (Run.wp_ok hwp hrun).1, fun htables => ?_⟩
  cases hrun : copyout d va buf s with
  | error e =>
    have hnot := Run.wp_error hwp hrun
    exact absurd htables hnot
  | ok r =>
    obtain ⟨r, s'⟩ := r
    obtain ⟨-, m, hm, hwrote, hr⟩ := Run.wp_ok hwp hrun
    refine ⟨r, s', m, rfl, ?_, ?_, hwrote⟩
    · rcases hr with ⟨rfl, hall, -⟩ | ⟨rfl, -⟩
      · exact .inl ⟨rfl, hall⟩
      · exact .inr ⟨rfl, hm⟩
    · rcases hr with ⟨rfl, -, hacc⟩ | ⟨rfl, hacc⟩
      · exact ⟨fun _ => hacc, fun _ => rfl⟩
      · exact ⟨fun hr => absurd hr (by decide), fun hall => absurd hall hacc⟩

theorem firstPage_user {v f : Nat} (h : firstPage.user 0x200 v = some f) : v = 0 ∧ f = 0x300 := by
  rw [Phys.user] at h
  split_ifs at h with hp
  exact firstPage_frame ((if_pos hp.1).trans h)

theorem firstPage_apart : Apart firstPage 0x200 where
  ram v _ f hf := by
    obtain ⟨-, rfl⟩ := firstPage_user hf
    decide
  unused v hv f hf := by
    obtain ⟨rfl, rfl⟩ := firstPage_user hf
    exact (firstPage_space.frame 0 (by decide) 0x300 (by rw [firstPage_entry]; decide)).2.1
  once v _ w _ f hv hw := by rw [(firstPage_user hv).1, (firstPage_user hw).1]

/-- Two bytes fit at the end of the only page, and four do not. -/
theorem copyout_precise_firstPage :
    (∃ r s' m, copyout 0x200 0xffe [1, 2] firstPage = .ok (r, s') ∧ (r = 0 ∧ m = 2 ∨ r = -1 ∧ m ≤ 2) ∧
      (r = 0 ↔ firstPage.Accessible 0x200 0xffe 2) ∧ Wrote firstPage 0x200 0xffe ([1, 2].take m) s') ∧
    ∃ r s' m, copyout 0x200 0xffe [1, 2, 3, 4] firstPage = .ok (r, s') ∧
      (r = 0 ∧ m = 4 ∨ r = -1 ∧ m ≤ 4) ∧ (r = 0 ↔ firstPage.Accessible 0x200 0xffe 4) ∧
      Wrote firstPage 0x200 0xffe ([1, 2, 3, 4].take m) s' := by
  have htables (a : Nat) (ha : a < 0x1002) : ∃ t, firstPage.table 0x200 (a / PGSIZE / 1024) = some t := by
    refine ⟨0x201, ?_⟩
    rw [firstPage, oneEntry_table, if_pos (by simp only [PGSIZE]; omega)]
  exact ⟨(copyout_precise firstPage_apart [1, 2] (by decide)).mpr fun a _ ha _ => htables a (ha.trans (by decide)),
    (copyout_precise firstPage_apart [1, 2, 3, 4] (by decide)).mpr fun a _ ha _ => htables a ha⟩

/-- For an address without a page table, the entry is read through a null pointer. -/
theorem copyout_nullPte :
    Space firstPage 0x200 ∧ copyout 0x200 0x400000 [0] firstPage = .error .nullPte :=
  ⟨firstPage_space, rfl⟩

end

end Vm

end Xv6
