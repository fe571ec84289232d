import Xv6.Disk.Runs

/-!
# `balloc` and `bfree` on any bitmap

`balloc` finds the first clear bit, however many blocks the bitmap has, and `bfree` undoes it.  Only the
blocks that both read must not be given away: those of the bitmap, and the super block.
-/

namespace Xv6

namespace Store

/-- The panics of `log_write` when it does not take `n` more blocks -/
def LogRefuses (s : Store) (n : Nat) (e : StorePanic) : Prop :=
  e = .tooBig ∧ s.logCap < s.lh.length + n ∨ e = .outsideTrans ∧ s.outstanding = 0

/-- The blocks that `balloc` and `bfree` read are in use. -/
structure Guarded (s : Store) : Prop where
  super : Superblock.ofBlock (s.block 1) = s.sb
  one : s.marked 1 = true
  behind : 1 < s.sb.bmapstart
  bitmap : ∀ c < s.sb.size, s.marked (BBLOCK c s.sb) = true
  /-- The loop variable of `balloc` is of type `int`. -/
  size : s.sb.size + BPB ≤ 2 ^ 31

variable {s : Store} {E : StorePanic → Prop} {b c n : Nat}

theorem Formatted.guarded (h : s.Formatted) (hsize : s.sb.size + BPB ≤ 2 ^ 31) : s.Guarded := by
  have hboot := h.layout.boot
  have hlog := h.layout.log
  have hstart := h.layout.inodestart
  have hbitmap := h.layout.bmapstart_le
  exact ⟨h.super, h.reserved (by omega), by omega, fun c hc => h.reserved (h.layout.bblock_lt hc), hsize⟩

theorem affords_of_refuses (hE : ∀ e, s.LogRefuses n e → E e) {m : Nat}
    (hfree : ¬E .outOfBlocks → m ≤ s.freeBlocks) : s.Affords E m n where
  free := hfree
  room he := by
    by_contra hlt
    exact he (hE _ (.inl ⟨rfl, by omega⟩))
  trans he := by
    by_contra hzero
    exact he (hE _ (.inr ⟨rfl, by omega⟩))

theorem marked_of_freeBlocks (h : s.freeBlocks = 0) (hc : c < s.sb.size) : s.marked c = true := by
  by_contra hfree
  rw [freeBlocks, Finset.card_eq_zero, Finset.filter_eq_empty_iff] at h
  exact h (Finset.mem_range.mpr hc) (Bool.eq_false_of_not_eq_true hfree)

theorem block_write_apply (s : Store) (f : Block → Block) (b k : Nat) :
    (s.write b (f (s.block b))).block k = if k = b then f (s.block k) else s.block k := by
  split_ifs with hk
  · rw [hk, block_write_self]
  · rw [block_write_ne _ _ hk]

theorem block_alloc_of_ne {k : Nat} (hk : k ≠ b) :
    (s.alloc b).block k = if k = BBLOCK b s.sb then (s.block k).setBit (b % BPB) else s.block k := by
  rw [alloc, block_write_ne _ _ hk]
  exact block_write_apply s (·.setBit (b % BPB)) _ k

namespace Guarded

variable (h : s.Guarded)

include h

theorem ne_of_free (hb : s.marked b = false) : b ≠ 1 ∧ ∀ c < s.sb.size, BBLOCK c s.sb ≠ b := by
  constructor
  · rintro rfl
    rw [h.one] at hb
    cases hb
  · rintro c hc rfl
    rw [h.bitmap c hc] at hb
    cases hb

theorem bblock_ne_one (b : Nat) : BBLOCK b s.sb ≠ 1 := by
  have hle := Superblock.Layout.le_bblock s.sb b
  have hbehind := h.behind
  omega

theorem super_alloc (hb : s.marked b = false) : Superblock.ofBlock ((s.alloc b).block 1) = s.sb := by
  rw [alloc, block_write_ne _ _ (h.ne_of_free hb).1.symm, block_write_ne _ _ (h.bblock_ne_one b).symm]
  exact h.super

theorem block_free_alloc (hlt : b < s.sb.size) (hb : s.marked b = false) {k : Nat} (hk : k ≠ b) :
    ((s.alloc b).free b).block k = s.block k := by
  have hself : BBLOCK b s.sb ≠ b := (h.ne_of_free hb).2 b hlt
  have hsb : (s.alloc b).sb = s.sb := rfl
  rw [free, hsb, block_alloc_of_ne hself, if_pos rfl]
  by_cases hbitmap : k = BBLOCK b s.sb
  · rw [hbitmap, block_write_self]
    exact Bytes.clearBit_setBit _ (Nat.mod_lt b (by decide)) hb
  · rw [block_write_ne _ _ hbitmap, block_alloc_of_ne hk, if_neg hbitmap]

end Guarded

theorem bfree_cases (hsuper : Superblock.ofBlock (s.block 1) = s.sb) (hb : s.marked b = true) :
    bfree b s = .ok ((), s.free b) ∨ ∃ e, bfree b s = .error e ∧ s.LogRefuses 1 e := by
  have hwp : Run.wp (s.LogRefuses 1) (bfree b) (fun _ s' => s' = s.free b) s :=
    wp_bfree hsuper hb (affords_of_refuses (fun _ => id) fun _ => Nat.zero_le _) rfl
  cases hrun : bfree b s with
  | ok r => exact .inl (by rw [← Run.wp_ok hwp hrun])
  | error e => exact .inr ⟨e, rfl, Run.wp_error hwp hrun⟩

/-- `balloc` returns the first block that is not marked, marks it and clears it; without one it panics.
`bfree` brings the bitmap back, and for any marked block it clears the bit of the block.  Both may also
find that the log takes no more blocks. -/
theorem balloc_bfree (h : s.Guarded) :
    ((∃ b s', balloc s = .ok (b, s') ∧
        b < s.sb.size ∧ s.marked b = false ∧ (∀ c < b, s.marked c = true) ∧
        (∀ c < s.sb.size, s'.marked c = (s.marked c || decide (c = b))) ∧ s'.block b = Bytes.zero ∧
        (∀ k ≠ b, s'.block k = if k = BBLOCK b s.sb then (s.block k).setBit (b % BPB) else s.block k) ∧
        ((∃ s'', bfree b s' = .ok ((), s'') ∧ ∀ k ≠ b, s''.block k = s.block k) ∨
          ∃ e, bfree b s' = .error e ∧ s'.LogRefuses 1 e)) ∨
      balloc s = .error .outOfBlocks ∧ (∀ c < s.sb.size, s.marked c = true) ∨
      ∃ e, balloc s = .error e ∧ s.LogRefuses 2 e) ∧
    ∀ b, s.marked b = true →
      (∃ s', bfree b s = .ok ((), s') ∧ (∀ c, s'.marked c = (s.marked c && !decide (c = b))) ∧
        ∀ k, s'.block k = if k = BBLOCK b s.sb then (s.block k).clearBit (b % BPB) else s.block k) ∨
      ∃ e, bfree b s = .error e ∧ s.LogRefuses 1 e := by
  constructor
  · have hwp : Run.wp (fun e => e = .outOfBlocks ∧ (∀ c < s.sb.size, s.marked c = true) ∨ s.LogRefuses 2 e) balloc
        (fun b s' => (b < s.sb.size ∧ s.marked b = false ∧ ∀ c < b, s.marked c = true) ∧ s' = s.alloc b) s := by
      refine wp_balloc_least (affords_of_refuses (fun _ => .inr) fun he => ?_) fun b hlt hfree hleast =>
        ⟨⟨hlt, hfree, hleast⟩, rfl⟩
      by_contra hnone
      exact he (.inl ⟨rfl, fun c hc => marked_of_freeBlocks (by omega) hc⟩)
    cases hrun : balloc s with
    | ok r =>
      obtain ⟨b, s'⟩ := r
      obtain ⟨⟨hlt, hfree, hleast⟩, hs'⟩ := Run.wp_ok hwp hrun
      subst hs'
      have hne := (h.ne_of_free hfree).2
      have hmarked : (s.alloc b).marked b = true := by simp [marked_alloc_of_ne (hne b hlt)]
      refine .inl ⟨b, _, rfl, hlt, hfree, hleast, fun c hc => marked_alloc_of_ne (hne c hc),
        block_alloc_self s b, fun k => block_alloc_of_ne, ?_⟩
      rcases bfree_cases (h.super_alloc hfree) hmarked with hfreed | hrefused
      · exact .inl ⟨_, hfreed, fun k => h.block_free_alloc hlt hfree⟩
      · exact .inr hrefused
    | error e =>
      rcases Run.wp_error hwp hrun with ⟨rfl, hfull⟩ | hrefused
      · exact .inr (.inl ⟨rfl, hfull⟩)
      · exact .inr (.inr ⟨e, rfl, hrefused⟩)
  · intro b hb
    rcases bfree_cases h.super hb with hfreed | hrefused
    · exact .inl ⟨_, hfreed, marked_free b, block_write_apply s (·.clearBit (b % BPB)) _⟩
    · exact .inr hrefused

/-- A transaction on the small disk -/
def opened : Store := { blank with outstanding := 1 }

theorem opened_guarded : opened.Guarded := by
  have hformatted := blank_sound.owned.formatted
  exact Formatted.guarded ⟨hformatted.layout, hformatted.super, hformatted.reserved⟩ (by decide)

/-- Block 5 is given out, cleared and marked, and `bfree` brings back what was there. -/
theorem balloc_bfree_opened : ∃ s' s'', balloc opened = .ok (5, s') ∧ opened.marked 5 = false ∧
    s'.marked 5 = true ∧ s'.block 5 = Bytes.zero ∧ bfree 5 s' = .ok ((), s'') ∧
    ∀ k ≠ 5, s''.block k = opened.block k := by
  obtain ⟨b, s', hrun, hp⟩ := Run.exists_of_returns (m := balloc) (s := opened)
    (p := fun b s' => b == 5 && s'.logCap ≥ s'.lh.length + 1 && s'.outstanding == 1) (by decide +kernel)
  simp only [Bool.and_eq_true, beq_iff_eq, decide_eq_true_eq] at hp
  obtain ⟨⟨rfl, hcap⟩, hout⟩ := hp
  rcases (balloc_bfree opened_guarded).1 with
    ⟨b, t, hok, -, hfree, -, hmarked, hzero, -, hback⟩ | ⟨herr, -⟩ | ⟨e, herr, -⟩
  · cases hrun.symm.trans hok
    refine ⟨s', ?_⟩
    rcases hback with ⟨s'', hs'', hblock⟩ | ⟨e, -, ⟨-, hlt⟩ | ⟨-, hnone⟩⟩
    · exact ⟨s'', hrun, hfree, by simp [hmarked 5 (by decide)], hzero, hs'', hblock⟩
    · omega
    · omega
  · cases hrun.symm.trans herr
  · cases hrun.symm.trans herr

/-- The bitmap is not marked in itself. -/
def unguarded : Store :=
  { opened with block := Function.update blank.block 4 (Bytes.zero.put 0 15) }

/-- `balloc` gives the bitmap away and clears all of it. -/
theorem balloc_own_bitmap : unguarded.marked 0 = true ∧
    ∃ b s', balloc unguarded = .ok (b, s') ∧ b = 4 ∧ s'.marked 0 = false := by
  refine ⟨by decide, ?_⟩
  obtain ⟨b, s', hrun, hp⟩ := Run.exists_of_returns
    (m := balloc) (p := fun b s' => b == 4 && !s'.marked 0) (s := unguarded) (by decide +kernel)
  simp only [Bool.and_eq_true, beq_iff_eq, Bool.not_eq_true'] at hp
  exact ⟨b, s', hrun, hp⟩

end Store

end Xv6
