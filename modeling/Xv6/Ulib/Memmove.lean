import Mathlib.Tactic.Ring

/-!
# The two `memmove`s

The one of the kernel looks where the ranges lie and copies from the end if it has to.  The one of the user
library always copies from the beginning.
-/

namespace Xv6

open Function (update_of_ne update_self)

abbrev Mem := UInt32 → UInt8

/-- `while(n-- > 0) *d++ = *s++;` -/
def copyUp (mem : Mem) (d s : UInt32) : Nat → Mem
  | 0 => mem
  | n + 1 => copyUp (Function.update mem d (mem s)) (d + 1) (s + 1) n

/-- `while(n-- > 0) *--d = *--s;` -/
def copyDown (mem : Mem) (d s : UInt32) : Nat → Mem
  | 0 => mem
  | n + 1 => copyDown (Function.update mem (d - 1) (mem (s - 1))) (d - 1) (s - 1) n

/-- `memmove` in `string.c`: the memory afterwards, and the result -/
def memmove (mem : Mem) (dst src n : UInt32) : Mem × UInt32 :=
  if src < dst ∧ src + n > dst then (copyDown mem (dst + n) (src + n) n.toNat, dst)
  else (copyUp mem dst src n.toNat, dst)

/-- `memmove` in `ulib.c` -/
def Ulib.memmove (mem : Mem) (vdst vsrc : UInt32) (n : Int32) : Mem × UInt32 :=
  (copyUp mem vdst vsrc n.toInt.toNat, vdst)

/-- All bytes are copied at once. -/
def Mem.moved (mem : Mem) (d s : UInt32) (n : Nat) : Mem := fun a =>
  if (a - d).toNat < n then mem (s + (a - d)) else mem a

section

variable {mem : Mem} {d s dst src : UInt32} {n : Nat}

theorem toNat_sub_one {k : UInt32} (hk : k ≠ 0) : (k - 1).toNat = k.toNat - 1 := by
  have hne : k.toNat ≠ 0 := fun h => hk (UInt32.toNat_inj.mp h)
  have hlt := k.toNat_lt
  rw [UInt32.toNat_sub, UInt32.toNat_one]
  omega

theorem Mem.moved_first (hn : n < 2 ^ 32) (h : ∀ k : UInt32, k ≠ 0 → k.toNat ≤ n → s + k ≠ d) :
    Mem.moved (Function.update mem d (mem s)) (d + 1) (s + 1) n = mem.moved d s (n + 1) := by
  funext a
  obtain ⟨k, rfl⟩ : ∃ k, a = d + k := ⟨a - d, by grind⟩
  have hoff : d + k - (d + 1) = k - 1 := by grind
  have hsrc : s + 1 + (k - 1) = s + k := by grind
  rw [moved, moved, hoff, hsrc, show d + k - d = k by grind]
  by_cases hk : k = 0
  · have hlast : ¬((0 : UInt32) - 1).toNat < n := by
      rw [show ((0 : UInt32) - 1).toNat = 2 ^ 32 - 1 from rfl]
      omega
    rw [hk, if_neg hlast, UInt32.toNat_zero, if_pos (Nat.succ_pos n), UInt32.add_zero, UInt32.add_zero,
      update_self]
  · have hpos : k.toNat ≠ 0 := fun hzero => hk (UInt32.toNat_inj.mp hzero)
    rw [toNat_sub_one hk]
    by_cases hlt : k.toNat < n + 1
    · rw [if_pos (by omega), if_pos hlt, update_of_ne (h k hk (by omega))]
    · rw [if_neg (by omega), if_neg hlt, update_of_ne (by grind)]

theorem Mem.moved_last (hn : n < 2 ^ 32) (h : ∀ k : UInt32, k.toNat < n → s + k ≠ d + .ofNat n) :
    Mem.moved (Function.update mem (d + .ofNat n) (mem (s + .ofNat n))) d s n = mem.moved d s (n + 1) := by
  funext a
  obtain ⟨k, rfl⟩ : ∃ k, a = d + k := ⟨a - d, by grind⟩
  rw [moved, moved, show d + k - d = k by grind]
  by_cases hlt : k.toNat < n
  · rw [if_pos hlt, if_pos (by omega), update_of_ne (h k hlt)]
  · rw [if_neg hlt]
    by_cases hk : k = .ofNat n
    · rw [hk, update_self, if_pos]
      rw [UInt32.toNat_ofNat_of_lt' hn]
      omega
    · have hne : k.toNat ≠ n := fun heq => hk (by rw [← heq, UInt32.ofNat_toNat])
      rw [if_neg (by omega), update_of_ne (by grind)]

/-- Copying upwards is right if no byte is written before it is read. -/
theorem copyUp_eq_moved (hn : n ≤ 2 ^ 32)
    (h : ∀ i j, i < j → j < n → s + UInt32.ofNat j ≠ d + UInt32.ofNat i) :
    copyUp mem d s n = mem.moved d s n := by
  induction n generalizing mem d s with
  | zero => rfl
  | succ n ih =>
    rw [copyUp, ih (by omega), Mem.moved_first (by omega)]
    · intro k hk hle
      have hne := h 0 k.toNat (Nat.pos_of_ne_zero fun hzero => hk (UInt32.toNat_inj.mp hzero)) (by omega)
      rwa [UInt32.ofNat_toNat, show UInt32.ofNat 0 = 0 from rfl, UInt32.add_zero] at hne
    · intro i j hij hj
      have hne := h (i + 1) (j + 1) (by omega) (by omega)
      rw [UInt32.ofNat_add, UInt32.ofNat_add, show UInt32.ofNat 1 = 1 from rfl] at hne
      grind

theorem copyUp_add (m : Nat) :
    copyUp mem d s (n + m) = copyUp (copyUp mem d s n) (d + .ofNat n) (s + .ofNat n) m := by
  induction n generalizing mem d s with
  | zero => simp [copyUp]
  | succ n ih =>
    rw [Nat.succ_add, copyUp, copyUp, ih, UInt32.ofNat_add, show UInt32.ofNat 1 = 1 from rfl]
    congr 1 <;> grind

/-- Nothing behind the first `n` bytes is written. -/
theorem copyUp_of_le {a : UInt32} (h : n ≤ (a - d).toNat) : copyUp mem d s n a = mem a := by
  induction n generalizing mem d s with
  | zero => rfl
  | succ n ih =>
    have hne : a - d ≠ 0 := by
      intro hzero
      rw [hzero, UInt32.toNat_zero] at h
      omega
    have hpred : a - (d + 1) = a - d - 1 := by grind
    rw [copyUp, ih, update_of_ne (by grind)]
    rw [hpred, toNat_sub_one hne]
    omega

theorem copyDown_eq_moved (hn : n ≤ 2 ^ 32)
    (h : ∀ i j, j < i → i < n → s + UInt32.ofNat j ≠ d + UInt32.ofNat i) :
    copyDown mem (d + .ofNat n) (s + .ofNat n) n = mem.moved d s n := by
  induction n generalizing mem with
  | zero => rfl
  | succ n ih =>
    have hpred (p : UInt32) : p + .ofNat (n + 1) - 1 = p + .ofNat n := by
      rw [UInt32.ofNat_add, show UInt32.ofNat 1 = 1 from rfl]
      grind
    rw [copyDown, hpred, hpred, ih (by omega) fun i j hij hi => h i j hij (by omega), Mem.moved_last (by omega)]
    intro k hk
    have hne := h n k.toNat hk (by omega)
    rwa [UInt32.ofNat_toNat] at hne

theorem toNat_add_ofNat {p : UInt32} {i : Nat} (h : p.toNat + n ≤ 2 ^ 32) (hi : i < n) :
    (p + UInt32.ofNat i).toNat = p.toNat + i := by
  rw [UInt32.toNat_add, UInt32.toNat_ofNat_of_lt' (show i < UInt32.size by simp only [UInt32.size]; omega)]
  omega

variable (hdst : dst.toNat + n ≤ 2 ^ 32) (hsrc : src.toNat + n ≤ 2 ^ 32)

include hdst hsrc

theorem copyUp_of_apart (h : dst.toNat ≤ src.toNat ∨ src.toNat + n ≤ dst.toNat) :
    copyUp mem dst src n = mem.moved dst src n := by
  apply copyUp_eq_moved (by omega)
  intro i j hij hj heq
  have hnat := congrArg UInt32.toNat heq
  rw [toNat_add_ofNat hsrc hj, toNat_add_ofNat hdst (Nat.lt_trans hij hj)] at hnat
  omega

theorem memmove_eq_moved (hn : n < 2 ^ 31) :
    memmove mem dst src (.ofNat n) = (mem.moved dst src n, dst) := by
  have htoNat : (UInt32.ofNat n).toNat = n :=
    UInt32.toNat_ofNat_of_lt' (show n < UInt32.size by simp only [UInt32.size]; omega)
  rw [memmove, htoNat]
  simp only [gt_iff_lt, UInt32.lt_iff_toNat_lt, UInt32.toNat_add, htoNat]
  split_ifs with hoverlap
  · rw [copyDown_eq_moved (by omega)]
    intro i j hij hi heq
    have hnat := congrArg UInt32.toNat heq
    rw [toNat_add_ofNat hsrc (Nat.lt_trans hij hi), toNat_add_ofNat hdst hi] at hnat
    omega
  · rw [copyUp_of_apart hdst hsrc (by omega)]

end

/-- One byte is marked. -/
def marked (src : UInt32) : Mem := Function.update (fun _ => 0) src 1

/-- The user library copies the marked byte twice if the destination begins inside the source. -/
theorem copyUp_marked {dst src : UInt32} {n : Nat} (hdst : dst.toNat + n ≤ 2 ^ 32)
    (hlo : src.toNat < dst.toNat) (hhi : dst.toNat < src.toNat + n) :
    copyUp (marked src) dst src n (dst + (dst - src)) = 1 := by
  have hsub : (dst - src).toNat = dst.toNat - src.toNat := by
    rw [UInt32.toNat_sub_of_le _ _ (UInt32.le_iff_toNat_le.mpr hlo.le)]
  obtain ⟨m, hm⟩ : ∃ m, n = (dst - src).toNat + (m + 1) := ⟨n - (dst - src).toNat - 1, by omega⟩
  have hfirst : copyUp (marked src) dst src (dst - src).toNat dst = 1 := by
    rw [copyUp_of_apart (by omega) (by omega) (.inr (by omega)), Mem.moved, UInt32.sub_self,
      if_pos (by simp only [UInt32.toNat_zero]; omega), UInt32.add_zero, marked, update_self]
  -- The byte that comes next is read from where the marked one has just been put.
  rw [hm, copyUp_add, UInt32.ofNat_toNat, show src + (dst - src) = dst by grind, copyUp,
    copyUp_of_le, update_self, hfirst]
  rw [show dst + (dst - src) - (dst + (dst - src) + 1) = (0 : UInt32) - 1 by grind,
    show ((0 : UInt32) - 1).toNat = 2 ^ 32 - 1 from rfl]
  omega

/-- The kernel's `memmove` copies the bytes as they were, wherever the ranges lie.  That of the user library
does the same on every memory exactly if the destination does not begin inside the source. -/
theorem memmove_agree {dst src : UInt32} {n : Nat} (hn : n < 2 ^ 31)
    (hdst : dst.toNat + n ≤ 2 ^ 32) (hsrc : src.toNat + n ≤ 2 ^ 32) :
    (∀ mem, (∀ i < n, (memmove mem dst src (.ofNat n)).1 (dst + .ofNat i) = mem (src + .ofNat i)) ∧
      ∀ a : UInt32, a.toNat < dst.toNat ∨ dst.toNat + n ≤ a.toNat →
        (memmove mem dst src (.ofNat n)).1 a = mem a) ∧
      ((∀ mem, Ulib.memmove mem dst src (.ofNat n) = memmove mem dst src (.ofNat n)) ↔
        dst.toNat ≤ src.toNat ∨ src.toNat + n ≤ dst.toNat) := by
  have hint : (Int32.ofNat n).toInt.toNat = n := by
    rw [Int32.toInt_ofNat_of_lt (by omega), Int.toNat_natCast]
  simp only [memmove_eq_moved hdst hsrc hn, Ulib.memmove, hint]
  refine ⟨fun mem => ⟨fun i hi => ?_, fun a ha => ?_⟩, fun hagree => ?_, fun happart mem => ?_⟩
  · have hoff : dst + UInt32.ofNat i - dst = UInt32.ofNat i := by grind
    have hlt : (UInt32.ofNat i).toNat < n := by
      rwa [UInt32.toNat_ofNat_of_lt' (show i < UInt32.size by simp only [UInt32.size]; omega)]
    rw [Mem.moved, hoff, if_pos hlt]
  · have hlt := a.toNat_lt
    rw [Mem.moved, if_neg]
    rw [UInt32.toNat_sub]
    omega
  · by_contra hinside
    rw [not_or, Nat.not_le, Nat.not_le] at hinside
    have hbyte := congrFun (Prod.mk.inj (hagree (marked src))).1 (dst + (dst - src))
    have hne : dst ≠ src := by
      rintro rfl
      exact Nat.lt_irrefl _ hinside.1
    have hsub : (dst - src).toNat < n := by
      rw [UInt32.toNat_sub_of_le _ _ (UInt32.le_iff_toNat_le.mpr hinside.1.le)]
      omega
    rw [copyUp_marked hdst hinside.1 hinside.2, Mem.moved, show dst + (dst - src) - dst = dst - src by grind,
      if_pos hsub, show src + (dst - src) = dst by grind, marked, update_of_ne hne] at hbyte
    cases hbyte
  · rw [copyUp_of_apart hdst hsrc happart]

/-- Each byte holds its address. -/
def counting : Mem := fun a => a.toUInt8

theorem memmove_agree_down :
    Ulib.memmove counting 0 1 3 = memmove counting 0 1 3 ∧ (memmove counting 0 1 3).1 2 = 3 := by
  obtain ⟨hcopied, hagree⟩ := memmove_agree (show 3 < 2 ^ 31 by decide)
    (show (0 : UInt32).toNat + 3 ≤ 2 ^ 32 by decide) (show (1 : UInt32).toNat + 3 ≤ 2 ^ 32 by decide)
  exact ⟨hagree.2 (.inl (by decide)) counting, (hcopied counting).1 2 (by decide)⟩

/-- Two bytes are moved up by one: the second is copied after it has been overwritten. -/
theorem memmove_differ : (memmove counting 1 0 2).1 2 = 1 ∧ (Ulib.memmove counting 1 0 2).1 2 = 0 := by
  decide

end Xv6
