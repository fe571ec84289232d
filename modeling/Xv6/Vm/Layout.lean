import Mathlib.Data.Nat.Bitwise

/-!
# Addresses and page-table entries

The constants of `memlayout.h` and `mmu.h`, and arithmetic on 32-bit addresses.  A page of physical
memory is known by its number, its frame.
-/

namespace Xv6.Vm

abbrev PGSIZE : Nat := 4096
abbrev EXTMEM : Nat := 0x100000
abbrev PHYSTOP : Nat := 0xE000000
abbrev DEVSPACE : Nat := 0xFE000000
abbrev KERNBASE : Nat := 0x80000000
abbrev KERNLINK : Nat := KERNBASE + EXTMEM

abbrev NPDENTRIES : Nat := 1024

abbrev PTE_P : Nat := 1
abbrev PTE_W : Nat := 2
abbrev PTE_U : Nat := 4

/-- The symbols `data` and `end`, as `kernel.sym` has them -/
abbrev kernelData : Nat := 0x80109000
abbrev kernelEnd : Nat := 0x80116728

/-- Unsigned 32-bit arithmetic -/
def u32 (n : Nat) : Nat := n % 2 ^ 32

def PDX (va : Nat) : Nat := va / 2 ^ 22 % 2 ^ 10

def PTX (va : Nat) : Nat := va / 2 ^ 12 % 2 ^ 10

def PGADDR (d t o : Nat) : Nat := u32 (d * 2 ^ 22 ||| t * 2 ^ 12 ||| o)

def PGROUNDUP (sz : Nat) : Nat := u32 (sz + PGSIZE - 1) / PGSIZE * PGSIZE

def PGROUNDDOWN (a : Nat) : Nat := a / PGSIZE * PGSIZE

def PTE_ADDR (pte : Nat) : Nat := pte / PGSIZE * PGSIZE

def PTE_FLAGS (pte : Nat) : Nat := pte % PGSIZE

/-- `*pte & PTE_P` -/
def Present (pte : Nat) : Prop := pte &&& PTE_P ≠ 0

instance (pte : Nat) : Decidable (Present pte) := inferInstanceAs (Decidable (_ ≠ _))

/-- The frame that an entry refers to, if it is present -/
def entryFrame (pte : Nat) : Option Nat := if Present pte then some (PTE_ADDR pte / PGSIZE) else none

/-- The frames that `kfree` takes, which are those of `kinit1` and `kinit2` -/
def Managed (f : Nat) : Prop := kernelEnd ≤ KERNBASE + f * PGSIZE ∧ f * PGSIZE < PHYSTOP

instance (f : Nat) : Decidable (Managed f) := inferInstanceAs (Decidable (_ ∧ _))

/-- The number of pages that `sz` bytes need -/
def npages (sz : Nat) : Nat := (sz + 4095) / 4096

theorem npages_le {sz : Nat} (h : sz ≤ KERNBASE) : npages sz ≤ 2 ^ 19 := by
  unfold npages
  simp only [KERNBASE] at h
  omega

theorem npages_mono {sz sz' : Nat} (h : sz ≤ sz') : npages sz ≤ npages sz' := Nat.div_le_div_right (by omega)

theorem u32_of_lt {n : Nat} (h : n < 2 ^ 32) : u32 n = n := Nat.mod_eq_of_lt h

theorem PDX_page {v : Nat} (h : v < 2 ^ 20) : PDX (v * 4096) = v / 1024 := by
  unfold PDX
  omega

theorem PTX_page (v : Nat) : PTX (v * 4096) = v % 1024 := by
  unfold PTX
  omega

theorem PGROUNDUP_eq {sz : Nat} (h : sz ≤ KERNBASE) : PGROUNDUP sz = npages sz * 4096 := by
  simp only [PGROUNDUP, u32, npages, PGSIZE, KERNBASE] at h ⊢
  omega

theorem next_page {v : Nat} (h : v + 1 < 2 ^ 20) : u32 (v * 4096 + PGSIZE) = (v + 1) * 4096 := by
  simp only [u32, PGSIZE]
  omega

theorem PGADDR_dir {d : Nat} (h : d < 1024) : PGADDR d 0 0 = d * 1024 * 4096 := by
  have hor : d * 2 ^ 22 ||| 0 * 2 ^ 12 ||| 0 = d * 2 ^ 22 := by simp
  rw [PGADDR, hor, u32_of_lt (by omega)]
  omega

theorem managed_iff {f : Nat} : Managed f ↔ 0x117 ≤ f ∧ f < 0xE000 := by
  simp only [Managed, kernelEnd, KERNBASE, PGSIZE, PHYSTOP]
  omega

theorem Managed.lt {f : Nat} (h : Managed f) : f < 2 ^ 19 := by
  rw [managed_iff] at h
  omega

theorem present_iff {pte : Nat} : Present pte ↔ pte % 2 = 1 := by
  rw [Present, Nat.and_one_is_mod]
  omega

theorem entryFrame_of_not {pte : Nat} (h : ¬Present pte) : entryFrame pte = none := if_neg h

theorem entryFrame_eq_some {pte f : Nat} : entryFrame pte = some f ↔ Present pte ∧ pte / 4096 = f := by
  have haddr : PTE_ADDR pte / PGSIZE = pte / 4096 := Nat.mul_div_cancel _ (by decide)
  rw [entryFrame, haddr]
  by_cases hp : Present pte
  · rw [if_pos hp, Option.some.injEq, and_iff_right hp]
  · simp [hp]

theorem present_of_entryFrame {pte f : Nat} (h : entryFrame pte = some f) : Present pte :=
  (entryFrame_eq_some.mp h).1

theorem present_or (a : Nat) : Present (a ||| PTE_P) := by
  rw [present_iff, Nat.or_mod_two_eq_one]
  exact .inr rfl

theorem frame_or (f : Nat) {flags : Nat} (h : flags < 4096) : f * 4096 ||| flags = f * 4096 + flags := by
  have hor := Nat.shiftLeft_add_eq_or_of_lt (i := 12) h f
  rw [Nat.shiftLeft_eq] at hor
  exact hor.symm

theorem or_lt_page {a b : Nat} (ha : a < 4096) (hb : b < 4096) : a ||| b < 4096 :=
  Nat.or_lt_two_pow (n := 12) ha hb

theorem entryFrame_or (f : Nat) {flags : Nat} (h : flags < 4096) (hp : Present flags) :
    entryFrame (f * 4096 ||| flags) = some f := by
  rw [entryFrame_eq_some, frame_or f h, present_iff]
  rw [present_iff] at hp
  omega

end Xv6.Vm
