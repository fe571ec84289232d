import Xv6.Vm.Layout
import Mathlib.Tactic.Common

/-!
# The arguments of a system call

The kernel finds the arguments on the user's stack.  A pointer among them is checked against the size of the
process before it is used.
-/

namespace Xv6

/-- A process that makes a system call -/
structure Caller where
  /-- `curproc->sz` -/
  sz : UInt32
  /-- `curproc->tf->esp` -/
  esp : UInt32
  mem : Nat → UInt8

namespace Caller

variable (p : Caller)

/-- `*(int*)(addr)` -/
def intAt (addr : UInt32) : UInt32 :=
  let byte k := (p.mem (addr.toNat + k)).toUInt32
  byte 0 ||| byte 1 <<< 8 ||| byte 2 <<< 16 ||| byte 3 <<< 24

def fetchint (addr : UInt32) : Option UInt32 :=
  if addr ≥ p.sz ∨ addr + 4 > p.sz then none else some (p.intAt addr)

/-- `for(s = *pp; s < ep; s++)`, with at most `n` bytes looked at -/
def strLoop (ep : Nat) : Nat → Nat → Option Nat
  | 0, _ => none
  | n + 1, s => if s < ep then if p.mem s = 0 then some s else strLoop ep n (s + 1) else none

/-- `fetchstr` returns the length of the string. -/
def fetchstr (addr : UInt32) : Option Nat :=
  if addr ≥ p.sz then none
  else (p.strLoop p.sz.toNat (p.sz.toNat - addr.toNat) addr.toNat).map (· - addr.toNat)

/-- The address of the `n`th argument -/
def argAddr (n : Int32) : UInt32 := p.esp + 4 + 4 * n.toUInt32

def argint (n : Int32) : Option UInt32 := p.fetchint (p.argAddr n)

def argptr (n size : Int32) : Option UInt32 := do
  let i ← p.argint n
  if size < 0 ∨ i ≥ p.sz ∨ i + size.toUInt32 > p.sz then none else some i

/-- `argstr`, with the address of the string -/
def argstr (n : Int32) : Option (UInt32 × Nat) := do
  let addr ← p.argint n
  let len ← p.fetchstr addr
  pure (addr, len)

/-- The bytes from `a` on belong to the process. -/
def Owns (a : UInt32) (n : Nat) : Prop := ∀ k, k < n → a.toNat + k < p.sz.toNat

/-- A string of `len` bytes, which ends in the memory of the process -/
structure IsString (a : UInt32) (len : Nat) : Prop where
  owns : p.Owns a (len + 1)
  nul : p.mem (a.toNat + len) = 0
  first : ∀ k, k < len → p.mem (a.toNat + k) ≠ 0

variable {p}

theorem fetchint_owns (hsz : p.sz.toNat < Vm.KERNBASE) {addr v : UInt32} (h : p.fetchint addr = some v) :
    p.Owns addr 4 := by
  rw [fetchint] at h
  split at h
  · cases h
  · rename_i hin
    rw [not_or, ge_iff_le, gt_iff_lt, UInt32.le_iff_toNat_le, UInt32.lt_iff_toNat_lt, UInt32.toNat_add] at hin
    have hfour : (4 : UInt32).toNat = 4 := rfl
    simp only [Vm.KERNBASE] at hsz
    intro k hk
    omega

theorem argptr_eq_some {n size : Int32} {a : UInt32} : p.argptr n size = some a ↔
    p.argint n = some a ∧ ¬size < 0 ∧ a < p.sz ∧ a + size.toUInt32 ≤ p.sz := by
  rw [argptr]
  cases p.argint n with
  | none => exact ⟨nofun, nofun⟩
  | some i =>
    change (if size < 0 ∨ i ≥ p.sz ∨ i + size.toUInt32 > p.sz then none else some i) = some a ↔ _
    split
    · rename_i hout
      constructor
      · nofun
      · rintro ⟨hi, hsize, hlt, hle⟩
        cases hi
        rcases hout with h | h | h
        · exact absurd h hsize
        · exact absurd hlt (UInt32.not_lt.mpr h)
        · exact absurd h (UInt32.not_lt.mpr hle)
    · rename_i hin
      rw [not_or, not_or] at hin
      obtain ⟨hsize, hlt, hle⟩ := hin
      constructor
      · intro h
        cases h
        exact ⟨rfl, hsize, UInt32.not_le.mp hlt, UInt32.not_lt.mp hle⟩
      · exact fun h => h.1

theorem toNat_toUInt32 {size : Int32} (h : ¬size < 0) : size.toUInt32.toNat = size.toInt.toNat := by
  rw [Int32.lt_iff_toInt_lt] at h
  have hcond := BitVec.toInt_eq_toNat_cond size.toBitVec
  have hint : size.toInt = size.toBitVec.toInt := rfl
  have hnat : size.toUInt32.toNat = size.toBitVec.toNat := rfl
  have hzero : (0 : Int32).toInt = 0 := rfl
  have hlt := size.toBitVec.isLt
  split at hcond <;> omega

theorem argptr_owns (hsz : p.sz.toNat < Vm.KERNBASE) {n size : Int32} {a : UInt32}
    (h : p.argptr n size = some a) : p.Owns a size.toInt.toNat := by
  obtain ⟨-, hsize, hlt, hle⟩ := argptr_eq_some.mp h
  rw [UInt32.lt_iff_toNat_lt] at hlt
  rw [UInt32.le_iff_toNat_le, UInt32.toNat_add, toNat_toUInt32 hsize] at hle
  have hmax := size.toInt_lt
  simp only [Vm.KERNBASE] at hsz
  intro k hk
  omega

theorem strLoop_eq_some {ep n s t : Nat} (hn : ep ≤ s + n) :
    p.strLoop ep n s = some t ↔ s ≤ t ∧ t < ep ∧ p.mem t = 0 ∧ ∀ k, s ≤ k → k < t → p.mem k ≠ 0 := by
  induction n generalizing s with
  | zero =>
    rw [strLoop]
    constructor
    · nofun
    · rintro ⟨hs, ht, -⟩
      omega
  | succ n ih =>
    rw [strLoop]
    split
    · split
      · rename_i hlt hzero
        constructor
        · intro h
          cases h
          exact ⟨Nat.le_refl _, hlt, hzero, fun k hs hk => absurd hk (Nat.not_lt.mpr hs)⟩
        · rintro ⟨hs, -, -, hfirst⟩
          rcases Nat.eq_or_lt_of_le hs with rfl | hlt
          · rfl
          · exact absurd hzero (hfirst s (Nat.le_refl _) hlt)
      · rename_i hlt hne
        rw [ih (by omega)]
        constructor
        · rintro ⟨hs, ht, hzero, hfirst⟩
          refine ⟨by omega, ht, hzero, fun k hk hkt => ?_⟩
          rcases Nat.eq_or_lt_of_le hk with rfl | hlt
          · exact hne
          · exact hfirst k hlt hkt
        · rintro ⟨hs, ht, hzero, hfirst⟩
          have hst : s ≠ t := by
            rintro rfl
            exact hne hzero
          exact ⟨by omega, ht, hzero, fun k hk hkt => hfirst k (by omega) hkt⟩
    · constructor
      · nofun
      · rintro ⟨hs, ht, -⟩
        omega

theorem fetchstr_iff {addr : UInt32} {len : Nat} : p.fetchstr addr = some len ↔ p.IsString addr len := by
  rw [fetchstr]
  split
  · rename_i hout
    rw [ge_iff_le, UInt32.le_iff_toNat_le] at hout
    constructor
    · nofun
    · intro h
      have hlt := h.owns 0 (Nat.succ_pos _)
      omega
  · rename_i hin
    rw [Option.map_eq_some_iff]
    constructor
    · rintro ⟨t, ht, rfl⟩
      obtain ⟨hs, hlt, hzero, hfirst⟩ := (strLoop_eq_some (by omega)).mp ht
      refine ⟨fun k hk => by omega, ?_, fun k hk => hfirst _ (Nat.le_add_right ..) (by omega)⟩
      rwa [Nat.add_sub_cancel' hs]
    · intro h
      refine ⟨addr.toNat + len, (strLoop_eq_some (by omega)).mpr ⟨Nat.le_add_right .., ?_, h.nul, ?_⟩, ?_⟩
      · exact h.owns len (Nat.lt_succ_self len)
      · intro k hk hlt
        have hne := h.first (k - addr.toNat) (by omega)
        rwa [Nat.add_sub_cancel' hk] at hne
      · exact Nat.add_sub_cancel_left ..

theorem argstr_isString {n : Int32} {addr : UInt32} {len : Nat} (h : p.argstr n = some (addr, len)) :
    p.IsString addr len := by
  rw [argstr] at h
  obtain ⟨a, -, h⟩ := Option.bind_eq_some_iff.mp h
  obtain ⟨l, hl, h⟩ := Option.bind_eq_some_iff.mp h
  cases h
  exact fetchstr_iff.mp hl

/-- What is fetched lies below the size of the process, whatever the numbers on the stack are. -/
theorem user_pointers_checked (hsz : p.sz.toNat < Vm.KERNBASE) :
    (∀ addr v, p.fetchint addr = some v → p.Owns addr 4) ∧
    (∀ n v, p.argint n = some v → p.Owns (p.argAddr n) 4) ∧
    (∀ n size a, p.argptr n size = some a → p.Owns a size.toInt.toNat) ∧
    (∀ n size, size < 0 → p.argptr n size = none) ∧
    (∀ addr len, p.fetchstr addr = some len ↔ p.IsString addr len) ∧
    ∀ n addr len, p.argstr n = some (addr, len) → p.IsString addr len := by
  refine ⟨fun addr v => fetchint_owns hsz, fun n v => fetchint_owns hsz, fun n size a => argptr_owns hsz,
    fun n size hneg => ?_, fun addr len => fetchstr_iff, fun n addr len => argstr_isString⟩
  apply Option.eq_none_iff_forall_ne_some.mpr
  intro a h
  exact (argptr_eq_some.mp h).2.1 hneg

theorem user_pointers_checked_block : ∃ p : Caller, p.argptr 0 16 = some 7 ∧ p.Owns 7 16 := by
  have hsz : (Caller.mk 100 40 fun a => if a = 44 then 7 else 0).sz.toNat < Vm.KERNBASE := by decide
  obtain ⟨-, -, hptr, -⟩ := user_pointers_checked hsz
  exact ⟨_, by decide, hptr 0 16 7 (by decide)⟩

end Caller

end Xv6
