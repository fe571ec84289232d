import Mathlib.Data.Nat.Bitwise
import Mathlib.Tactic.IntervalCases
import Xv6.Lib.Bytes

/-!
# Bitmaps

A byte vector as a vector of bits, eight to a byte, tested, set and cleared with a mask.
-/

namespace Xv6
namespace Bytes

variable {n : Nat}

/-- Overwrite one byte. -/
def put (b : Bytes n) (i : Nat) (x : UInt8) : Bytes n := fun j => if j.val = i then x else b j

theorem get_put (b : Bytes n) {i : Nat} (hi : i < n) (x : UInt8) (j : Nat) :
    (b.put i x).get j = if j = i then x else b.get j := by
  by_cases hj : j < n
  · simp [get, put, hj]
  · have hne : j ≠ i := by omega
    simp [get, hj, hne]

/-- The bit of a byte that a bitmap uses for its entry `i`. -/
def bitMask (i : Nat) : UInt8 := 1 <<< UInt8.ofNat (i % 8)

def bit (b : Bytes n) (i : Nat) : Bool := b.get (i / 8) &&& bitMask i != 0

def setBit (b : Bytes n) (i : Nat) : Bytes n := b.put (i / 8) (b.get (i / 8) ||| bitMask i)

def clearBit (b : Bytes n) (i : Nat) : Bytes n := b.put (i / 8) (b.get (i / 8) &&& ~~~bitMask i)

theorem toNat_bitMask (i : Nat) : (bitMask i).toNat = 2 ^ (i % 8) := by
  have hi := Nat.mod_lt i (show 0 < 8 by decide)
  rw [bitMask]
  generalize i % 8 = k at hi
  interval_cases k <;> rfl

theorem and_bitMask (x : UInt8) (i : Nat) : (x &&& bitMask i != 0) = x.toNat.testBit (i % 8) := by
  have hz : (x &&& bitMask i = 0) ↔ x.toNat.testBit (i % 8) = false := by
    rw [← UInt8.toNat_inj, UInt8.toNat_and, toNat_bitMask, Nat.and_two_pow]
    cases x.toNat.testBit (i % 8) <;> simp
  cases h : x.toNat.testBit (i % 8) with
  | false => simp [hz.mpr h]
  | true =>
    have hne : x &&& bitMask i ≠ 0 := fun h0 => by simp [hz.mp h0] at h
    simpa using hne

theorem bit_eq (b : Bytes n) (i : Nat) : b.bit i = (b.get (i / 8)).toNat.testBit (i % 8) :=
  and_bitMask _ i

theorem bit_setBit (b : Bytes n) {i : Nat} (hi : i < 8 * n) (j : Nat) :
    (b.setBit i).bit j = (b.bit j || decide (j = i)) := by
  rw [bit_eq, bit_eq, setBit, get_put b (by omega)]
  split
  · rename_i hj
    rw [UInt8.toNat_or, Nat.testBit_or, toNat_bitMask, Nat.testBit_two_pow, hj]
    congr 1
    exact decide_eq_decide.mpr (by omega)
  · have hne : j ≠ i := by rintro rfl; contradiction
    simp [hne]

theorem bit_clearBit (b : Bytes n) {i : Nat} (hi : i < 8 * n) (j : Nat) :
    (b.clearBit i).bit j = (b.bit j && !decide (j = i)) := by
  rw [bit_eq, bit_eq, clearBit, get_put b (by omega)]
  split
  · rename_i hj
    have hj8 := Nat.mod_lt j (show 0 < 8 by decide)
    have hnot : (~~~bitMask i).toNat = 2 ^ 8 - ((bitMask i).toNat + 1) := by
      rw [UInt8.toNat_not, UInt8.size]
      omega
    rw [UInt8.toNat_and, Nat.testBit_and, hnot,
      Nat.testBit_two_pow_sub_succ (bitMask i).toNat_lt, toNat_bitMask, Nat.testBit_two_pow, hj]
    simp only [hj8, decide_true, Bool.true_and]
    congr 2
    exact decide_eq_decide.mpr (by omega)
  · have hne : j ≠ i := by rintro rfl; contradiction
    simp [hne]

theorem ext_bit {b c : Bytes n} (h : ∀ i < 8 * n, b.bit i = c.bit i) : b = c := by
  apply ext
  intro j
  rw [← UInt8.toNat_inj]
  apply Nat.eq_of_testBit_eq
  intro k
  by_cases hk : k < 8
  · have hbit := h (8 * j.val + k) (by have := j.isLt; omega)
    rw [bit_eq, bit_eq, show (8 * j.val + k) / 8 = j.val by omega, show (8 * j.val + k) % 8 = k by omega] at hbit
    simpa [get] using hbit
  · have hlt (x : UInt8) : x.toNat < 2 ^ k :=
      x.toNat_lt.trans_le (Nat.pow_le_pow_right (by decide) (Nat.le_of_not_lt hk))
    rw [Nat.testBit_eq_false_of_lt (hlt (b j)), Nat.testBit_eq_false_of_lt (hlt (c j))]

theorem clearBit_setBit (b : Bytes n) {i : Nat} (hi : i < 8 * n) (h : b.bit i = false) :
    (b.setBit i).clearBit i = b := by
  apply ext_bit
  intro j _
  rw [bit_clearBit _ hi, bit_setBit _ hi]
  by_cases hj : j = i
  · simp [hj, h]
  · simp [hj]

end Bytes
end Xv6
