import Mathlib.Data.Nat.Basic
import Mathlib.Tactic.Ring

/-!
# Fixed-length byte vectors

Little-endian integers stored in a byte vector at an arbitrary offset.  A field is read with
`le` and written with `putLe`; fields that do not overlap do not disturb one another.
-/

namespace Xv6

/-- A buffer of `n` bytes. -/
def Bytes (n : Nat) : Type := Fin n → UInt8

namespace Bytes

variable {n : Nat}
variable {b c : Bytes n}

@[ext]
theorem ext (h : ∀ i, b i = c i) : b = c := funext h

def zero : Bytes n := fun _ => 0

/-- Overwrite the bytes from `off` on with those of `l`. -/
def fill (b : Bytes n) (off : Nat) (l : List UInt8) : Bytes n := fun j =>
  if off ≤ j.val then (l[j.val - off]?).getD (b j) else b j

/-- The byte at position `i`; positions past the end read as zero. -/
def get (b : Bytes n) (i : Nat) : UInt8 := if h : i < n then b ⟨i, h⟩ else 0

/-- The `len` bytes from `off` on. -/
def slice (b : Bytes n) (off len : Nat) : List UInt8 := (List.range len).map fun k => b.get (off + k)

/-- Little-endian value of the `width` bytes starting at `off`. -/
def le (b : Bytes n) (off : Nat) : Nat → Nat
  | 0 => 0
  | width + 1 => (b.get off).toNat + 256 * le b (off + 1) width

/-- Store the low `width` bytes of `v`, least significant first, at `off`. -/
def putLe (b : Bytes n) (off width v : Nat) : Bytes n := fun j =>
  if off ≤ j.val ∧ j.val < off + width then UInt8.ofNat (v / 256 ^ (j.val - off)) else b j

@[simp]
theorem get_zero (i : Nat) : (zero : Bytes n).get i = 0 := by
  simp [get, zero]

variable {l : List UInt8}

theorem get_fill_in (b : Bytes n) {off k : Nat} (hk : k < l.length) (hn : off + k < n) :
    (b.fill off l).get (off + k) = l[k] := by
  simp [get, fill, hn, hk]

theorem get_fill_out (b : Bytes n) {off i : Nat} (h : i < off ∨ off + l.length ≤ i) :
    (b.fill off l).get i = b.get i := by
  unfold get fill
  by_cases hn : i < n
  · rw [dif_pos hn, dif_pos hn]
    dsimp only
    split
    · rw [List.getElem?_eq_none (by omega), Option.getD_none]
    · rfl
  · rw [dif_neg hn, dif_neg hn]

theorem length_slice (b : Bytes n) (off len : Nat) : (b.slice off len).length = len := by
  rw [slice, List.length_map, List.length_range]

theorem slice_succ (b : Bytes n) (off len : Nat) :
    b.slice off (len + 1) = b.get off :: b.slice (off + 1) len := by
  rw [slice, List.range_succ_eq_map, List.map_cons, List.map_map, slice]
  congr 1
  apply List.map_congr_left
  intro k _
  rw [Function.comp, Nat.add_right_comm]
  rfl

theorem slice_add (b : Bytes n) (off m k : Nat) :
    b.slice off (m + k) = b.slice off m ++ b.slice (off + m) k := by
  rw [slice, List.range_add, List.map_append, List.map_map, slice, slice]
  congr 2
  funext i
  rw [Function.comp, Nat.add_assoc]

theorem slice_congr {off len : Nat} (h : ∀ k, k < len → b.get (off + k) = c.get (off + k)) :
    b.slice off len = c.slice off len := by
  apply List.map_congr_left
  intro k hk
  exact h k (List.mem_range.mp hk)

theorem slice_fill (b : Bytes n) {off : Nat} (h : off + l.length ≤ n) :
    (b.fill off l).slice off l.length = l := by
  apply List.ext_getElem
  · rw [length_slice]
  · intro k hk hl
    simp only [slice, List.getElem_map, List.getElem_range]
    exact get_fill_in b hl (by omega)

theorem slice_fill_out (b : Bytes n) {off p len : Nat}
    (h : p + len ≤ off ∨ off + l.length ≤ p) : (b.fill off l).slice p len = b.slice p len := by
  apply slice_congr
  intro k hk
  exact get_fill_out b (by omega)

theorem get_putLe_in (b : Bytes n) (off width v i : Nat) (hi : i < width)
    (hn : off + i < n) : (b.putLe off width v).get (off + i) = UInt8.ofNat (v / 256 ^ i) := by
  have hin : off ≤ off + i ∧ off + i < off + width := by omega
  simp [get, putLe, hn, hin]

theorem get_putLe_out (b : Bytes n) (off width v i : Nat)
    (hi : i < off ∨ off + width ≤ i) : (b.putLe off width v).get i = b.get i := by
  unfold get putLe
  by_cases hn : i < n
  · have hout : ¬(off ≤ i ∧ i < off + width) := by omega
    simp [hn, hout]
  · simp [hn]

theorem le_lt (b : Bytes n) (off width : Nat) : b.le off width < 256 ^ width := by
  induction width generalizing off with
  | zero => simp [le]
  | succ width ih =>
    have hb : (b.get off).toNat < 256 := (b.get off).toNat_lt
    have hrest := ih (off + 1)
    rw [le, pow_succ]
    omega

theorem le_congr {off width : Nat} (h : ∀ i, i < width → b.get (off + i) = c.get (off + i)) :
    b.le off width = c.le off width := by
  induction width generalizing off with
  | zero => rfl
  | succ width ih =>
    have hhead : b.get off = c.get off := h 0 (by omega)
    have htail : b.le (off + 1) width = c.le (off + 1) width := by
      apply ih
      intro i hi
      have hnext := h (i + 1) (by omega)
      rwa [show off + (i + 1) = off + 1 + i by omega] at hnext
    rw [le, le, hhead, htail]

@[simp]
theorem le_zero (off width : Nat) : (zero : Bytes n).le off width = 0 := by
  induction width generalizing off with
  | zero => rfl
  | succ width ih => simp [le, ih]

theorem le_putLe_disjoint (b : Bytes n) (off width v off' width' : Nat)
    (h : off' + width' ≤ off ∨ off + width ≤ off') :
    (b.putLe off width v).le off' width' = b.le off' width' := by
  apply le_congr
  intro i hi
  apply get_putLe_out
  omega

private theorem le_of_digits (c : Bytes n) (off width v : Nat)
    (h : ∀ i, i < width → c.get (off + i) = UInt8.ofNat (v / 256 ^ i)) :
    c.le off width = v % 256 ^ width := by
  induction width generalizing off v with
  | zero => simp [le, Nat.mod_one]
  | succ width ih =>
    have hhead : (c.get off).toNat = v % 256 := by
      have h0 := h 0 (by omega)
      simp only [Nat.add_zero, pow_zero, Nat.div_one] at h0
      rw [h0]
      simp
    have htail : c.le (off + 1) width = v / 256 % 256 ^ width := by
      apply ih
      intro i hi
      have hnext := h (i + 1) (by omega)
      rw [show off + (i + 1) = off + 1 + i by omega, pow_succ, Nat.mul_comm,
        ← Nat.div_div_eq_div_mul] at hnext
      exact hnext
    rw [le, hhead, htail, pow_succ, Nat.mul_comm (256 ^ width) 256, Nat.mod_mul]

theorem le_putLe_same (b : Bytes n) (off width v : Nat) (hn : off + width ≤ n) :
    (b.putLe off width v).le off width = v % 256 ^ width := by
  apply le_of_digits
  intro i hi
  exact get_putLe_in b off width v i hi (by omega)

/-- The `k`th 32-bit word. -/
def word (b : Bytes n) (k : Nat) : Nat := b.le (4 * k) 4

def putWord (b : Bytes n) (k v : Nat) : Bytes n := b.putLe (4 * k) 4 v

@[simp]
theorem word_zero (k : Nat) : (zero : Bytes n).word k = 0 := le_zero _ _

theorem word_of_ge (b : Bytes n) {k : Nat} (h : n ≤ 4 * k) : b.word k = 0 := by
  have hget (i : Nat) (hi : n ≤ i) : b.get i = 0 := by
    rw [get, dif_neg (by omega)]
  simp [word, le, hget (4 * k) h, hget (4 * k + 1) (by omega), hget (4 * k + 1 + 1) (by omega),
    hget (4 * k + 1 + 1 + 1) (by omega)]

theorem word_putWord_same (b : Bytes n) (k v : Nat) (hk : 4 * k + 4 ≤ n) :
    (b.putWord k v).word k = v % 2 ^ 32 := by
  rw [word, putWord, le_putLe_same _ _ _ _ hk]
  norm_num

theorem word_putWord_ne (b : Bytes n) (k k' v : Nat) (hne : k' ≠ k) :
    (b.putWord k v).word k' = b.word k' := by
  apply le_putLe_disjoint
  omega

end Bytes
end Xv6
