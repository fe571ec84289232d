import Mathlib.Data.Finset.Card
import Mathlib.Data.Finset.Range
import Xv6.Disk.Layout

/-!
# Free blocks and room in the log

What an update of the disk uses up: free blocks of the bitmap, and places of the log for blocks that are
not in the transaction yet.
-/

namespace Xv6

namespace Store

variable {s s' t : Store} {E : StorePanic → Prop} {m n m' n' : Nat}

def freeBlocks (s : Store) : Nat := ((Finset.range s.sb.size).filter fun b => s.marked b = false).card

/-- As many blocks may a transaction have when `log_write` is called for its last one. -/
def logCap (s : Store) : Nat := min LOGSIZE (s.logsize - 1)

/-- There are `m` free blocks and `n` places in the log, unless `E` allows the panics that follow from a
lack of them. -/
structure Affords (E : StorePanic → Prop) (s : Store) (m n : Nat) : Prop where
  free : ¬E .outOfBlocks → m ≤ s.freeBlocks
  room : ¬E .tooBig → s.lh.length + n ≤ s.logCap
  trans : ¬E .outsideTrans → 0 < s.outstanding

/-- At most `m` blocks and `n` places of the log have been used. -/
structure Spends (s s' : Store) (m n : Nat) : Prop where
  free : s.freeBlocks ≤ s'.freeBlocks + m
  log : s'.lh.length ≤ s.lh.length + n
  logged : s.lh ⊆ s'.lh
  logsize : s'.logsize = s.logsize
  outstanding : s'.outstanding = s.outstanding

theorem Affords.mono (h : s.Affords E m n) (hm : m' ≤ m) (hn : n' ≤ n) : s.Affords E m' n' where
  free he := hm.trans (h.free he)
  room he := (Nat.add_le_add_left hn _).trans (h.room he)
  trans := h.trans

theorem Affords.rest (h : s.Affords E (m + m') (n + n')) (hs : Spends s s' m n) :
    s'.Affords E m' n' where
  free he := by
    have hle := h.free he
    have hfree := hs.free
    omega
  room he := by
    have hle := h.room he
    have hlog := hs.log
    rw [logCap] at hle ⊢
    rw [hs.logsize]
    omega
  trans he := hs.outstanding ▸ h.trans he

theorem Spends.refl (s : Store) : Spends s s 0 0 :=
  ⟨Nat.le_refl _, Nat.le_refl _, List.Subset.refl _, rfl, rfl⟩

theorem Spends.trans (h : Spends s s' m n) (h' : Spends s' t m' n') :
    Spends s t (m + m') (n + n') where
  free := by
    have hfree := h.free
    have hfree' := h'.free
    omega
  log := by
    have hlog := h.log
    have hlog' := h'.log
    omega
  logged _ hb := h'.logged (h.logged hb)
  logsize := h'.logsize.trans h.logsize
  outstanding := h'.outstanding.trans h.outstanding

theorem Spends.mono (h : Spends s s' m n) (hm : m ≤ m') (hn : n ≤ n') : Spends s s' m' n' :=
  ⟨h.free.trans (Nat.add_le_add_left hm _), h.log.trans (Nat.add_le_add_left hn _), h.logged, h.logsize,
    h.outstanding⟩

theorem subset_absorb (lh : List Nat) (b : Nat) : lh ⊆ absorb lh b :=
  fun _ hc => (mem_absorb ..).mpr (.inr hc)

theorem length_absorb_le (lh : List Nat) (b : Nat) : (absorb lh b).length ≤ lh.length + 1 := by
  rw [absorb]
  split
  · exact Nat.le_succ _
  · rw [List.length_append, List.length_singleton]

theorem mem_lh_write (s : Store) (b : Nat) (data : Block) : b ∈ (s.write b data).lh :=
  (mem_absorb ..).mpr (.inl rfl)

theorem freeBlocks_write {b : Nat} {data : Block} (h : ∀ c, c < s.sb.size → BBLOCK c s.sb ≠ b) :
    (s.write b data).freeBlocks = s.freeBlocks := by
  refine congrArg Finset.card (Finset.filter_congr fun c hc => ?_)
  rw [marked_write (h c (Finset.mem_range.mp hc))]

theorem spends_write {b : Nat} {data : Block} (h : ∀ c, c < s.sb.size → BBLOCK c s.sb ≠ b) :
    Spends s (s.write b data) 0 1 where
  free := (freeBlocks_write h).ge
  log := length_absorb_le ..
  logged := subset_absorb ..
  logsize := rfl
  outstanding := rfl

theorem spends_absorbed {b : Nat} {data : Block} (h : ∀ c, c < s.sb.size → BBLOCK c s.sb ≠ b)
    (hb : b ∈ s.lh) : Spends s (s.write b data) 0 0 where
  free := (freeBlocks_write h).ge
  log := by
    change (absorb s.lh b).length ≤ _
    rw [absorb, if_pos hb]
    exact Nat.le_refl _
  logged := subset_absorb ..
  logsize := rfl
  outstanding := rfl

theorem spends_setIncore (s : Store) (i : Nat) (x : Incore) : Spends s (s.setIncore i x) 0 0 :=
  ⟨Nat.le_refl _, Nat.le_refl _, List.Subset.refl _, rfl, rfl⟩

end Store

end Xv6
