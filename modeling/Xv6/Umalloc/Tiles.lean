import Mathlib.Tactic.Ring
import Mathlib.Data.List.Chain

/-!
# Blocks that tile a memory

The blocks of an allocator in order of their addresses, free ones and those in use.  No block reaches
into the next one, and two free blocks that touch would be one.
-/

namespace Xv6

/-- A block of `size` units of `unit` bytes -/
structure Tile where
  start : Nat
  size : Nat
  free : Bool

namespace Tile

/-- The bytes of a unit -/
abbrev unit : Nat := 8

def stop (t : Tile) : Nat := t.start + t.size * unit

def Holds (t : Tile) (u : Nat) : Prop := t.start ≤ u ∧ u < t.stop

/-- `a` ends before `b` starts, with something between them if both are free. -/
def Before (a b : Tile) : Prop := a.stop ≤ b.start ∧ (a.free → b.free → a.stop ≠ b.start)

end Tile

/-- The blocks between `low` and `high`, in order -/
structure Tiled (low high : Nat) (ts : List Tile) : Prop where
  chain : ts.IsChain Tile.Before
  pos : ∀ t ∈ ts, 0 < t.size
  low : ∀ t ∈ ts, low ≤ t.start
  high : ∀ t ∈ ts, t.stop ≤ high

def starts (free : Bool) (ts : List Tile) : List Nat :=
  (ts.filter fun t => t.free == free).map Tile.start

/-- The units of all blocks -/
def total (ts : List Tile) : Nat := (ts.map Tile.size).sum

def Covers (ts : List Tile) (u : Nat) : Prop := ∃ t ∈ ts, t.Holds u

variable {low high : Nat} {ts L R : List Tile} {t r l : Tile} {free : Bool}

theorem mem_starts {a : Nat} : a ∈ starts free ts ↔ ∃ t ∈ ts, t.free = free ∧ t.start = a := by
  simp [starts, and_assoc]

theorem starts_append (L R : List Tile) : starts free (L ++ R) = starts free L ++ starts free R := by
  simp [starts]

theorem starts_cons_of_eq (h : t.free = free) : starts free (t :: ts) = t.start :: starts free ts := by
  simp [starts, h]

theorem starts_cons_mk (s n : Nat) : starts free (⟨s, n, free⟩ :: ts) = s :: starts free ts :=
  starts_cons_of_eq rfl

theorem starts_cons_of_ne (h : t.free ≠ free) : starts free (t :: ts) = starts free ts := by
  simp [starts, h]

@[simp]
theorem total_append (L R : List Tile) : total (L ++ R) = total L + total R := by
  simp [total]

@[simp]
theorem total_cons (t : Tile) (ts : List Tile) : total (t :: ts) = t.size + total ts := by
  simp [total]

theorem covers_append {u : Nat} : Covers (L ++ R) u ↔ Covers L u ∨ Covers R u := by
  simp only [Covers, List.mem_append]
  constructor
  · rintro ⟨t, ht | ht, hu⟩
    · exact .inl ⟨t, ht, hu⟩
    · exact .inr ⟨t, ht, hu⟩
  · rintro (⟨t, ht, hu⟩ | ⟨t, ht, hu⟩)
    · exact ⟨t, .inl ht, hu⟩
    · exact ⟨t, .inr ht, hu⟩

theorem covers_cons {u : Nat} : Covers (t :: R) u ↔ t.Holds u ∨ Covers R u := by
  simp [Covers]

namespace Tiled

theorem left (h : Tiled low high (L ++ R)) : Tiled low high L where
  chain := h.chain.left_of_append
  pos t ht := h.pos t (List.mem_append_left _ ht)
  low t ht := h.low t (List.mem_append_left _ ht)
  high t ht := h.high t (List.mem_append_left _ ht)

theorem right (h : Tiled low high (L ++ R)) : Tiled low high R where
  chain := h.chain.right_of_append
  pos t ht := h.pos t (List.mem_append_right _ ht)
  low t ht := h.low t (List.mem_append_right _ ht)
  high t ht := h.high t (List.mem_append_right _ ht)

theorem append (hL : Tiled low high L) (hR : Tiled low high R)
    (h : ∀ a ∈ L.getLast?, ∀ b ∈ R.head?, a.Before b) : Tiled low high (L ++ R) where
  chain := hL.chain.append hR.chain h
  pos t ht := (List.mem_append.mp ht).elim (hL.pos t) (hR.pos t)
  low t ht := (List.mem_append.mp ht).elim (hL.low t) (hR.low t)
  high t ht := (List.mem_append.mp ht).elim (hL.high t) (hR.high t)

theorem before (h : Tiled low high (L ++ R)) : ∀ a ∈ L.getLast?, ∀ b ∈ R.head?, a.Before b :=
  (List.isChain_append.mp h.chain).2.2

theorem pairwise (h : Tiled low high ts) : ts.Pairwise fun a b => a.stop ≤ b.start := by
  have hchain : ts.IsChain fun a b => a.stop ≤ b.start := h.chain.imp fun _ _ hab => hab.1
  have htrans : IsTrans Tile fun a b => a.stop ≤ b.start :=
    ⟨fun a b c hab hbc => hab.trans ((Nat.le_add_right _ _).trans hbc)⟩
  exact List.isChain_iff_pairwise.mp hchain

theorem length_le_total (h : Tiled low high ts) : ts.length ≤ total ts := by
  induction ts with
  | nil => exact Nat.zero_le _
  | cons t ts ih =>
    have hpos := h.pos t List.mem_cons_self
    have hrest := ih (right (L := [t]) h)
    rw [total_cons, List.length_cons]
    omega

theorem start_lt_stop (h : Tiled low high ts) (ht : t ∈ ts) : t.start < t.stop := by
  have := h.pos t ht
  simp only [Tile.stop, Tile.unit]
  omega

theorem lt_left (h : Tiled low high (L ++ t :: R)) : ∀ a ∈ L, a.stop ≤ t.start :=
  fun a ha => (List.pairwise_append.mp h.pairwise).2.2 a ha t List.mem_cons_self

theorem lt_right (h : Tiled low high (L ++ t :: R)) : ∀ b ∈ R, t.stop ≤ b.start :=
  (List.pairwise_cons.mp (List.pairwise_append.mp h.pairwise).2.1).1

theorem sorted (h : Tiled low high ts) : (starts free ts).Pairwise (· < ·) := by
  rw [starts, List.pairwise_map]
  refine (h.pairwise.filter _).imp_of_mem ?_
  intro a b ha _ hab
  exact (h.start_lt_stop (List.mem_of_mem_filter ha)).trans_le hab

theorem head_of_start (h : Tiled low high (t :: R)) (hr : r ∈ R) (hstart : r.start = t.stop) :
    ∃ R', R = r :: R' := by
  cases R with
  | nil => simp at hr
  | cons x R =>
    rcases List.mem_cons.mp hr with rfl | hr
    · exact ⟨R, rfl⟩
    · have hx := (List.pairwise_cons.mp h.pairwise).1 x List.mem_cons_self
      have hxr := (List.pairwise_cons.mp (List.pairwise_cons.mp h.pairwise).2).1 r hr
      have hpos := h.start_lt_stop (t := x) (by simp)
      omega

theorem last_of_stop (h : Tiled low high (L ++ t :: R)) (hl : l ∈ L) (hstop : l.stop = t.start) :
    ∃ L', L = L' ++ [l] := by
  rcases List.eq_nil_or_concat L with rfl | ⟨L', x, rfl⟩
  · simp at hl
  · rw [List.concat_eq_append] at h hl ⊢
    rcases List.mem_append.mp hl with hl | hl
    · have hx : x.stop ≤ t.start := h.lt_left x (by simp)
      rw [List.append_assoc] at h
      have hlx : l.stop ≤ x.start := h.lt_left l hl
      have hpos := h.start_lt_stop (t := x) (by simp)
      omega
    · obtain rfl : l = x := by simpa using hl
      exact ⟨L', rfl⟩

theorem stop_ne_start (h : Tiled low high (L ++ t :: R)) (ht : t.free = true) (hr : r ∈ L ++ t :: R)
    (hfree : r.free = true) : t.stop ≠ r.start := by
  intro heq
  have hpos := h.start_lt_stop (t := t) (by simp)
  rcases List.mem_append.mp hr with hr | hr
  · have := h.lt_left r hr
    have := h.start_lt_stop (t := r) (by simp [hr])
    omega
  · rcases List.mem_cons.mp hr with rfl | hr
    · omega
    · obtain ⟨R', rfl⟩ := h.right.head_of_start hr heq.symm
      exact ((List.isChain_cons_cons.mp h.right.chain).1).2 ht hfree heq

theorem holds_join {a b : Tile} {u : Nat} (h : a.stop = b.start) :
    Tile.Holds ⟨a.start, a.size + b.size, free⟩ u ↔ a.Holds u ∨ b.Holds u := by
  simp only [Tile.Holds, Tile.stop, Tile.unit] at h ⊢
  omega

theorem replace (h : Tiled low high (L ++ t :: R)) (t' : Tile) (hstart : t'.start = t.start)
    (hsize : t'.size = t.size) (hleft : ∀ a ∈ L.getLast?, a.free → t'.free → a.stop ≠ t.start)
    (hright : ∀ b ∈ R.head?, t'.free → b.free → t.stop ≠ b.start) :
    Tiled low high (L ++ t' :: R) := by
  have hstop : t'.stop = t.stop := by rw [Tile.stop, Tile.stop, hstart, hsize]
  have hR : Tiled low high (t' :: R) := by
    have hcons := h.right
    refine ⟨?_, ?_, ?_, ?_⟩
    · rw [List.isChain_cons]
      refine ⟨fun b hb => ⟨?_, ?_⟩, (List.isChain_cons.mp hcons.chain).2⟩
      · rw [hstop]
        exact ((List.isChain_cons.mp hcons.chain).1 b hb).1
      · rw [hstop]
        exact hright b hb
    all_goals
      intro x hx
      rcases List.mem_cons.mp hx with rfl | hx
    · exact hsize ▸ hcons.pos t (by simp)
    · exact hcons.pos x (List.mem_cons_of_mem _ hx)
    · exact hstart ▸ hcons.low t (by simp)
    · exact hcons.low x (List.mem_cons_of_mem _ hx)
    · exact hstop ▸ hcons.high t (by simp)
    · exact hcons.high x (List.mem_cons_of_mem _ hx)
  refine h.left.append hR ?_
  intro a ha b hb
  obtain rfl : t' = b := by simpa using hb
  exact ⟨hstart ▸ (h.before a ha t rfl).1, hstart ▸ hleft a ha⟩

theorem join (h : Tiled low high (L ++ t :: r :: R)) (hstop : t.stop = r.start)
    (hfree : t.free = r.free) : Tiled low high (L ++ ⟨t.start, t.size + r.size, t.free⟩ :: R) := by
  have hjoin : Tile.stop ⟨t.start, t.size + r.size, t.free⟩ = r.stop := by
    simp only [Tile.stop, Tile.unit] at hstop ⊢
    omega
  have hR : Tiled low high (⟨t.start, t.size + r.size, t.free⟩ :: R) := by
    have hcons := h.right
    have hrest := (List.isChain_cons.mp hcons.chain).2
    refine ⟨?_, ?_, ?_, ?_⟩
    · rw [List.isChain_cons]
      refine ⟨fun b hb => ?_, (List.isChain_cons.mp hrest).2⟩
      have hbefore := (List.isChain_cons.mp hrest).1 b hb
      exact ⟨hjoin ▸ hbefore.1, hjoin ▸ hfree ▸ hbefore.2⟩
    all_goals
      intro x hx
      rcases List.mem_cons.mp hx with rfl | hx
    · have := hcons.pos t (by simp)
      simp only
      omega
    · exact hcons.pos x (by simp [hx])
    · exact hcons.low t (by simp)
    · exact hcons.low x (by simp [hx])
    · exact hjoin ▸ hcons.high r (by simp)
    · exact hcons.high x (by simp [hx])
  refine h.left.append hR ?_
  intro a ha b hb
  obtain rfl : _ = b := by simpa using hb
  exact h.before a ha t rfl

theorem joinUpper (h : Tiled low high (L ++ t :: r :: R)) (hlive : t.free = false)
    (hstop : t.stop = r.start) : Tiled low high (L ++ ⟨t.start, t.size + r.size, false⟩ :: R) := by
  rw [List.append_cons] at h
  have hused := h.replace { r with free := false } rfl rfl (by simp) (by simp)
  rw [← List.append_cons] at hused
  have hjoin := hused.join hstop hlive
  rwa [hlive] at hjoin

theorem joinLower {s n : Nat} (h : Tiled low high (L ++ l :: ⟨s, n, false⟩ :: R)) (hfree : l.free = true)
    (hstop : l.stop = s) (hright : ∀ b ∈ R.head?, b.free → s + n * Tile.unit ≠ b.start) :
    Tiled low high (L ++ ⟨l.start, l.size + n, true⟩ :: R) := by
  have hused := h.replace { l with free := false } rfl rfl (by simp) (by simp)
  have hjoin := hused.join hstop rfl
  refine hjoin.replace _ rfl rfl ?_ ?_
  · intro a ha hfa _
    exact (h.before a ha l rfl).2 hfa hfree
  · intro b hb _ hfb heq
    refine hright b hb hfb ?_
    simp only [Tile.stop, Tile.unit] at hstop heq ⊢
    omega

theorem split (h : Tiled low high (L ++ t :: R)) {n : Nat} (hn : 0 < n) (hlt : n < t.size) :
    Tiled low high
      (L ++ ⟨t.start, t.size - n, t.free⟩ :: ⟨t.start + (t.size - n) * Tile.unit, n, false⟩ :: R) := by
  have hstop : t.stop = t.start + (t.size - n) * Tile.unit + n * Tile.unit := by
    simp only [Tile.stop, Tile.unit]
    omega
  have hcons := h.right
  have hR : Tiled low high
      (⟨t.start, t.size - n, t.free⟩ :: ⟨t.start + (t.size - n) * Tile.unit, n, false⟩ :: R) := by
    refine ⟨?_, ?_, ?_, ?_⟩
    · rw [List.isChain_cons_cons, List.isChain_cons]
      refine ⟨⟨le_rfl, fun _ hf => nomatch hf⟩, fun b hb => ⟨?_, fun hf => nomatch hf⟩,
        (List.isChain_cons.mp hcons.chain).2⟩
      have hbefore := ((List.isChain_cons.mp hcons.chain).1 b hb).1
      rw [hstop] at hbefore
      exact hbefore
    all_goals
      intro x hx
      rcases List.mem_cons.mp hx with rfl | hx
      on_goal 2 => rcases List.mem_cons.mp hx with rfl | hx
    · exact Nat.sub_pos_of_lt hlt
    · exact hn
    · exact hcons.pos x (by simp [hx])
    · exact hcons.low t (by simp)
    · exact (hcons.low t (by simp)).trans (Nat.le_add_right ..)
    · exact hcons.low x (by simp [hx])
    · have := hcons.high t (by simp)
      rw [hstop] at this
      exact (Nat.le_add_right ..).trans this
    · have := hcons.high t (by simp)
      rw [hstop] at this
      exact this
    · exact hcons.high x (by simp [hx])
  refine h.left.append hR ?_
  intro a ha b hb
  obtain rfl : _ = b := by simpa using hb
  exact h.before a ha t rfl

theorem grow {p n : Nat} (h : Tiled low high ts) (hp : high ≤ p) (hlow : low ≤ p) (hn : 0 < n) :
    Tiled low (p + n * Tile.unit) (ts ++ [⟨p, n, false⟩]) := by
  have hts : Tiled low (p + n * Tile.unit) ts :=
    { h with high := fun t ht => (h.high t ht).trans (hp.trans (Nat.le_add_right ..)) }
  refine hts.append ⟨.singleton _, by simpa using hn, by simpa using hlow, by simp [Tile.stop]⟩ ?_
  intro a ha b hb
  obtain rfl : _ = b := by simpa using hb
  exact ⟨(h.high a (List.mem_of_getLast? ha)).trans hp, fun _ hf => nomatch hf⟩

end Tiled

end Xv6
